import CommandSequence.Proofs.Source.Leading
import CommandSequence.Proofs.Source.Places
import CommandSequence.Proofs.Source.Refilled

/-!
# Texts put together from their lines

Lines are read one after the other (`Line.Run`). A text that ends in a line feed is read up to a
place (`EndsAt`), and a text that goes on from there is read from that place on: what is read of the
whole is what is read of the beginning and what is read from its end (`EndsAt.join`).
-/

namespace CommandSequence.Source

variable {p p' : Place} {c c' : Cursor} {lines more : List Line} {fuel : Nat}

namespace Line

/-- Lines are read from a place and cursor on, and lead to another place and cursor. -/
inductive Run : Place → Cursor → List Line → Place → Cursor → Prop where
  | nil (p : Place) (c : Cursor) : Run p c [] p c
  | cons {p p₁ p' : Place} {c c₁ c' : Cursor} {line : Line} {lines : List Line}
    (hline : read p c = .ok (some (line, p₁, c₁))) (h : Run p₁ c₁ lines p' c') :
    Run p c (line :: lines) p' c'

/-- All lines of a text are read up to its end. -/
theorem exists_run (h : readAll fuel p c = .ok lines) :
    ∃ p' c', Run p c lines p' c' ∧ read p' c' = .ok none := by
  induction fuel generalizing p c lines with
  | zero => cases h
  | succ fuel ih =>
    obtain ⟨found, hread, h⟩ := bind_eq_ok.1 h
    cases found with
    | none => cases h; exact ⟨p, c, .nil p c, hread⟩
    | some found =>
      obtain ⟨line, p₁, c₁⟩ := found
      obtain ⟨more, hmore, heq⟩ := bind_eq_ok.1 h
      cases heq
      obtain ⟨p', c', hrun, hend⟩ := ih hmore
      exact ⟨p', c', .cons hread hrun, hend⟩

namespace Run

/-- What is read from the end of a run is read after it. -/
theorem readAll (hrun : Run p c lines p' c') (h : readAll fuel p' c' = .ok more) :
    Line.readAll (lines.length + fuel) p c = .ok (lines ++ more) := by
  induction hrun with
  | nil => rwa [List.length_nil, Nat.zero_add]
  | @cons _ _ _ _ _ _ line lines hline _ ih =>
    have hlength : (line :: lines).length + fuel = lines.length + fuel + 1 := by
      rw [List.length_cons]; omega
    rw [hlength]
    exact bind_eq_ok.2 ⟨_, hline, bind_eq_ok.2 ⟨_, ih h, rfl⟩⟩

/-- What is read of a whole text begins with a run and goes on from its end. -/
theorem of_readAll (hrun : Run p c lines p' c') (h : Line.readAll fuel p c = .ok more) :
    ∃ fuel' rest, more = lines ++ rest ∧ Line.readAll fuel' p' c' = .ok rest := by
  induction hrun generalizing fuel more with
  | nil => exact ⟨fuel, more, rfl, h⟩
  | cons hline _ ih =>
    cases fuel with
    | zero => cases h
    | succ fuel =>
      obtain ⟨found, hread, h⟩ := bind_eq_ok.1 h
      cases hread.symm.trans hline
      obtain ⟨tail, htail, heq⟩ := bind_eq_ok.1 h
      cases heq
      obtain ⟨fuel', rest, rfl, hrest⟩ := ih htail
      exact ⟨fuel', rest, rfl, hrest⟩

/-- A run is followed at a cursor that tracks its own. -/
theorem track {tail : List Char} (hrun : Run p c lines p' c') {d : Cursor}
    (h : Cursor.Tracks tail c d) :
    ∃ lines' d', Run p d lines' p' d' ∧ lines.map Line.unplaced = lines'.map Line.unplaced ∧
      Cursor.Tracks tail c' d' := by
  induction hrun generalizing d with
  | nil => exact ⟨[], d, .nil _ d, rfl, h⟩
  | cons hline _ ih =>
    rcases h.readLine _ _ hline with ⟨hnone, -⟩ | ⟨t, ⟨line', p₁, d₁⟩, heq, hread, hsame⟩
    · cases hnone
    · cases heq
      obtain ⟨hunplaced, hplace, htracks, -⟩ := hsame
      dsimp only at hplace htracks
      subst hplace
      obtain ⟨lines', d', hrun', hlines, hend⟩ := ih htracks
      exact ⟨line' :: lines', d', .cons hread hrun', congrArg₂ List.cons hunplaced hlines, hend⟩

end Run

end Line

/-! ## The end of a text -/

/-- The text is read as the given lines, and then stands at the given place. -/
def EndsAt (text : List Char) (lines : List Line) (p : Place) : Prop :=
  ∃ c, Line.Run .start (Cursor.ofText text) lines p c ∧ Line.read p c = .ok none

variable {text tail : List Char}

theorem exists_endsAt (h : readLines text = .ok lines) : ∃ p, EndsAt text lines p := by
  obtain ⟨p, c, hrun, hend⟩ := Line.exists_run h
  exact ⟨p, c, hrun, hend⟩

/-- A text that ends in a line feed goes on as itself. -/
theorem tracks_append (h : text.getLast? = some ('\n' : Char)) (tail : List Char) :
    Cursor.Tracks tail (Cursor.ofText text) (Cursor.ofText (text ++ tail)) :=
  ⟨.inl ((RefilledFrom.refl false text).respaced tail h).1, Nat.le_refl _⟩

theorem respaced_self (h : text.getLast? = some ('\n' : Char)) : Respaced [] text text := by
  have hrespaced := ((RefilledFrom.refl false text).respaced [] h).1
  rwa [List.append_nil] at hrespaced

/-- What is read of a text with some fuel is read of it apart from places. The count of lines is no
bound that the reader knows, so the text is read once more. -/
theorem exists_readLines (h : text.getLast? = some ('\n' : Char))
    (hread : Line.readAll fuel .start (Cursor.ofText text) = .ok lines) :
    ∃ whole, readLines text = .ok whole ∧ whole.map Line.unplaced = lines.map Line.unplaced := by
  have hself : Cursor.Tracks [] (Cursor.ofText text) (Cursor.ofText text) :=
    ⟨.inl (respaced_self h), Nat.le_refl _⟩
  obtain ⟨whole, hwhole, hsame⟩ := hself.readAll .start (Nat.lt_succ_self _) _ hread
  exact ⟨whole, hwhole, hsame.symm⟩

namespace EndsAt

/-- The longer text has the lines of its beginning, and stands at the same place before the rest. -/
theorem exists_run (h : EndsAt text lines p) (htext : text.getLast? = some ('\n' : Char))
    (tail : List Char) : ∃ lines' c, Line.Run .start (Cursor.ofText (text ++ tail)) lines' p c ∧
      lines.map Line.unplaced = lines'.map Line.unplaced ∧ c.rest = nextLine tail ∧
      c.rest.length ≤ c.bound := by
  obtain ⟨c, hrun, hend⟩ := h
  obtain ⟨lines', c', hrun', hlines, htracks⟩ := hrun.track (tracks_append htext tail)
  rcases htracks.readLine p _ hend with ⟨-, -, hrest⟩ | ⟨t, t', heq, -⟩
  · exact ⟨lines', c', hrun', hlines, hrest, htracks.bound⟩
  · cases heq

/-- What is read from the end of a text is read of the longer text after it. -/
theorem join (h : EndsAt text lines p) (htext : text.getLast? = some ('\n' : Char))
    (htail : tail.getLast? = some ('\n' : Char)) (hc : c.rest = nextLine tail)
    (hread : Line.readAll fuel p c = .ok more) : ∃ whole, readLines (text ++ tail) = .ok whole ∧
      whole.map Line.unplaced = (lines ++ more).map Line.unplaced := by
  obtain ⟨lines', c', hrun, hlines, hrest, hbound⟩ := h.exists_run htext tail
  have hnext := (respaced_self htail).nextLine
  have htracks : Cursor.Tracks [] c c' := ⟨hc ▸ hrest ▸ hnext, hbound⟩
  obtain ⟨more', hmore', hmore⟩ := htracks.readAll p (Nat.lt_succ_self _) more hread
  have hwhole : (text ++ tail).getLast? = some ('\n' : Char) := by
    rw [List.getLast?_append, htail]
    rfl
  obtain ⟨whole, hread, hsame⟩ := exists_readLines hwhole (hrun.readAll hmore')
  refine ⟨whole, hread, hsame.trans ?_⟩
  rw [List.map_append, List.map_append, ← hlines, hmore]

end EndsAt

end CommandSequence.Source
