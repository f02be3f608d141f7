import CommandSequence.Document.OfOutline
import CommandSequence.Proofs.Outcome
import CommandSequence.Proofs.Source.Lexing

/-!
# Taking tokens from a cursor

A cursor that stands before a text takes the token which the text begins with, if the levels of the
place admit its kind, and then stands before the rest (`take_ok`). Conversely, every token that a
cursor gives was found among the kinds of the first level and is admitted (`of_take`). A line end
takes blank lines with it, so the next line is where `nextLine` says.
-/

namespace CommandSequence.Source

variable {c : Cursor} {kinds : List Terminal} {levels : List Level} {kind : Terminal}
variable {text lexeme left rest : List Char}

/-- The token has a kind and a text. -/
structure Token.Is (kind : Terminal) (lexeme : List Char) (token : Token) : Prop where
  kind : token.kind = kind
  text : token.text = lexeme

/-- The token was found among the kinds looked for. -/
def Token.Found (kinds : List Terminal) (token : Token) : Prop :=
  ∃ text left, Cursor.firstCut? kinds text = some (token.kind, token.text, left)

namespace Cursor

/-- The cursor stands before a text, which is no longer than the whole one. -/
structure Before (text : List Char) (c : Cursor) : Prop where
  rest : c.rest = text
  bound : text.length ≤ c.bound

/-! ## Tokens that are there -/

/-- The next token is the one that the text begins with. -/
theorem next_of_lexes (h : Lexes kinds c.rest kind lexeme left) :
    ∃ token after, c.next kinds = .ok (some (token, after)) ∧ token.Is kind lexeme ∧
      after.rest = left ∧ after.bound = c.bound := by
  unfold Lexes at h
  obtain ⟨d, more, hd, -⟩ := Terminal.starts_of_cut? (of_firstCut? h).2.1
  have hfilled : (c.rest.dropWhile Terminal.isBlank).isEmpty = false := by rw [hd]; rfl
  let position := c.position.advance (c.rest.takeWhile Terminal.isBlank)
  refine ⟨⟨kind, lexeme, position⟩, ⟨left, position.advance lexeme, position, c.bound⟩, ?_,
    ⟨rfl, rfl⟩, rfl, rfl⟩
  simp only [next, skipBlanks, hfilled, h]
  rfl

/-- The token that the text begins with is read, if the place admits it. -/
theorem read_of_lexes (h : Lexes (Level.sought levels) c.rest kind lexeme left)
    (hlevels : Level.refusing? levels kind = none) :
    ∃ token after, c.read levels = .ok (some (token, after)) ∧ token.Is kind lexeme ∧
      after.rest = left ∧ after.bound = c.bound := by
  obtain ⟨token, after, hnext, htoken, hafter⟩ := next_of_lexes h
  refine ⟨token, after, ?_, htoken, hafter⟩
  rw [read, hnext]
  simp only [Bind.bind, Except.bind, htoken.kind, hlevels]
  rfl

theorem read_ok (hc : c.Before text) (h : Lexes (Level.sought levels) text kind lexeme left)
    (hlevels : Level.refusing? levels kind = none) :
    ∃ token after, c.read levels = .ok (some (token, after)) ∧ token.Is kind lexeme ∧
      after.Before left := by
  have hlength := h.length_le
  obtain ⟨token, after, hread, htoken, hrest, hbound⟩ := read_of_lexes (hc.rest ▸ h) hlevels
  exact ⟨token, after, hread, htoken, hrest, hbound ▸ Nat.le_trans hlength hc.bound⟩

/-- A cursor takes the token that its text begins with, if the place admits it. -/
theorem take_ok (hc : c.Before text) (h : Lexes (Level.sought levels) text kind lexeme left)
    (hlevels : Level.refusing? levels kind = none) :
    Succeeds (c.take levels) fun found => found.1.Is kind lexeme ∧ found.2.Before left := by
  obtain ⟨token, after, hread, htoken, hafter⟩ := read_ok hc h hlevels
  refine ⟨(token, after), ?_, htoken, hafter⟩
  rw [take, hread]
  rfl

theorem refusing?_single (h : kind ∈ kinds) : Level.refusing? [⟨kinds, []⟩] kind = none := by
  simp [Level.refusing?, h]

theorem expect_ok (hc : c.Before text) (h : Lexes kinds text kind lexeme left) :
    Succeeds (c.expect kinds) fun found => found.1.Is kind lexeme ∧ found.2.Before left :=
  take_ok hc h (refusing?_single h.mem)

/-- A punctuation mark is taken. -/
theorem expect_mark {d : Char} (kind : Terminal) (hc : c.Before (d :: text))
    (hmark : kind.literal?.map String.toList = some [d]) :
    Succeeds (c.expect [kind]) fun found => found.2.Before text :=
  (expect_ok hc
    ((Begins.mark kind hmark text).lexes (List.mem_singleton.2 rfl))).mono fun _ h => h.2

theorem read_end (hc : c.Before []) (hlevels : Level.refusing? levels .endOfInput = none) :
    c.read levels = .ok none := by
  simp only [read, next, skipBlanks, hc.rest]
  simp [Bind.bind, Except.bind, hlevels, pure, Except.pure]

/-! ## Tokens that were found -/

theorem firstCut?_of_next {token : Token} {after : Cursor}
    (h : c.next kinds = .ok (some (token, after))) :
    ∃ left, firstCut? kinds (c.rest.dropWhile Terminal.isBlank) =
      some (token.kind, token.text, left) := by
  simp only [next] at h
  split at h
  · cases h
  · split at h
    · next hfound => cases h; exact ⟨_, hfound⟩
    · cases h

/-- A token is read if it comes next and the place admits it. -/
theorem read_eq_some {token : Token} {after : Cursor} : c.read levels = .ok (some (token, after)) ↔
    c.next (Level.sought levels) = .ok (some (token, after)) ∧
      Level.refusing? levels token.kind = none := by
  constructor
  · intro h
    obtain ⟨found, hnext, h⟩ := bind_eq_ok.1 h
    cases found with
    | none => simp only at h; split at h <;> cases h
    | some found =>
      obtain ⟨t, after⟩ := found
      simp only at h
      split at h
      · next hlevels => cases h; exact ⟨hnext, hlevels⟩
      · cases h
  · rintro ⟨hnext, hlevels⟩
    refine bind_eq_ok.2 ⟨_, hnext, ?_⟩
    simp only [hlevels]
    rfl

theorem of_next {token : Token} {after : Cursor} (h : c.next kinds = .ok (some (token, after))) :
    token.Found kinds :=
  ⟨_, firstCut?_of_next h⟩

theorem of_read {token : Token} {after : Cursor} (h : c.read levels = .ok (some (token, after))) :
    token.Found (Level.sought levels) ∧ Level.refusing? levels token.kind = none :=
  (read_eq_some.1 h).imp_left of_next

/-- Every token that is taken was found, and the place admits it. -/
theorem of_take {token : Token} {after : Cursor} (h : c.take levels = .ok (token, after)) :
    token.Found (Level.sought levels) ∧ Level.refusing? levels token.kind = none := by
  obtain ⟨found, hread, h⟩ := bind_eq_ok.1 h
  cases found with
  | none => cases h
  | some found => cases h; exact of_read hread

end Cursor

theorem Token.Found.mem {token : Token} (h : token.Found kinds) : token.kind ∈ kinds := by
  obtain ⟨text, left, hfound⟩ := h
  exact (Cursor.of_firstCut? hfound).1

/-! ## Line ends -/

/-- The text from the next line on that has anything on it. -/
def nextLine (text : List Char) : List Char :=
  (Terminal.cutLineEnds false text).2

theorem nextLine_newline (text : List Char) : nextLine ('\n' :: text) = nextLine text :=
  rfl

theorem nextLine_blanks {blanks : List Char} (h : ∀ c ∈ blanks, Terminal.isBlank c = true)
    (text : List Char) : nextLine (blanks ++ text) = nextLine text := by
  induction blanks with
  | nil => rfl
  | cons c blanks ih =>
    obtain ⟨hc, hblanks⟩ := List.forall_mem_cons.1 h
    rw [List.cons_append, ← ih hblanks]
    simp only [Terminal.isBlank, Bool.or_eq_true, beq_iff_eq] at hc
    rcases hc with rfl | rfl <;> rfl

/-- A text whose first line has something on it begins with that line. -/
theorem nextLine_cons {d : Char} (h : d ∉ [('\n' : Char), '\r', '#', ' ', '\t'])
    (text : List Char) : nextLine (d :: text) = d :: text := by
  simp only [List.mem_cons, List.not_mem_nil, or_false, not_or] at h
  obtain ⟨hnewline, hreturn, hmark, hspace, htab⟩ := h
  unfold nextLine Terminal.cutLineEnds
  split
  · next heq => cases heq
  · next heq => cases heq; exact absurd rfl hreturn
  · next heq => cases heq; simp [Terminal.isBlank, hnewline, hspace, htab, hmark]

/-- A line that begins with a token, other than a description, has something on it. -/
theorem nextLine_of_begins (h : Begins text kind lexeme left) (hnewline : kind ≠ .newline)
    (hdescription : kind ≠ .description) : nextLine text = text := by
  obtain ⟨d, more, rfl, hd⟩ := Terminal.starts_of_cut? h.cut
  refine nextLine_cons (fun hmem => ?_) more
  have hnone : ∀ d ∈ [('\n' : Char), '\r', '#', ' ', '\t'], kind.starts d = false := by
    cases kind
    all_goals first
      | exact absurd rfl hnewline
      | exact absurd rfl hdescription
      | exact List.all_iff_forall_prop.1 (by decide)
  rw [hnone d hmem] at hd
  cases hd

/-! ## Values of one token -/

/-- A token that opens no array and no object is a value by itself. -/
theorem Value.readFrom_scalar {token : Token} (hbrace : token.kind ≠ .leftBrace)
    (hbracket : token.kind ≠ .leftBracket) (fuel : Nat) (c : Cursor) :
    readFrom token (fuel + 1) c = .ok (.scalar token, c) := by
  unfold readFrom
  split
  · next h => exact absurd h hbrace
  · next h => exact absurd h hbracket
  · rfl

end CommandSequence.Source

namespace CommandSequence

/-- A token gives the string that its text stands for. -/
theorem OfOutline.string_of_decode? {token : Source.Token} {text s : List Char}
    (htext : token.text = text) (h : Quoted.decode? text = some s) :
    string token = .ok (String.ofList s) := by
  rw [string, htext, h]

/-- A token that quotes a string gives it back. -/
theorem OfOutline.string_of_is {token : Source.Token} {s : String}
    (h : token.Is .string (Quoted.encode s.toList)) : string token = .ok s := by
  rw [string_of_decode? h.text (Quoted.decode?_encode s.toList), String.ofList_toList]

end CommandSequence
