import CommandSequence.Text.Cut
import Mathlib.Data.List.TakeWhile

/-!
# What is cut off

What the small readers cut off a text is a run of characters of a class (`Consumes`). A text is
split at each separator that stands in it (`split_append`), so that a piece between two of them is
one of its pieces (`mem_split`).
-/

namespace CommandSequence.Cut

/-! ## Cutting characters of a class -/

variable {p q : Char → Bool} {n : Nat} {c : Char} {text piece rest rest' : List Char}

/-- A text is characters of a class and then another text. -/
def Consumes (p : Char → Bool) (text rest : List Char) : Prop :=
  ∃ piece, text = piece ++ rest ∧ ∀ c ∈ piece, p c = true

/-- A text is characters of a class, up to a line feed at its end. -/
def Exhausts (p : Char → Bool) (text : List Char) : Prop :=
  ∃ rest, Consumes p text rest ∧ atEnd rest = true

theorem Consumes.refl (p : Char → Bool) (text : List Char) : Consumes p text text :=
  ⟨[], rfl, List.forall_mem_nil _⟩

theorem Consumes.trans (h : Consumes p text rest) (h' : Consumes p rest rest') :
    Consumes p text rest' := by
  obtain ⟨piece, rfl, hpiece⟩ := h
  obtain ⟨piece', rfl, hpiece'⟩ := h'
  refine ⟨piece ++ piece', (List.append_assoc ..).symm, ?_⟩
  intro c hc
  rcases List.mem_append.1 hc with hc | hc
  · exact hpiece c hc
  · exact hpiece' c hc

theorem Consumes.exhausts (h : Consumes p text rest) (h' : Exhausts p rest) : Exhausts p text := by
  obtain ⟨last, hlast, hend⟩ := h'
  exact ⟨last, h.trans hlast, hend⟩

theorem Consumes.cons (hc : p c = true) (more : List Char) : Consumes p (c :: more) more :=
  ⟨[c], rfl, List.forall_mem_singleton.2 hc⟩

theorem consumes_of_exactly? (h : exactly? q n text = some (piece, rest))
    (hq : ∀ c, q c = true → p c = true) : Consumes p text rest := by
  induction n generalizing text piece with
  | zero =>
    cases h
    exact .refl p _
  | succ n ih =>
    cases text with
    | nil => cases h
    | cons c text =>
      unfold exactly? at h
      split at h
      · next hc =>
        obtain ⟨⟨left, found⟩, hfound, heq⟩ := Option.map_eq_some_iff.1 h
        cases heq
        exact (Consumes.cons (hq c hc) text).trans (ih hfound)
      · cases h

theorem consumes_of_char? (h : char? c text = some rest) (hc : p c = true) :
    Consumes p text rest := by
  cases text with
  | nil => cases h
  | cons d text =>
    by_cases hd : d = c
    · rw [char?, if_pos hd] at h
      cases h
      exact .cons (hd ▸ hc) _
    · rw [char?, if_neg hd] at h
      cases h

theorem consumes_skipChar (hc : p c = true) (text : List Char) :
    Consumes p text (skipChar c text) := by
  unfold skipChar
  cases h : char? c text with
  | none => exact .refl p text
  | some rest => exact consumes_of_char? h hc

theorem consumes_dropWhile (hq : ∀ c, q c = true → p c = true) (text : List Char) :
    Consumes p text (text.dropWhile q) := by
  refine ⟨text.takeWhile q, List.takeWhile_append_dropWhile.symm, ?_⟩
  intro c hc
  exact hq c (List.mem_takeWhile_imp hc)

theorem consumes_of_run? (h : run? q text = some (piece, rest))
    (hq : ∀ c, q c = true → p c = true) : Consumes p text rest := by
  unfold run? at h
  split at h
  · cases h
  · cases h
    exact consumes_dropWhile hq text

theorem eq_cons_of_char? (h : char? c text = some rest) : text = c :: rest := by
  cases text with
  | nil => cases h
  | cons d text =>
    by_cases hd : d = c
    · rw [char?, if_pos hd] at h
      cases h
      rw [hd]
    · rw [char?, if_neg hd] at h
      cases h

/-- A piece that is cut off by its length stands in front of what is left. -/
theorem eq_append_of_exactly? (h : exactly? q n text = some (piece, rest)) :
    text = piece ++ rest ∧ piece.length = n := by
  induction n generalizing text piece with
  | zero =>
    cases h
    exact ⟨rfl, rfl⟩
  | succ n ih =>
    cases text with
    | nil => cases h
    | cons c text =>
      unfold exactly? at h
      split at h
      · obtain ⟨⟨more, left⟩, hmore, heq⟩ := Option.map_eq_some_iff.1 h
        cases heq
        obtain ⟨rfl, hlength⟩ := ih hmore
        exact ⟨rfl, congrArg (· + 1) hlength⟩
      · cases h

/-- A piece that is cut off is of the class. -/
theorem forall_mem_of_exactly? (h : exactly? q n text = some (piece, rest)) :
    ∀ c ∈ piece, q c = true := by
  induction n generalizing text piece with
  | zero =>
    cases h
    exact List.forall_mem_nil _
  | succ n ih =>
    cases text with
    | nil => cases h
    | cons c text =>
      unfold exactly? at h
      split at h
      · next hc =>
        obtain ⟨⟨more, left⟩, hmore, heq⟩ := Option.map_eq_some_iff.1 h
        cases heq
        exact List.forall_mem_cons.2 ⟨hc, ih hmore⟩
      · cases h

/-- Where no piece of a length is cut off, fewer characters of the class stand in front. -/
theorem length_takeWhile_lt (h : exactly? q n text = none) : (text.takeWhile q).length < n := by
  induction n generalizing text with
  | zero => cases h
  | succ n ih =>
    cases text with
    | nil => exact Nat.succ_pos n
    | cons c text =>
      unfold exactly? at h
      split at h
      · next hc =>
        rw [List.takeWhile_cons_of_pos hc]
        exact Nat.succ_lt_succ (ih (Option.map_eq_none_iff.1 h))
      · next hc =>
        rw [List.takeWhile_cons_of_neg hc]
        exact Nat.succ_pos n

/-- A run that is cut off stands in front of what is left. -/
theorem eq_append_of_run? (h : run? q text = some (piece, rest)) :
    text = piece ++ rest ∧ piece ≠ [] ∧ ∀ c ∈ piece, q c = true := by
  unfold run? at h
  split at h
  · cases h
  · next hne =>
    cases h
    refine ⟨List.takeWhile_append_dropWhile.symm, hne, ?_⟩
    intro c hc
    exact List.mem_takeWhile_imp hc

theorem Consumes.subset (h : Consumes p text rest) : rest ⊆ text := by
  obtain ⟨piece, rfl, -⟩ := h
  exact List.subset_append_right piece rest

theorem subset_of_char? (h : char? c text = some rest) : rest ⊆ text :=
  (consumes_of_char? (p := fun _ => true) h rfl).subset

theorem mem_of_char? (h : char? c text = some rest) : c ∈ text := by
  rw [eq_cons_of_char? h]
  exact List.mem_cons_self

theorem subset_of_exactly? (h : exactly? q n text = some (piece, rest)) : rest ⊆ text :=
  (consumes_of_exactly? (p := fun _ => true) h fun _ _ => rfl).subset

theorem subset_of_run? (h : run? q text = some (piece, rest)) : rest ⊆ text :=
  (consumes_of_run? (p := fun _ => true) h fun _ _ => rfl).subset

/-- What is cut begins with a character of the class. -/
theorem head?_of_exactly? (h : exactly? q (n + 1) text = some (piece, rest)) :
    ∃ c more, text = c :: more ∧ q c = true := by
  cases text with
  | nil => cases h
  | cons c text =>
    unfold exactly? at h
    split at h
    · next hc => exact ⟨c, text, rfl, hc⟩
    · cases h

theorem head?_of_run? (h : run? q text = some (piece, rest)) :
    ∃ c more, text = c :: more ∧ q c = true := by
  cases text with
  | nil => cases h
  | cons c text =>
    by_cases hc : q c = true
    · exact ⟨c, text, rfl, hc⟩
    · simp [run?, hc] at h

/-- A text ends where nothing is left, or one line feed. -/
theorem eq_of_atEnd (h : atEnd rest = true) : rest = [] ∨ rest = [('\n' : Char)] := by
  unfold atEnd at h
  split at h
  · exact .inl rfl
  · exact .inr rfl
  · cases h

/-- Of a text that is exhausted each character is of the class or a line feed. -/
theorem Exhausts.mem (h : Exhausts p text) : ∀ c ∈ text, p c = true ∨ c = '\n' := by
  obtain ⟨rest, ⟨piece, rfl, hpiece⟩, hend⟩ := h
  intro c hc
  rcases List.mem_append.1 hc with hc | hc
  · exact .inl (hpiece c hc)
  · rcases eq_of_atEnd hend with rfl | rfl
    · cases hc
    · exact .inr (List.mem_singleton.1 hc)

/-- Without line feeds a text that is exhausted is all of the class. -/
theorem Exhausts.all (h : Exhausts p text) (hline : ('\n' : Char) ∉ text) :
    ∀ c ∈ text, p c = true := by
  obtain ⟨rest, ⟨piece, rfl, hpiece⟩, hend⟩ := h
  have hrest : rest = [] := by
    refine (eq_of_atEnd hend).resolve_right ?_
    rintro rfl
    exact hline (List.mem_append_right piece (List.mem_singleton_self _))
  rw [hrest, List.append_nil]
  exact hpiece

/-! ## Cutting a piece that stands in front -/

@[simp]
theorem char?_cons_self (c : Char) (rest : List Char) : char? c (c :: rest) = some rest :=
  if_pos rfl

theorem char?_cons_of_ne {d : Char} (h : d ≠ c) (rest : List Char) : char? c (d :: rest) = none :=
  if_neg h

@[simp]
theorem skipChar_cons_self (c : Char) (rest : List Char) : skipChar c (c :: rest) = rest := by
  rw [skipChar, char?_cons_self, Option.getD_some]

/-- A character that is skipped stands in front, or nothing is skipped. -/
theorem exists_skipped (c : Char) (text : List Char) :
    ∃ skipped : Bool, text = if skipped then c :: skipChar c text else skipChar c text := by
  cases hfound : char? c text with
  | none => exact ⟨false, by rw [skipChar, hfound]; rfl⟩
  | some rest =>
    obtain rfl := eq_cons_of_char? hfound
    exact ⟨true, by rw [skipChar_cons_self]; rfl⟩

/-- A text does not end before a character other than a line feed. -/
theorem atEnd_cons_of_ne (h : c ≠ '\n') (rest : List Char) : atEnd (c :: rest) = false := by
  unfold atEnd
  split
  · next heq => cases heq
  · next heq => exact absurd (List.head_eq_of_cons_eq heq) h
  · rfl

theorem atEnd_of_isDigit (h : Character.isDigit c = true) (rest : List Char) :
    atEnd (c :: rest) = false := by
  apply atEnd_cons_of_ne
  rintro rfl
  exact absurd h (by decide)

/-- A text that does not end in a line feed is left nowhere but at its end. -/
theorem eq_nil_of_atEnd (h : atEnd rest = true)
    (hline : (text ++ rest).getLast? ≠ some ('\n' : Char)) : rest = [] := by
  refine (eq_of_atEnd h).resolve_right ?_
  rintro rfl
  exact hline List.getLast?_concat

/-- A piece of the class is cut off by its length. -/
theorem exactly?_append (hpiece : ∀ c ∈ piece, p c = true) (rest : List Char) :
    exactly? p piece.length (piece ++ rest) = some (piece, rest) := by
  induction piece with
  | nil => rfl
  | cons c piece ih =>
    obtain ⟨hc, hpiece⟩ := List.forall_mem_cons.1 hpiece
    rw [List.length_cons, List.cons_append, exactly?, if_pos hc, ih hpiece, Option.map_some]

/-- A piece that something else follows too soon is not cut off. -/
theorem exactly?_of_short {d : Char} (hlength : piece.length < n) (hd : p d = false)
    (hpiece : ∀ c ∈ piece, p c = true) (rest : List Char) :
    exactly? p n (piece ++ d :: rest) = none := by
  induction piece generalizing n with
  | nil =>
    obtain ⟨n, rfl⟩ := Nat.exists_eq_add_of_lt hlength
    simp [exactly?, hd]
  | cons c piece ih =>
    obtain ⟨hc, hpiece⟩ := List.forall_mem_cons.1 hpiece
    cases n with
    | zero => cases hlength
    | succ n =>
      rw [List.cons_append, exactly?, if_pos hc, ih (Nat.lt_of_succ_lt_succ hlength) hpiece,
        Option.map_none]

/-! ## Splitting -/

theorem split_ne_nil (separator : Char) (text : List Char) : split separator text ≠ [] := by
  cases text with
  | nil => exact List.cons_ne_nil _ _
  | cons c text =>
    unfold split
    split
    · exact List.cons_ne_nil _ _
    · split
      · exact List.cons_ne_nil _ _
      · exact List.cons_ne_nil _ _

/-- A text is split at each separator that stands in it. -/
theorem split_append (separator : Char) (front back : List Char) :
    split separator (front ++ separator :: back) =
      split separator front ++ split separator back := by
  induction front with
  | nil => simp [split]
  | cons c front ih =>
    by_cases hc : c = separator
    · simp only [List.cons_append, split, if_pos hc, ih]
    · simp only [List.cons_append, split, if_neg hc, ih]
      cases hfront : split separator front with
      | nil => exact absurd hfront (split_ne_nil separator front)
      | cons piece more => rfl

/-- A text without separators is one piece. -/
theorem split_of_notMem {separator : Char} {text : List Char} (h : separator ∉ text) :
    split separator text = [text] := by
  induction text with
  | nil => rfl
  | cons c text ih =>
    obtain ⟨hc, hrest⟩ := not_or.1 (List.mem_cons.not.1 h)
    simp only [split, if_neg (Ne.symm hc), ih hrest]

/-- A piece that stands between two separators, or between one and the end, is split off. -/
theorem mem_split {separator : Char} {piece back : List Char} (front : List Char)
    (hpiece : separator ∉ piece) (hback : back = [] ∨ ∃ more, back = separator :: more) :
    piece ∈ split separator (front ++ separator :: (piece ++ back)) := by
  rw [split_append]
  apply List.mem_append_right
  rcases hback with rfl | ⟨more, rfl⟩
  · rw [List.append_nil, split_of_notMem hpiece]
    exact List.mem_singleton_self piece
  · rw [split_append, split_of_notMem hpiece]
    exact List.mem_cons_self

end CommandSequence.Cut
