import CommandSequence.Proofs.Source.Lexed

/-!
# The tokens that readers take

Whatever is read from a cursor is read by taking tokens one after the other (`Cursor.Takes`), each
of which is a piece of what is left of the text. A reader that fails does so at a token that fits
none of the levels of its place (`Cursor.Stops`), so its error says what was expected.
`Cursor.Reads` states both of one reader: what holds of its result and of the tokens taken for it,
or that it stops. Readers compose as their runs of tokens do (`Cursor.Reads.bind`).
-/

namespace CommandSequence.Source

variable {c c' c₁ : Cursor} {taken more : List Token} {levels : List Level} {kinds : List Terminal}
variable {token : Token}

/-! ## Levels -/

/-- The level admits a kind of token. -/
def Level.isProper (level : Level) : Bool :=
  level.admits.any (· != .endOfInput)

/-- There is a level, and each of them admits a kind of token. -/
def Level.areProper (levels : List Level) : Bool :=
  !levels.isEmpty && levels.all Level.isProper

theorem Level.sought_of_areProper (h : Level.areProper levels = true) :
    (Level.sought levels).any (· != .endOfInput) = true := by
  cases levels with
  | nil => cases h
  | cons level outer =>
    simp only [areProper, List.all_cons, Bool.and_eq_true] at h
    exact h.2.1

theorem Level.ne_nil_of_refusing? {kind : Terminal} {expected : List Terminal}
    (h : Level.areProper levels = true) (hrefuses : Level.refusing? levels kind = some expected) :
    expected ≠ [] := by
  have hall : ∀ level ∈ levels, level.isProper = true := by
    simp only [areProper, Bool.and_eq_true, List.all_eq_true] at h
    exact h.2
  clear h
  induction levels with
  | nil => cases hrefuses
  | cons level outer ih =>
    obtain ⟨hlevel, houter⟩ := List.forall_mem_cons.1 hall
    rw [refusing?] at hrefuses
    split at hrefuses
    · cases hrefuses
    · split at hrefuses
      · exact ih hrefuses houter
      · cases hrefuses
        rintro hnil
        rw [isProper, hnil] at hlevel
        cases hlevel

/-! ## Runs of tokens -/

namespace Cursor

/-- The next token is the text after blanks, up to where the cursor after it stands. -/
structure Passes (c : Cursor) (token : Token) (c' : Cursor) : Prop where
  text : c.rest.dropWhile Terminal.isBlank = token.text ++ c'.rest
  filled : token.text ≠ []
  bound : c'.bound = c.bound

theorem passes_of_next (h : c.next kinds = .ok (some (token, c'))) : c.Passes token c' := by
  simp only [next] at h
  split at h
  · cases h
  · split at h
    · next hfound =>
      cases h
      have hcut := (of_firstCut? hfound).2.1
      exact ⟨Terminal.append_of_cut? hcut, Terminal.ne_nil_of_cut? hcut, rfl⟩
    · cases h

namespace Passes

theorem suffix (h : c.Passes token c') : token.text ++ c'.rest <:+ c.rest :=
  h.text ▸ List.dropWhile_suffix _

theorem length_lt (h : c.Passes token c') : c'.rest.length < c.rest.length := by
  have hlength := h.suffix.length_le
  have hfilled := List.length_pos_of_ne_nil h.filled
  rw [List.length_append] at hlength
  omega

end Passes

/-- From the first cursor the tokens are taken one after the other, up to the last cursor. -/
inductive Takes : Cursor → List Token → Cursor → Prop where
  | nil {c : Cursor} : Takes c [] c
  | cons {c c₁ c' : Cursor} {kinds : List Terminal} {token : Token} {taken : List Token}
    (hnext : c.next kinds = .ok (some (token, c₁))) (hmore : Takes c₁ taken c') :
    Takes c (token :: taken) c'

namespace Takes

theorem append (h : c.Takes taken c₁) (hmore : c₁.Takes more c') : c.Takes (taken ++ more) c' := by
  induction h with
  | nil => exact hmore
  | cons hnext _ ih => exact .cons hnext (ih hmore)

theorem bound_eq (h : c.Takes taken c') : c'.bound = c.bound := by
  induction h with
  | nil => rfl
  | cons hnext _ ih => exact ih.trans (passes_of_next hnext).bound

/-- Every token takes a character at least. -/
theorem length_le (h : c.Takes taken c') : taken.length + c'.rest.length ≤ c.rest.length := by
  induction h with
  | nil => simp
  | cons hnext _ ih =>
    have hless := (passes_of_next hnext).length_lt
    simp only [List.length_cons]
    omega

/-- What is left of the text is no longer than the bound, and so it stays. -/
theorem length_le_bound (h : c.Takes taken c') (hc : c.rest.length ≤ c.bound) :
    c'.rest.length ≤ c'.bound := by
  have hlength := h.length_le
  rw [h.bound_eq]
  omega

/-- A run that has a token leads on. -/
theorem length_lt (h : c.Takes taken c') (htaken : [token].Sublist taken) :
    c'.rest.length < c.rest.length := by
  have hlength := h.length_le
  have hone := htaken.length_le
  rw [List.length_singleton] at hone
  omega

/-- Every token taken is a piece of the text. -/
theorem isInfix (h : c.Takes taken c') : ∀ token ∈ taken, token.text <:+: c.rest := by
  induction h with
  | nil => exact List.forall_mem_nil _
  | cons hnext _ ih =>
    have hsuffix := (passes_of_next hnext).suffix
    refine List.forall_mem_cons.2 ⟨?_, fun token hmem => ?_⟩
    · exact (List.prefix_append ..).isInfix.trans hsuffix.isInfix
    · exact (ih token hmem).trans ((List.suffix_append ..).trans hsuffix).isInfix

end Takes

/-! ## Errors -/

/-- The error is that of a token, after some that were taken, which fits none of the levels of its
place. -/
def Stops (c : Cursor) (e : SyntaxError) : Prop :=
  ∃ taken c' levels, c.Takes taken c' ∧ Level.areProper levels = true ∧ c'.take levels = .error e

theorem Stops.after {e : SyntaxError} (h : c.Takes taken c') (he : c'.Stops e) : c.Stops e := by
  obtain ⟨more, c₁, levels, hmore, hlevels, htake⟩ := he
  exact ⟨taken ++ more, c₁, levels, h.append hmore, hlevels, htake⟩

theorem stops_of_read {e : SyntaxError} (hlevels : Level.areProper levels = true)
    (h : c.read levels = .error e) : c.Stops e :=
  ⟨[], c, levels, .nil, hlevels, by rw [take, h]; rfl⟩

/-- What an error is about: what stands in front of the cursor where none of the kinds looked for
begins, a token that fits none of the levels, or the end of the text. -/
inductive Misses (c : Cursor) (levels : List Level) : SyntaxError → Prop where
  | front (hrest : c.skipBlanks.rest ≠ []) :
    Misses c levels ⟨offence c.skipBlanks.rest, (Level.sought levels).filter (· != .endOfInput),
      c.skipBlanks.position⟩
  | token {token : Token} {after : Cursor} {expected : List Terminal}
    (hnext : c.next (Level.sought levels) = .ok (some (token, after)))
    (hrefuses : Level.refusing? levels token.kind = some expected) :
    Misses c levels ⟨.token token.text, expected, token.position⟩
  | ending {expected : List Terminal} (hexpected : expected = Level.sought levels ∨
      Level.refusing? levels .endOfInput = some expected) :
    Misses c levels ⟨.endOfInput, expected, c.last⟩

theorem misses_of_take {e : SyntaxError} (h : c.take levels = .error e) : c.Misses levels e := by
  simp only [take, read] at h
  cases hnext : c.next (Level.sought levels) with
  | error e' =>
    rw [hnext] at h
    cases h
    simp only [next] at hnext
    split at hnext
    · cases hnext
    · next hrest =>
      split at hnext
      · cases hnext
      · cases hnext
        exact .front fun hnil => hrest (List.isEmpty_iff.2 hnil)
  | ok found =>
    rw [hnext] at h
    simp only [Bind.bind, Except.bind] at h
    cases found with
    | none =>
      dsimp only at h
      cases hrefuses : Level.refusing? levels .endOfInput with
      | none => rw [hrefuses] at h; cases h; exact .ending (.inl rfl)
      | some expected => rw [hrefuses] at h; cases h; exact .ending (.inr hrefuses)
    | some found =>
      obtain ⟨token, after⟩ := found
      dsimp only at h
      cases hrefuses : Level.refusing? levels token.kind with
      | none => rw [hrefuses] at h; cases h
      | some expected => rw [hrefuses] at h; cases h; exact .token hnext hrefuses

/-- An error names a kind of token that could have stood there. -/
theorem Stops.expected_ne_nil {e : SyntaxError} (h : c.Stops e) : e.expected ≠ [] := by
  obtain ⟨taken, c', levels, -, hlevels, htake⟩ := h
  obtain ⟨kind, hkind, hend⟩ := List.any_eq_true.1 (Level.sought_of_areProper hlevels)
  cases misses_of_take htake with
  | front => exact List.ne_nil_of_mem (List.mem_filter.2 ⟨hkind, hend⟩)
  | token _ hrefuses => exact Level.ne_nil_of_refusing? hlevels hrefuses
  | ending hexpected =>
    rcases hexpected with rfl | hrefuses
    · exact List.ne_nil_of_mem hkind
    · exact Level.ne_nil_of_refusing? hlevels hrefuses

/-! ## Readers -/

/-- The reader gives a result by taking tokens, of which `P` holds, up to the cursor `last` of the
result, or stops. -/
def Reads {α : Type} (c : Cursor) (last : α → Cursor) (r : Except SyntaxError α)
    (P : α → List Token → Prop) : Prop :=
  Ends c.Stops r fun found => ∃ taken, c.Takes taken (last found) ∧ P found taken

namespace Reads

variable {α β : Type} {last : α → Cursor} {last' : β → Cursor} {r : Except SyntaxError α}
variable {P Q : α → List Token → Prop}

theorem ok {a : α} (hlast : last a = c) (h : P a []) : c.Reads last (.ok a) P :=
  Ends.ok ⟨[], hlast ▸ .nil, h⟩

theorem mono (h : c.Reads last r P) (hPQ : ∀ a taken, P a taken → Q a taken) : c.Reads last r Q :=
  Ends.mono h fun a ⟨taken, htaken, hP⟩ => ⟨taken, htaken, hPQ a taken hP⟩

/-- Reading goes on at the cursor that the first reader leaves. -/
theorem bind {f : α → Except SyntaxError β} {R : β → List Token → Prop} (h : c.Reads last r P)
    (hf : ∀ a taken, c.Takes taken (last a) → P a taken →
      (last a).Reads last' (f a) fun b more => R b (taken ++ more)) :
    c.Reads last' (r >>= f) R := by
  refine Ends.bind h fun a ⟨taken, htaken, hP⟩ => ?_
  obtain ⟨hresult, herror⟩ := hf a taken htaken hP
  refine ⟨fun b hb => ?_, fun e he => (herror e he).after htaken⟩
  obtain ⟨more, hmore, hR⟩ := hresult b hb
  exact ⟨taken ++ more, htaken.append hmore, hR⟩

end Reads

/-- A token is taken that was looked for and that the place admits, or the text ends. -/
theorem ends_read (hlevels : Level.areProper levels = true) :
    Ends c.Stops (c.read levels) fun found => ∀ token c', found = some (token, c') →
      c.Takes [token] c' ∧ token.Found (Level.sought levels) ∧
        Level.refusing? levels token.kind = none := by
  refine ⟨?_, fun e he => stops_of_read hlevels he⟩
  rintro found hread token c' rfl
  exact ⟨.cons (read_eq_some.1 hread).1 .nil, of_read hread⟩

/-- A token is taken that was looked for and that the place admits. -/
theorem reads_take (hlevels : Level.areProper levels = true) : c.Reads Prod.snd (c.take levels)
    fun found taken => [found.1].Sublist taken ∧ found.1.Found (Level.sought levels) ∧
      Level.refusing? levels found.1.kind = none := by
  refine ⟨fun found htake => ?_, fun e he => ⟨[], c, levels, .nil, hlevels, he⟩⟩
  obtain ⟨token, c'⟩ := found
  obtain ⟨found, hread, heq⟩ := bind_eq_ok.1 htake
  cases found with
  | none => cases heq
  | some found =>
    cases heq
    obtain ⟨htaken, hfound⟩ := (ends_read hlevels).result _ hread token c' rfl
    exact ⟨[token], htaken, .refl _, hfound⟩

/-- A token of one of the kinds looked for is taken. -/
theorem reads_expect (hkinds : kinds.any (· != .endOfInput) = true) :
    c.Reads Prod.snd (c.expect kinds) fun found taken =>
      [found.1].Sublist taken ∧ found.1.Of kinds :=
  (reads_take (by simpa [Level.areProper, Level.isProper] using hkinds)).mono
    fun _ _ ⟨htaken, hfound, _⟩ => ⟨htaken, hfound.of⟩

end Cursor

end CommandSequence.Source
