import CommandSequence.Proofs.Source.Respaced
import CommandSequence.Proofs.Source.Unplaced

/-!
# Reading respaced texts

A cursor tracks another (`Cursor.Tracks`) if they stand before respaced texts. Every reader that
gives a result at the first cursor gives the same at the second, apart from the places of tokens,
and leaves cursors of which the second tracks the first: so it is for tokens (`Tracks.take`),
values, arguments and directives, and for whole lines (`Tracks.readLine`). The second cursor also
moves on, so its own fuel is enough.
-/

namespace CommandSequence.Source

variable {tail : List Char} {levels : List Level} {kinds : List Terminal}

/-! ## Tokens -/

/-- The tokens are of one kind and, unless they are line ends, of one text. -/
structure Token.Echoes (token token' : Token) : Prop where
  kind : token.kind = token'.kind
  text : token.kind ≠ .newline → token.text = token'.text

theorem Token.Echoes.unplaced {token token' : Token} (h : token.Echoes token')
    (hkind : token.kind ≠ .newline) : token.unplaced = token'.unplaced := by
  unfold Token.unplaced
  rw [h.kind, h.text hkind]

namespace Cursor

/-- The cursors stand before respaced texts, or the first at the end of its text and the second
before the tail. -/
structure Tracks (tail : List Char) (c c' : Cursor) : Prop where
  rest : Continues tail c.rest c'.rest
  bound : c'.rest.length ≤ c'.bound

/-- What was read at two cursors is related, the second cursor still tracks the first, and has less
than `n` characters before it. -/
structure Onward {α β : Type} (tail : List Char) (n : Nat) (R : α → β → Prop) (found : α × Cursor)
    (found' : β × Cursor) : Prop where
  result : R found.1 found'.1
  tracks : Tracks tail found.2 found'.2
  shorter : found'.2.rest.length < n

theorem Onward.mono {α β : Type} {n m : Nat} {R S : α → β → Prop} {found : α × Cursor}
    {found' : β × Cursor} (h : Onward tail n R found found') (hn : n ≤ m)
    (hR : R found.1 found'.1 → S found.1 found'.1) : Onward tail m S found found' :=
  ⟨hR h.result, h.tracks, Nat.lt_of_lt_of_le h.shorter hn⟩

/-- Reading goes on from what was read, at the cursors after it. -/
theorem Onward.bind {α β γ δ : Type} {n : Nat} {R : α → β → Prop} {S : γ → δ → Prop}
    {r : Except SyntaxError (α × Cursor)} {r' : Except SyntaxError (β × Cursor)}
    {f : α × Cursor → Except SyntaxError γ} {f' : β × Cursor → Except SyntaxError δ}
    (h : Follows (Onward tail n R) r r') (hf : ∀ x x' c c', R x x' → Tracks tail c c' →
      c'.rest.length < n → Follows S (f (x, c)) (f' (x', c'))) :
    Follows S (r >>= f) (r' >>= f') :=
  h.bind fun found found' hfound =>
    hf found.1 found'.1 found.2 found'.2 hfound.result hfound.tracks hfound.shorter

variable {c c' : Cursor}

namespace Tracks

/-- Where the first text ends the second goes on with the tail; elsewhere the next tokens agree. -/
theorem next (h : Tracks tail c c') (kinds : List Terminal) : Yields (c.next kinds) fun found =>
    (found = none ∧ c'.rest = nextLine tail) ∨
      ∃ t t', found = some t ∧ c'.next kinds = .ok (some t') ∧
        Onward tail c'.rest.length Token.Echoes t t' := by
  rcases h.rest with hrest | ⟨hend, htail⟩
  · have hblanks := hrest.run (p := Terminal.isBlank) rfl rfl
    obtain ⟨hfilled, hfilled'⟩ := hblanks.2.ne_nil
    simp only [Cursor.next, skipBlanks, List.isEmpty_iff, hfilled, hfilled', if_false]
    cases hfound : firstCut? kinds (c.rest.dropWhile Terminal.isBlank) with
    | none => exact .error
    | some found =>
      obtain ⟨kind, lexeme, left⟩ := found
      obtain ⟨lexeme', left', hfound', hlexeme, hleft⟩ := hblanks.2.firstCut? hfound
      have hless := Terminal.length_lt_of_cut? (of_firstCut? hfound').2.1
      have hskip := (List.dropWhile_sublist Terminal.isBlank (l := c'.rest)).length_le
      rw [hfound']
      refine .ok (.inr ⟨_, _, rfl, rfl, ⟨rfl, hlexeme⟩, ⟨hleft, ?_⟩, ?_⟩)
      · have := h.bound
        dsimp only
        omega
      · dsimp only
        omega
  · simp only [Cursor.next, skipBlanks, hend]
    exact .ok (.inl ⟨rfl, htail⟩)

/-- The first token of a line, or the end of the first text. -/
theorem read (h : Tracks tail c c') (levels : List Level) : Yields (c.read levels) fun found =>
    (found = none ∧ Level.refusing? levels .endOfInput = none ∧ c'.rest = nextLine tail) ∨
      ∃ t t', found = some t ∧ c'.read levels = .ok (some t') ∧
        Onward tail c'.rest.length
          (fun t t' => t.Echoes t' ∧ Level.refusing? levels t.kind = none) t t' := by
  refine (h.next _).bind fun found hfound => ?_
  rcases hfound with ⟨rfl, hend⟩ | ⟨t, t', rfl, hnext, ht⟩
  · dsimp only
    split
    · next hlevels => exact .ok (.inl ⟨rfl, hlevels, hend⟩)
    · exact .error
  · obtain ⟨token, after⟩ := t
    obtain ⟨token', after'⟩ := t'
    dsimp only
    cases hlevels : Level.refusing? levels token.kind with
    | some expected => exact .error
    | none =>
      refine .ok (.inr
        ⟨_, (token', after'), rfl, ?_, ht.mono (Nat.le_refl _) fun h => ⟨h, hlevels⟩⟩)
      have hlevels' : Level.refusing? levels token'.kind = none := ht.result.kind ▸ hlevels
      rw [Cursor.read, hnext]
      simp only [Bind.bind, Except.bind, hlevels']
      rfl

theorem take (h : Tracks tail c c') (levels : List Level) :
    Follows (Onward tail c'.rest.length
      fun t t' => t.Echoes t' ∧ Level.refusing? levels t.kind = none)
      (c.take levels) (c'.take levels) := by
  refine (h.read levels).bind fun found hfound => ?_
  rcases hfound with ⟨rfl, -⟩ | ⟨t, t', rfl, hread, ht⟩
  · exact .error
  · refine .ok ⟨t', ?_, ht⟩
    rw [Cursor.take, hread]
    rfl

/-- Where no line end may stand, the tokens agree apart from their places. -/
theorem takeInline (h : Tracks tail c c') (hlevels : Level.refusing? levels .newline ≠ none) :
    Follows (Onward tail c'.rest.length (InvImage Eq Token.unplaced))
      (c.take levels) (c'.take levels) :=
  (h.take levels).mono fun _ _ ht => ht.mono (Nat.le_refl _) fun ⟨hechoes, hadmits⟩ =>
    hechoes.unplaced fun hkind => hlevels (hkind ▸ hadmits)

theorem expect (h : Tracks tail c c') (kinds : List Terminal) :
    Follows (Onward tail c'.rest.length Token.Echoes) (c.expect kinds) (c'.expect kinds) :=
  (h.take _).mono fun _ _ ht => ht.mono (Nat.le_refl _) And.left

theorem expectInline (h : Tracks tail c c') (hkinds : .newline ∉ kinds) :
    Follows (Onward tail c'.rest.length (InvImage Eq Token.unplaced))
      (c.expect kinds) (c'.expect kinds) :=
  h.takeInline (by simp [Level.refusing?, hkinds])

theorem kind_eq {token token' : Token} (h : token.unplaced = token'.unplaced) :
    token.kind = token'.kind :=
  show token.unplaced.kind = token'.unplaced.kind from congrArg Token.kind h

/-! ## Values -/

theorem expectPastNewline (h : Tracks tail c c') (levels : List Level) (hkinds : .newline ∉ kinds) :
    Follows (Onward tail c'.rest.length (InvImage Eq Token.unplaced))
      (Value.expectPastNewline c levels kinds) (Value.expectPastNewline c' levels kinds) := by
  refine Onward.bind (h.take levels) fun token token' c₁ c₁' ⟨hechoes, _⟩ h₁ hless => ?_
  dsimp only
  rw [← hechoes.kind]
  split
  · exact (h₁.expectInline hkinds).mono fun _ _ h => h.mono hless.le id
  · next hkind => exact .ok ⟨hechoes.unplaced (by simpa using hkind), h₁, hless⟩

/-- With the fuel, a value read from its first token at one cursor is read at one that tracks it. -/
def ReadsFrom (tail : List Char) (fuel : Nat) : Prop :=
  ∀ (token token' : Token) (fuel' : Nat) (c c' : Cursor), token.unplaced = token'.unplaced →
    Tracks tail c c' → 2 * c'.rest.length < fuel' →
    Follows (Onward tail (c'.rest.length + 1) (InvImage Eq Value.unplaced))
      (Value.readFrom token fuel c) (Value.readFrom token' fuel' c')

/-- With the fuel, the members read after a key at one cursor are read at one that tracks it. -/
def ReadsMembers (tail : List Char) (fuel : Nat) : Prop :=
  ∀ (key key' : Token) (fuel' : Nat) (c c' : Cursor), key.unplaced = key'.unplaced →
    Tracks tail c c' → 2 * c'.rest.length + 1 < fuel' →
    Follows (Onward tail c'.rest.length (InvImage Eq Value.unplacedMembers))
      (Value.readMembers key fuel c) (Value.readMembers key' fuel' c')

/-- With the fuel, the items read from a token at one cursor are read at one that tracks it. -/
def ReadsItems (tail : List Char) (fuel : Nat) : Prop :=
  ∀ (token token' : Token) (fuel' : Nat) (c c' : Cursor), token.unplaced = token'.unplaced →
    Tracks tail c c' → 2 * c'.rest.length + 1 < fuel' →
    Follows (Onward tail c'.rest.length (InvImage Eq Value.unplacedItems))
      (Value.readItems token fuel c) (Value.readItems token' fuel' c')

variable {fuel : Nat}

theorem readsFrom_succ (hmembers : ReadsMembers tail fuel) (hitems : ReadsItems tail fuel) :
    ReadsFrom tail (fuel + 1) := by
  intro token token' fuel' c c' htoken h hfuel
  obtain ⟨fuel', rfl⟩ : ∃ k, fuel' = k + 1 := ⟨fuel' - 1, by omega⟩
  have hkind := kind_eq htoken
  by_cases hbrace : token.kind = .leftBrace
  · simp only [Value.readFrom, hbrace, ← hkind]
    refine Onward.bind (h.expectPastNewline _ (by decide))
      fun first first' c₁ c₁' hfirst h₁ hless => ?_
    dsimp only
    rw [← kind_eq hfirst]
    split
    · exact .ok ⟨rfl, h₁, Nat.lt_succ_of_lt hless⟩
    · refine Onward.bind (hmembers _ _ _ _ _ hfirst h₁ (by omega))
        fun members members' c₂ c₂' hmembers h₂ hless₂ => ?_
      exact .ok ⟨congrArg (Value.object .origin) hmembers, h₂, by dsimp only; omega⟩
  · by_cases hbracket : token.kind = .leftBracket
    · simp only [Value.readFrom, hbracket, ← hkind]
      refine Onward.bind (h.expectPastNewline _ (by decide))
        fun first first' c₁ c₁' hfirst h₁ hless => ?_
      dsimp only
      rw [← kind_eq hfirst]
      split
      · exact .ok ⟨rfl, h₁, Nat.lt_succ_of_lt hless⟩
      · refine Onward.bind (hitems _ _ _ _ _ hfirst h₁ (by omega))
          fun items items' c₂ c₂' hitems h₂ hless₂ => ?_
        exact .ok ⟨congrArg (Value.array .origin) hitems, h₂, by dsimp only; omega⟩
    · rw [Value.readFrom_scalar hbrace hbracket,
        Value.readFrom_scalar (hkind ▸ hbrace) (hkind ▸ hbracket)]
      exact .ok ⟨congrArg Value.scalar htoken, h, Nat.lt_succ_self _⟩

theorem readsMembers_succ (hfrom : ReadsFrom tail fuel) (hmembers : ReadsMembers tail fuel) :
    ReadsMembers tail (fuel + 1) := by
  intro key key' fuel' c c' hkey h hfuel
  obtain ⟨fuel', rfl⟩ : ∃ k, fuel' = k + 1 := ⟨fuel' - 1, by omega⟩
  simp only [Value.readMembers]
  refine Onward.bind (h.expectInline (by decide)) fun _ _ c₁ c₁' _ h₁ hless₁ => ?_
  refine Onward.bind (h₁.expectInline (by decide))
    fun first first' c₂ c₂' hfirst h₂ hless₂ => ?_
  dsimp only
  refine Onward.bind (hfrom _ _ _ _ _ hfirst h₂ (by omega))
    fun value value' c₃ c₃' hvalue h₃ hless₃ => ?_
  refine Onward.bind (h₃.expectPastNewline _ (by decide))
    fun next next' c₄ c₄' hnext h₄ hless₄ => ?_
  have hmember : (key.unplaced, value.unplaced) = (key'.unplaced, value'.unplaced) :=
    congrArg₂ Prod.mk hkey hvalue
  dsimp only
  rw [← kind_eq hnext]
  split
  · exact .ok ⟨congrArg (fun m => [m]) hmember, h₄, by dsimp only; omega⟩
  · refine Onward.bind (h₄.expectPastNewline _ (by decide))
      fun nextKey nextKey' c₅ c₅' hnextKey h₅ hless₅ => ?_
    dsimp only
    refine Onward.bind (hmembers _ _ _ _ _ hnextKey h₅ (by omega))
      fun members members' c₆ c₆' hmembers h₆ hless₆ => ?_
    exact .ok ⟨congrArg₂ List.cons hmember hmembers, h₆, by dsimp only; omega⟩

theorem readsItems_succ (hfrom : ReadsFrom tail fuel) (hitems : ReadsItems tail fuel) :
    ReadsItems tail (fuel + 1) := by
  intro token token' fuel' c c' htoken h hfuel
  obtain ⟨fuel', rfl⟩ : ∃ k, fuel' = k + 1 := ⟨fuel' - 1, by omega⟩
  simp only [Value.readItems]
  refine Onward.bind (hfrom _ _ _ _ _ htoken h (by omega))
    fun item item' c₁ c₁' hitem h₁ hless₁ => ?_
  refine Onward.bind (h₁.expectPastNewline _ (by decide))
    fun next next' c₂ c₂' hnext h₂ hless₂ => ?_
  have hitem : item.unplaced = item'.unplaced := hitem
  dsimp only
  rw [← kind_eq hnext]
  split
  · exact .ok ⟨congrArg (fun v => [v]) hitem, h₂, by dsimp only; omega⟩
  · refine Onward.bind (h₂.expectPastNewline _ (by decide))
      fun first first' c₃ c₃' hfirst h₃ hless₃ => ?_
    dsimp only
    refine Onward.bind (hitems _ _ _ _ _ hfirst h₃ (by omega))
      fun items items' c₄ c₄' hitems h₄ hless₄ => ?_
    exact .ok ⟨congrArg₂ List.cons hitem hitems, h₄, by dsimp only; omega⟩

/-- The three readers of values together. Each token takes a character at least, and at most two
units of fuel. -/
theorem readsValues (tail : List Char) (fuel : Nat) :
    ReadsFrom tail fuel ∧ ReadsMembers tail fuel ∧ ReadsItems tail fuel := by
  induction fuel with
  | zero => exact ⟨fun _ _ _ _ _ _ _ _ => .error, fun _ _ _ _ _ _ _ _ => .error,
      fun _ _ _ _ _ _ _ _ => .error⟩
  | succ fuel ih =>
    obtain ⟨hfrom, hmembers, hitems⟩ := ih
    exact ⟨readsFrom_succ hmembers hitems, readsMembers_succ hfrom hmembers,
      readsItems_succ hfrom hitems⟩

theorem readValue (h : Tracks tail c c') :
    Follows (Onward tail c'.rest.length (InvImage Eq Value.unplaced)) (Value.read c)
      (Value.read c') := by
  have hbound := h.bound
  refine Onward.bind (h.expectInline (by decide)) fun token token' c₁ c₁' htoken h₁ hless => ?_
  exact ((readsValues _ _).1 _ _ _ _ _ htoken h₁ (by omega)).mono fun _ _ h₂ => h₂.mono hless id

end Tracks

end Cursor

end CommandSequence.Source
