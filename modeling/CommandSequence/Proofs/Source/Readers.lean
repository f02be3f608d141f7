import CommandSequence.Proofs.Source.Shape
import CommandSequence.Proofs.Source.Tokens

/-!
# What readers give

Every reader gives a construct that is grammatical, whose tokens have the form of their kinds and
are among those that it took, in their order, or it stops at a token that does not fit; it never
runs out of fuel. There is one lemma for each reader.
-/

namespace CommandSequence.Source

variable {c : Cursor} {levels : List Level} {kinds : List Terminal} {token : Token}
variable {taken more tokens : List Token}

/-- What follows a token that was taken follows it among the tokens taken. -/
theorem sublist_after (htaken : [token].Sublist taken) (h : tokens.Sublist (token :: more)) :
    tokens.Sublist (taken ++ more) :=
  h.trans (htaken.append (.refl more))

theorem sublist_skip (taken : List Token) (h : tokens.Sublist more) :
    tokens.Sublist (taken ++ more) :=
  h.trans (List.sublist_append_right taken more)

/-! ## Values -/

namespace Value

theorem reads_expectPastNewline (hlevels : Level.areProper levels = true)
    (hkinds : kinds.any (· != .endOfInput) = true)
    (hadmits : ∀ kind, Level.refusing? levels kind = none → kind = .newline ∨ kind ∈ kinds) :
    c.Reads Prod.snd (expectPastNewline c levels kinds) fun found taken =>
      [found.1].Sublist taken ∧ found.1.Of kinds := by
  refine (Cursor.reads_take hlevels).bind ?_
  rintro ⟨token, c₁⟩ taken h₁ ⟨htaken, hfound, hadmit⟩
  dsimp only
  split
  · refine (Cursor.reads_expect hkinds).mono ?_
    rintro found more ⟨hmore, hof⟩
    exact ⟨hmore.trans (List.sublist_append_right ..), hof⟩
  · next hkind =>
    refine .ok rfl ⟨htaken.trans (List.sublist_append_left ..), hfound.of.mono ?_⟩
    exact (hadmits _ hadmit).resolve_left (by simpa using hkind)

/-- With this fuel a value is read from its first token. -/
def ReadsFrom (fuel : Nat) : Prop :=
  ∀ (token : Token) (c : Cursor), token.Of openers → 2 * c.rest.length < fuel →
    c.Reads Prod.snd (readFrom token fuel c) fun found taken =>
      found.1.tokens.Sublist (token :: taken) ∧ (Tree.ofValue found.1).Grammatical

/-- With this fuel the members of an object are read after the first key. -/
def ReadsMembers (fuel : Nat) : Prop :=
  ∀ (key : Token) (c : Cursor), key.Of [.string] → 2 * c.rest.length + 1 < fuel →
    c.Reads Prod.snd (readMembers key fuel c) fun found taken =>
      (tokensOfMembers found.1).Sublist (key :: taken) ∧ Tree.AreMembers found.1

/-- With this fuel the items of an array are read after the first token. -/
def ReadsItems (fuel : Nat) : Prop :=
  ∀ (token : Token) (c : Cursor), token.Of openers → 2 * c.rest.length + 1 < fuel →
    c.Reads Prod.snd (readItems token fuel c) fun found taken =>
      (tokensOfItems found.1).Sublist (token :: taken) ∧ Tree.AreItems found.1

variable {fuel : Nat}

theorem readsFrom_succ (hmembers : ReadsMembers fuel) (hitems : ReadsItems fuel) :
    ReadsFrom (fuel + 1) := by
  intro token c htoken hfuel
  unfold readFrom
  split
  · refine (reads_expectPastNewline (by decide) (by decide)
      fun kind => by cases kind <;> decide).bind ?_
    rintro ⟨first, c₁⟩ taken₁ h₁ ⟨htaken₁, hfirst⟩
    have hless₁ := h₁.length_lt htaken₁
    dsimp only at hless₁ ⊢
    split
    · exact .ok rfl ⟨List.nil_sublist _, Tree.grammatical_object (List.forall_mem_nil _)⟩
    · next hclose =>
      refine (hmembers first c₁ (hfirst.tail hclose) (by omega)).bind ?_
      rintro ⟨members, c₂⟩ taken₂ h₂ ⟨htaken₂, hmembers⟩
      refine .ok rfl ⟨?_, Tree.grammatical_object hmembers⟩
      rw [List.append_nil]
      exact (sublist_after htaken₁ htaken₂).cons token
  · refine (reads_expectPastNewline (by decide) (by decide)
      fun kind => by cases kind <;> decide).bind ?_
    rintro ⟨first, c₁⟩ taken₁ h₁ ⟨htaken₁, hfirst⟩
    have hless₁ := h₁.length_lt htaken₁
    dsimp only at hless₁ ⊢
    split
    · exact .ok rfl ⟨List.nil_sublist _, Tree.grammatical_array (List.forall_mem_nil _)⟩
    · next hclose =>
      refine (hitems first c₁ (hfirst.tail hclose) (by omega)).bind ?_
      rintro ⟨items, c₂⟩ taken₂ h₂ ⟨htaken₂, hitems⟩
      refine .ok rfl ⟨?_, Tree.grammatical_array hitems⟩
      rw [List.append_nil]
      exact (sublist_after htaken₁ htaken₂).cons token
  · next hbrace hbracket =>
    have hkinds : ∀ kind ∈ openers, kind ≠ .leftBrace → kind ≠ .leftBracket →
        kind ∈ [Terminal.string, .number, .boolean, .null] := by decide
    have hscalar := htoken.mono (hkinds _ htoken.kind hbrace hbracket)
    exact .ok rfl ⟨.refl _, Tree.grammatical_scalar hscalar⟩

theorem readsMembers_succ (hfrom : ReadsFrom fuel) (hmembers : ReadsMembers fuel) :
    ReadsMembers (fuel + 1) := by
  intro key c hkey hfuel
  unfold readMembers
  refine (Cursor.reads_expect (by decide)).bind ?_
  rintro ⟨colon, c₁⟩ taken₁ h₁ ⟨htaken₁, _⟩
  refine (Cursor.reads_expect (by decide)).bind ?_
  rintro ⟨first, c₂⟩ taken₂ h₂ ⟨htaken₂, hfirst⟩
  have hless₁ := h₁.length_lt htaken₁
  have hless₂ := h₂.length_lt htaken₂
  dsimp only at hless₁ hless₂ ⊢
  refine (hfrom first c₂ hfirst (by omega)).bind ?_
  rintro ⟨value, c₃⟩ taken₃ h₃ ⟨htaken₃, hvalue⟩
  refine (reads_expectPastNewline (by decide) (by decide)
    fun kind => by cases kind <;> decide).bind ?_
  rintro ⟨next, c₄⟩ taken₄ h₄ ⟨htaken₄, hnext⟩
  have hless₃ := h₃.length_le
  have hless₄ := h₄.length_lt htaken₄
  dsimp only at hless₃ hless₄ ⊢
  -- The key and its value stand before whatever is read after the token that follows them.
  have htokens {rest last : List Token} (h : rest.Sublist last) : List.Sublist
      (key :: (value.tokens ++ rest))
        (key :: (taken₁ ++ (taken₂ ++ (taken₃ ++ (taken₄ ++ last))))) := by
    have hafter := (sublist_after htaken₂ htaken₃).append (sublist_skip taken₄ h)
    rw [List.append_assoc] at hafter
    exact (sublist_skip taken₁ hafter).cons_cons key
  split
  · exact .ok rfl ⟨htokens (.refl []), .cons hkey hvalue (List.forall_mem_nil _)⟩
  · refine (reads_expectPastNewline (by decide) (by decide)
      fun kind => by cases kind <;> decide).bind ?_
    rintro ⟨nextKey, c₅⟩ taken₅ h₅ ⟨htaken₅, hnextKey⟩
    have hless₅ := h₅.length_lt htaken₅
    dsimp only at hless₅ ⊢
    refine (hmembers nextKey c₅ hnextKey (by omega)).bind ?_
    rintro ⟨members, c₆⟩ taken₆ h₆ ⟨htaken₆, hmembers⟩
    refine .ok rfl ⟨?_, .cons hkey hvalue hmembers⟩
    rw [List.append_nil]
    exact htokens (sublist_after htaken₅ htaken₆)

theorem readsItems_succ (hfrom : ReadsFrom fuel) (hitems : ReadsItems fuel) :
    ReadsItems (fuel + 1) := by
  intro token c htoken hfuel
  unfold readItems
  refine (hfrom token c htoken (by omega)).bind ?_
  rintro ⟨item, c₁⟩ taken₁ h₁ ⟨htaken₁, hitem⟩
  refine (reads_expectPastNewline (by decide) (by decide)
    fun kind => by cases kind <;> decide).bind ?_
  rintro ⟨next, c₂⟩ taken₂ h₂ ⟨htaken₂, hnext⟩
  have hless₁ := h₁.length_le
  have hless₂ := h₂.length_lt htaken₂
  dsimp only at hless₁ hless₂ ⊢
  have htokens {rest last : List Token} (h : rest.Sublist last) :
      List.Sublist (item.tokens ++ rest) (token :: (taken₁ ++ (taken₂ ++ last))) :=
    htaken₁.append (sublist_skip taken₂ h)
  split
  · exact .ok rfl ⟨htokens (.refl []), .cons hitem (List.forall_mem_nil _)⟩
  · refine (reads_expectPastNewline (by decide) (by decide)
      fun kind => by cases kind <;> decide).bind ?_
    rintro ⟨first, c₃⟩ taken₃ h₃ ⟨htaken₃, hfirst⟩
    have hless₃ := h₃.length_lt htaken₃
    dsimp only at hless₃ ⊢
    refine (hitems first c₃ hfirst (by omega)).bind ?_
    rintro ⟨items, c₄⟩ taken₄ h₄ ⟨htaken₄, hitems⟩
    refine .ok rfl ⟨?_, .cons hitem hitems⟩
    rw [List.append_nil]
    exact htokens (sublist_after htaken₃ htaken₄)

/-- The three readers of values together. Each token takes a character at least, and at most two
units of fuel. -/
theorem reads_values (fuel : Nat) : ReadsFrom fuel ∧ ReadsMembers fuel ∧ ReadsItems fuel := by
  induction fuel with
  | zero => exact ⟨fun _ _ _ h => by omega, fun _ _ _ h => by omega, fun _ _ _ h => by omega⟩
  | succ fuel ih =>
    obtain ⟨hfrom, hmembers, hitems⟩ := ih
    exact ⟨readsFrom_succ hmembers hitems, readsMembers_succ hfrom hmembers,
      readsItems_succ hfrom hitems⟩

theorem reads_read (hc : c.rest.length ≤ c.bound) : c.Reads Prod.snd (read c) fun found taken =>
    found.1.tokens.Sublist taken ∧ (Tree.ofValue found.1).Grammatical := by
  refine (Cursor.reads_expect (by decide)).bind ?_
  rintro ⟨token, c₁⟩ taken₁ h₁ ⟨htaken₁, hopener⟩
  have hless := h₁.length_lt htaken₁
  refine ((reads_values _).1 token c₁ hopener (by dsimp only at hless; omega)).mono ?_
  rintro found taken₂ ⟨htaken₂, hvalue⟩
  exact ⟨sublist_after htaken₁ htaken₂, hvalue⟩

end Value

namespace Line

open CommandSequence.Source.Tree (AreArguments IsDescription IsStepLine IsRequestLine IsCommandLine)

/-! ## Arguments and descriptions -/

theorem reads_readGroup {fuel : Nat} (h : Argues [.rightBracket] levels)
    (hlevels : Level.areProper levels = true) (hfuel : c.rest.length < fuel) :
    c.Reads Prod.snd (readGroup levels fuel c) fun found taken =>
      found.1.Sublist taken ∧ (∀ token ∈ found.1, token.Of argumentKinds) ∧
        ∀ token ∈ found.1, token.IsArgument := by
  induction fuel generalizing levels c with
  | zero => omega
  | succ fuel ih =>
    refine (Cursor.reads_take hlevels).bind ?_
    rintro ⟨token, c₁⟩ taken₁ h₁ ⟨htaken₁, hfound, hadmits⟩
    have hless := h₁.length_lt htaken₁
    dsimp only at hless ⊢
    split
    · exact .ok rfl ⟨List.nil_sublist _, List.forall_mem_nil _, List.forall_mem_nil _⟩
    · next hclose =>
      have htoken := h.isArgument hfound hadmits fun hmem => hclose (by simpa using hmem)
      refine (ih argues_afterItem (by decide) (by omega)).bind ?_
      rintro ⟨items, c₂⟩ taken₂ h₂ ⟨htaken₂, hof, hitems⟩
      refine .ok rfl ⟨?_, ?_, ?_⟩
      · rw [List.append_nil]
        exact htaken₁.append htaken₂
      · exact List.forall_mem_cons.2 ⟨hfound.of.mono htoken.kind, hof⟩
      · exact List.forall_mem_cons.2 ⟨htoken, hitems⟩

/-- The arguments, and the token that ends them. -/
theorem reads_readArguments {fuel : Nat} (h : Argues (.leftBracket :: endings) levels)
    (hlevels : Level.areProper levels = true) (hfuel : c.rest.length < fuel) :
    c.Reads (fun found => found.2.2) (readArguments levels fuel c) fun found taken =>
      (found.1.flatMap Argument.tokens ++ [found.2.1]).Sublist taken ∧ AreArguments found.1 ∧
        (∀ a ∈ found.1, a.Lexed) ∧ found.2.1.Of endings := by
  induction fuel generalizing levels c with
  | zero => omega
  | succ fuel ih =>
    refine (Cursor.reads_take hlevels).bind ?_
    rintro ⟨token, c₁⟩ taken₁ h₁ ⟨htaken₁, hfound, hadmits⟩
    have hless := h₁.length_lt htaken₁
    dsimp only at hless ⊢
    split
    · next hend =>
      have hending : token.Of endings := hfound.of.mono (List.contains_iff_mem.1 hend)
      refine .ok rfl ⟨?_, List.forall_mem_nil _, List.forall_mem_nil _, hending⟩
      rw [List.append_nil]
      exact htaken₁
    · next hend =>
      split
      · refine (reads_readGroup argues_item (by decide) (by omega)).bind ?_
        rintro ⟨items, c₂⟩ taken₂ h₂ ⟨htaken₂, hof, hitems⟩
        have hless₂ := h₂.length_le
        dsimp only at hless₂ ⊢
        refine (ih argues_argument (by decide) (by omega)).bind ?_
        rintro ⟨arguments, ending, c₃⟩ taken₃ h₃ ⟨htaken₃, harguments, hlexed, hending⟩
        refine .ok rfl ⟨?_, List.forall_mem_cons.2 ⟨Tree.grammatical_group hof, harguments⟩,
          List.forall_mem_cons.2 ⟨hitems, hlexed⟩, hending⟩
        rw [List.append_nil, List.flatMap_cons, List.append_assoc]
        exact sublist_skip taken₁ (htaken₂.append htaken₃)
      · next hopen =>
        have htoken : token.IsArgument := h.isArgument hfound hadmits fun hmem => by
          rcases List.mem_cons.1 hmem with hmem | hmem
          · exact hopen (beq_iff_eq.2 hmem)
          · exact hend (List.contains_iff_mem.2 hmem)
        have hsingle : (Tree.ofArgument (.single token)).Grammatical :=
          Tree.grammatical_ofSingle (hfound.of.mono htoken.kind)
        refine (ih argues_afterArgument (by decide) (by omega)).bind ?_
        rintro ⟨arguments, ending, c₂⟩ taken₂ h₂ ⟨htaken₂, harguments, hlexed, hending⟩
        refine .ok rfl ⟨?_, List.forall_mem_cons.2 ⟨hsingle, harguments⟩,
          List.forall_mem_cons.2 ⟨htoken, hlexed⟩, hending⟩
        rw [List.append_nil]
        exact htaken₁.append htaken₂

theorem reads_readEnding {ending : Token} (h : ending.Of endings) :
    c.Reads Prod.snd (readEnding ending c) fun found taken =>
      found.1.toList.Sublist (ending :: taken) ∧ IsDescription found.1 := by
  unfold readEnding
  split
  · next hkind =>
    have hof : ending.Of [.description] := h.mono (List.mem_singleton.2 (beq_iff_eq.1 hkind))
    refine (Cursor.reads_expect (by decide)).bind ?_
    rintro ⟨_, c₁⟩ taken₁ h₁ _
    refine .ok rfl ⟨?_, ?_⟩
    · exact (List.nil_sublist _).cons_cons ending
    · rintro _ ⟨⟩
      exact hof
  · exact .ok rfl ⟨List.nil_sublist _, by rintro _ ⟨⟩⟩

theorem reads_readTrailer (hc : c.rest.length ≤ c.bound) :
    c.Reads (fun found => found.2.2) (readTrailer c) fun found taken =>
      (found.1.flatMap Argument.tokens ++ found.2.1.toList).Sublist taken ∧ AreArguments found.1 ∧
        (∀ a ∈ found.1, a.Lexed) ∧ IsDescription found.2.1 := by
  refine (reads_readArguments argues_argument (by decide) (by omega)).bind ?_
  rintro ⟨arguments, ending, c₁⟩ taken₁ h₁ ⟨htaken₁, harguments, hlexed, hending⟩
  refine (reads_readEnding hending).bind ?_
  rintro ⟨description, c₂⟩ taken₂ h₂ ⟨htaken₂, hdescription⟩
  refine .ok rfl ⟨?_, harguments, hlexed, hdescription⟩
  have hall := htaken₁.append (List.Sublist.refl taken₂)
  rw [List.append_assoc] at hall
  rw [List.append_nil]
  exact ((List.Sublist.refl _).append htaken₂).trans hall

theorem reads_readDescription : c.Reads Prod.snd (readDescription c) fun found taken =>
    found.1.toList.Sublist taken ∧ IsDescription found.1 := by
  refine (Cursor.reads_expect (by decide)).bind ?_
  rintro ⟨ending, c₁⟩ taken₁ h₁ ⟨htaken₁, hending⟩
  refine (reads_readEnding hending).mono ?_
  rintro found taken₂ ⟨htaken₂, hdescription⟩
  exact ⟨sublist_after htaken₁ htaken₂, hdescription⟩

/-! ## Strings and declarations -/

theorem reads_readNewline : c.Reads (fun after => after) (readNewline c) fun _ _ => True :=
  (Cursor.reads_expect (by decide)).bind fun _ _ _ _ => .ok rfl trivial

theorem reads_readStringLine : c.Reads Prod.snd (readStringLine c) fun found taken =>
    [found.1].Sublist taken ∧ found.1.Of [.string] := by
  refine (Cursor.reads_expect (by decide)).bind ?_
  rintro ⟨token, c₁⟩ taken₁ h₁ ⟨htaken₁, hof⟩
  exact reads_readNewline.bind fun c₂ taken₂ h₂ _ =>
    .ok rfl ⟨htaken₁.trans (List.sublist_append_left ..), hof⟩

theorem reads_readParenthesized : c.Reads Prod.snd (readParenthesized c) fun found taken =>
    [found.1].Sublist taken ∧ found.1.Of [.string] := by
  refine (Cursor.reads_expect (by decide)).bind ?_
  rintro ⟨_, c₁⟩ taken₁ h₁ _
  refine (Cursor.reads_expect (by decide)).bind ?_
  rintro ⟨token, c₂⟩ taken₂ h₂ ⟨htaken₂, hof⟩
  refine (Cursor.reads_expect (by decide)).bind ?_
  rintro ⟨_, c₃⟩ taken₃ h₃ _
  exact .ok rfl ⟨sublist_skip taken₁ (htaken₂.trans (List.sublist_append_left ..)), hof⟩

theorem reads_readStrings (strings : Nat) :
    c.Reads Prod.snd (readDeclaration 0 strings c) fun found taken =>
      found.1.Sublist taken ∧ (∀ token ∈ found.1, token.Of [.string]) ∧
      found.1.length ≤ strings := by
  induction strings generalizing c with
  | zero =>
    rw [readDeclaration]
    exact reads_readNewline.bind fun _ _ _ _ =>
      .ok rfl ⟨List.nil_sublist _, List.forall_mem_nil _, Nat.le_refl 0⟩
  | succ strings ih =>
    rw [readDeclaration]
    refine (Cursor.reads_expect (by decide)).bind ?_
    rintro ⟨token, c₁⟩ taken₁ h₁ ⟨htaken₁, hof⟩
    dsimp only
    split
    · exact .ok rfl ⟨List.nil_sublist _, List.forall_mem_nil _, Nat.zero_le _⟩
    · next hline =>
      have hstring : token.Of [.string] := by
        refine hof.mono
          (List.mem_singleton.2 ((List.mem_cons.1 hof.kind).resolve_right fun hmem => ?_))
        exact hline (beq_iff_eq.2 (List.mem_singleton.1 hmem))
      refine ih.bind ?_
      rintro ⟨tokens, c₂⟩ taken₂ h₂ ⟨htaken₂, htokens, hlength⟩
      refine .ok rfl ⟨?_, ?_, ?_⟩
      · rw [List.append_nil]
        exact htaken₁.append htaken₂
      · exact List.forall_mem_cons.2 ⟨hstring, htokens⟩
      · exact Nat.succ_le_succ hlength

/-- The words of a declaration, and the strings after them. -/
theorem reads_readDeclaration (words : Nat) {strings : Nat} (hstrings : 0 < strings) :
    c.Reads Prod.snd (readDeclaration words strings c) fun found taken => found.1.Sublist taken ∧
      ∃ named quoted, found.1 = named ++ quoted ∧ (∀ token ∈ named, token.Of [.identifier]) ∧
        (∀ token ∈ quoted, token.Of [.string]) ∧ named.length ≤ words ∧
        quoted.length ≤ strings := by
  induction words generalizing c with
  | zero =>
    refine (reads_readStrings strings).mono ?_
    rintro found taken ⟨htaken, hquoted, hlength⟩
    exact ⟨htaken, [], found.1, rfl, List.forall_mem_nil _, hquoted, Nat.le_refl 0, hlength⟩
  | succ words ih =>
    rw [readDeclaration]
    refine (Cursor.reads_expect (by decide)).bind ?_
    rintro ⟨token, c₁⟩ taken₁ h₁ ⟨htaken₁, hof⟩
    dsimp only
    split
    · exact .ok rfl ⟨List.nil_sublist _, [], [], rfl, List.forall_mem_nil _, List.forall_mem_nil _,
        Nat.zero_le _, Nat.zero_le _⟩
    · next hline =>
      split
      · next hword =>
        have hidentifier : token.Of [.identifier] :=
          hof.mono (List.mem_singleton.2 (beq_iff_eq.1 hword))
        refine ih.bind ?_
        rintro ⟨tokens, c₂⟩ taken₂ h₂
          ⟨htaken₂, named, quoted, htokens, hnamed, hquoted, hwords, hlength⟩
        refine .ok rfl ⟨?_, token :: named, quoted, congrArg (token :: ·) htokens,
          List.forall_mem_cons.2 ⟨hidentifier, hnamed⟩, hquoted, Nat.succ_le_succ hwords, hlength⟩
        rw [List.append_nil]
        exact htaken₁.append htaken₂
      · next hword =>
        have hstring : token.Of [.string] := by
          have hrest := hof.tail hword
          refine hrest.mono
            (List.mem_singleton.2 ((List.mem_cons.1 hrest.kind).resolve_right fun hmem => ?_))
          exact hline (beq_iff_eq.2 (List.mem_singleton.1 hmem))
        refine (reads_readStrings _).bind ?_
        rintro ⟨tokens, c₂⟩ taken₂ h₂ ⟨htaken₂, hquoted, hlength⟩
        refine .ok rfl ⟨?_, [], token :: tokens, rfl, List.forall_mem_nil _,
          List.forall_mem_cons.2 ⟨hstring, hquoted⟩, Nat.zero_le _, ?_⟩
        · rw [List.append_nil]
          exact htaken₁.append htaken₂
        · dsimp only at hlength ⊢
          rw [List.length_cons]
          omega

/-! ## Directives -/

theorem reads_readMetadata (position : Position) (hc : c.rest.length ≤ c.bound) :
    c.Reads Prod.snd (readMetadata position c) fun found taken =>
      found.1.tokens.Sublist taken ∧ (Tree.ofMetadata found.1).Grammatical := by
  refine (Cursor.reads_expect (by decide)).bind ?_
  rintro ⟨key, c₁⟩ taken₁ h₁ ⟨htaken₁, hkey⟩
  refine (Value.reads_read (h₁.length_le_bound hc)).bind ?_
  rintro ⟨value, c₂⟩ taken₂ h₂ ⟨htaken₂, hvalue⟩
  refine (Cursor.reads_take (by decide)).bind ?_
  rintro ⟨_, c₃⟩ taken₃ h₃ _
  exact .ok rfl ⟨htaken₁.append (htaken₂.trans (List.sublist_append_left ..)),
    Tree.grammatical_ofMetadata hkey hvalue⟩

theorem reads_readModel (position : Position) :
    c.Reads Prod.snd (readModel position c) fun found taken =>
      (Directive.model found.1).tokens.Sublist taken ∧
        (Tree.ofDirective (.model found.1)).Grammatical := by
  refine (Cursor.reads_expect (by decide)).bind ?_
  rintro ⟨name, c₁⟩ taken₁ h₁ ⟨htaken₁, hname⟩
  refine (Cursor.reads_expect (by decide)).bind ?_
  rintro ⟨value, c₂⟩ taken₂ h₂ ⟨htaken₂, hvalue⟩
  refine reads_readStringLine.bind ?_
  rintro ⟨offset, c₃⟩ taken₃ h₃ ⟨htaken₃, hoffset⟩
  refine .ok rfl ⟨?_, Tree.grammatical_model hname hvalue hoffset⟩
  rw [List.append_nil]
  exact htaken₁.append (htaken₂.append htaken₃)

/-! ## Steps and requests -/

theorem reads_readStep {tag opener : Token} {kind : StepKind} (htag : tag.Of timeTags)
    (hopener : kind = .command → opener.Of [.identifier]) (hc : c.rest.length ≤ c.bound) :
    c.Reads Prod.snd (readStep tag kind opener c) fun found taken =>
      found.1.tokens.Sublist (tag :: opener :: taken) ∧ IsStepLine found.1 ∧ found.1.Lexed := by
  have hrest {subject : Token} {c : Cursor} (hsubject : subject.Of [Tree.subjectKind kind])
      (hc : c.rest.length ≤ c.bound) : c.Reads Prod.snd (readTrailer c >>= fun rest =>
        .ok (⟨tag, kind, opener.position, subject, rest.1, rest.2.1⟩, rest.2.2))
        fun (found : StepLine × Cursor) taken =>
          found.1.tokens.Sublist (tag :: subject :: taken) ∧ IsStepLine found.1 ∧
          found.1.Lexed := by
    refine (reads_readTrailer hc).bind ?_
    rintro ⟨arguments, description, c₁⟩ taken₁ h₁ ⟨htaken₁, harguments, hlexed, hdescription⟩
    have hname (hcommand : kind = .command) : isIdentifier subject.text = true := by
      subst hcommand
      exact hsubject.isIdentifier (List.mem_singleton.1 hsubject.kind)
    refine .ok rfl ⟨?_, Tree.isStepLine htag hsubject harguments hdescription,
      ⟨htag.kind, htag.isTag_of_timeTags⟩, hname, hlexed⟩
    rw [List.append_nil]
    exact (htaken₁.cons_cons subject).cons_cons tag
  unfold readStep
  split
  · next hkind => exact hrest (by rw [hkind]; exact hopener hkind) hc
  · next hkind =>
    refine reads_readParenthesized.bind ?_
    rintro ⟨subject, c₁⟩ taken₁ h₁ ⟨htaken₁, hstring⟩
    have hsubject : subject.Of [Tree.subjectKind kind] := by
      cases kind
      case command => exact absurd rfl hkind
      all_goals exact hstring
    refine (hrest hsubject (h₁.length_le_bound hc)).mono ?_
    rintro found taken₂ ⟨htaken₂, hline⟩
    refine ⟨?_, hline⟩
    exact htaken₂.trans (((htaken₁.append (.refl taken₂)).cons opener).cons_cons tag)

theorem reads_readRequest {timing : Timing} (h : (Tree.ofTiming timing).Grammatical)
    (hlexed : timing.Lexed) :
    c.Reads Prod.snd (readRequest timing c) fun found taken =>
      found.1.tokens.Sublist (timing.tokens ++ taken) ∧ IsRequestLine found.1 ∧
        found.1.timing.Lexed := by
  refine reads_readParenthesized.bind ?_
  rintro ⟨name, c₁⟩ taken₁ h₁ ⟨htaken₁, hname⟩
  refine reads_readDescription.bind ?_
  rintro ⟨description, c₂⟩ taken₂ h₂ ⟨htaken₂, hdescription⟩
  refine .ok rfl ⟨?_, Tree.isRequestLine h hname hdescription, hlexed⟩
  rw [List.append_nil]
  exact (List.Sublist.refl _).append (htaken₁.append htaken₂)

/-! ## Whole lines -/

/-- What the line makes up is grammatical. -/
def Grammatical : Line → Prop
  | .comment text => text.Of [.description]
  | .id _ name => name.Of [.string]
  | .metadata line => (Tree.ofMetadata line).Grammatical
  | .declaration item => (Tree.ofDeclaration item).Grammatical
  | .step line => IsStepLine line
  | .directive d => (Tree.ofDirective d).Grammatical
  | .requestBegin line => IsRequestLine line
  | .command _ line => IsCommandLine line
  | .blank | .loadAndGo _ | .blockBegin .. | .blockEnd _ | .requestEnd | .sectionBegin .. => True

theorem reads_readTimed {region : Region} {tag : Token} (htag : tag.Of timeTags)
    (hc : c.rest.length ≤ c.bound) :
    c.Reads (fun found => found.2.2) (readTimed region tag c) fun found taken =>
      found.1.tokens.Sublist (tag :: taken) ∧ found.1.Grammatical ∧ found.1.Lexed := by
  have hlevels : Level.areProper (afterTag region) = true :=
    Region.forall_of_all (P := fun r => Level.areProper (afterTag r) = true) (by decide) region
  refine (Cursor.reads_take hlevels).bind ?_
  rintro ⟨opener, c₁⟩ taken₁ h₁ ⟨htaken₁, hfound, _⟩
  dsimp only
  split
  · next kind hkind =>
    have hopener (hcommand : kind = .command) : opener.Of [.identifier] := by
      refine hfound.of.mono (List.mem_singleton.2 ?_)
      rw [hcommand] at hkind
      revert hkind
      cases opener.kind <;> simp [stepKind?]
    refine (reads_readStep htag hopener (h₁.length_le_bound hc)).bind ?_
    rintro ⟨line, c₂⟩ taken₂ h₂ ⟨htaken₂, hline⟩
    refine .ok rfl ⟨?_, hline⟩
    rw [List.append_nil]
    exact htaken₂.trans ((htaken₁.append (.refl taken₂)).cons_cons tag)
  · have htiming : (Tree.ofTiming (.tag tag)).Grammatical := Tree.grammatical_ofTag htag
    refine (reads_readRequest htiming ⟨htag.kind, htag.isTag_of_timeTags⟩).bind ?_
    rintro ⟨line, c₂⟩ taken₂ h₂ ⟨htaken₂, hline⟩
    refine .ok rfl ⟨?_, hline⟩
    rw [List.append_nil]
    exact htaken₂.trans ((List.sublist_append_right ..).cons_cons tag)

theorem reads_readNamed {region : Region} {name : Token} (hname : name.Of [.identifier])
    (hc : c.rest.length ≤ c.bound) :
    c.Reads (fun found => found.2.2) (readNamed region name c) fun found taken =>
      found.1.tokens.Sublist (name :: taken) ∧ found.1.Grammatical ∧ found.1.Lexed := by
  have hword {token : Token} (h : token.Of [.identifier]) : isIdentifier token.text = true :=
    h.isIdentifier (List.mem_singleton.1 h.kind)
  unfold readNamed
  split
  · refine (reads_readTrailer hc).bind ?_
    rintro ⟨arguments, description, c₁⟩ taken₁ h₁ ⟨htaken₁, harguments, hlexed, hdescription⟩
    refine .ok rfl ⟨?_, Tree.isCommandLine hname harguments hdescription, hword hname, hlexed⟩
    rw [List.append_nil]
    exact htaken₁.cons_cons name
  · refine reads_readDescription.bind ?_
    rintro ⟨description, c₁⟩ taken₁ h₁ ⟨htaken₁, hdescription⟩
    refine .ok rfl ⟨?_, Tree.isCommandLine hname (List.forall_mem_nil _) hdescription, hword hname,
      List.forall_mem_nil _⟩
    rw [List.append_nil]
    exact htaken₁.cons_cons name
  · refine (reads_readDeclaration 2 (by decide)).bind ?_
    rintro ⟨tokens, c₁⟩ taken₁ h₁ ⟨htaken₁, named, quoted, htokens, hnamed, hquoted, hlengths⟩
    dsimp only at htokens htaken₁
    subst htokens
    refine .ok rfl ⟨?_, Tree.grammatical_ofDeclaration hname hnamed hquoted hlengths,
      hword hname, ?_⟩
    · rw [List.append_nil]
      exact htaken₁.cons_cons name
    · intro token hmem hstring
      rcases List.mem_append.1 hmem with hmem | hmem
      · exact hword (hnamed token hmem)
      · exact absurd (List.mem_singleton.1 (hquoted token hmem).kind) hstring

theorem reads_readMetadataLine (place : Place) (position : Position)
    (hc : c.rest.length ≤ c.bound) :
    c.Reads (fun found => found.2.2) (readMetadataLine place position c) fun found taken =>
      found.1.tokens.Sublist taken ∧ found.1.Grammatical ∧ found.1.Lexed := by
  refine (reads_readMetadata position hc).bind ?_
  rintro ⟨line, c₁⟩ taken₁ h₁ ⟨htaken₁, hline⟩
  rw [← List.append_nil taken₁] at htaken₁
  dsimp only
  split <;> exact .ok rfl ⟨htaken₁, hline, trivial⟩

theorem reads_readFrom {place : Place} {first : Token}
    (hof : first.Of (Level.sought place.levels)) (hc : c.rest.length ≤ c.bound) :
    c.Reads (fun found => found.2.2) (readFrom place first c) fun found taken =>
      found.1.tokens.Sublist (first :: taken) ∧ found.1.Grammatical ∧ found.1.Lexed := by
  have hmem := sought_levels place _ hof.kind
  have hend := hof.ne_endOfInput
  have hone {kind : Terminal} (hkind : first.kind = kind) : first.Of [kind] :=
    hof.mono (List.mem_singleton.2 hkind)
  have hkeyword {line : Line} (place : Place)
      (hline : line.tokens = [] ∧ line.Grammatical ∧ line.Lexed) :
      c.Reads (fun found => found.2.2) (readNewline c >>= fun after => .ok (line, place, after))
        fun found taken =>
          found.1.tokens.Sublist (first :: taken) ∧ found.1.Grammatical ∧ found.1.Lexed :=
    reads_readNewline.bind fun _ _ _ _ => .ok rfl ⟨hline.1 ▸ List.nil_sublist _, hline.2⟩
  have hstring {f : Token → Line} (place : Place) (hf : ∀ token : Token, token.Of [.string] →
      (f token).tokens = [token] ∧ (f token).Grammatical ∧ (f token).Lexed) :
      c.Reads (fun found => found.2.2)
        (readStringLine c >>= fun found => .ok (f found.1, place, found.2))
        fun found taken =>
          found.1.tokens.Sublist (first :: taken) ∧ found.1.Grammatical ∧ found.1.Lexed := by
    refine reads_readStringLine.bind ?_
    rintro ⟨token, c₁⟩ taken₁ h₁ ⟨htaken₁, htoken⟩
    obtain ⟨htokens, hline⟩ := hf token htoken
    refine .ok rfl ⟨?_, hline⟩
    rw [List.append_nil]
    exact htokens ▸ htaken₁.cons first
  unfold readFrom
  dsimp only
  split
  case h_1 => exact .ok rfl ⟨List.nil_sublist _, trivial, trivial⟩
  case h_2 hkind =>
    exact reads_readNewline.bind fun _ _ _ _ =>
      .ok rfl ⟨(List.nil_sublist _).cons_cons first, hone hkind, trivial⟩
  case h_3 =>
    exact hstring (f := Line.id first.position) _ fun _ htoken => ⟨rfl, htoken, trivial⟩
  case h_4 => exact hkeyword _ ⟨rfl, trivial, trivial⟩
  case h_5 => exact hkeyword _ ⟨rfl, trivial, trivial⟩
  case h_6 => exact hkeyword _ ⟨rfl, trivial, trivial⟩
  case h_7 => exact hkeyword _ ⟨rfl, trivial, trivial⟩
  case h_8 => exact hkeyword _ ⟨rfl, trivial, trivial⟩
  case h_9 =>
    refine (reads_readMetadataLine place first.position hc).mono ?_
    rintro found taken ⟨htaken, hline⟩
    exact ⟨htaken.cons first, hline⟩
  case h_10 =>
    refine (reads_readModel first.position).bind ?_
    rintro ⟨line, c₁⟩ taken₁ h₁ ⟨htaken₁, hline⟩
    refine .ok rfl ⟨?_, hline, trivial⟩
    rw [List.append_nil]
    exact htaken₁.cons first
  case h_11 =>
    refine (Cursor.reads_expect (by decide)).bind ?_
    rintro ⟨number, c₁⟩ taken₁ h₁ ⟨htaken₁, hnumber⟩
    exact reads_readNewline.bind fun _ _ _ _ =>
      .ok rfl ⟨(htaken₁.trans (List.sublist_append_left ..)).cons first,
        Tree.grammatical_engine hnumber, trivial⟩
  case h_12 =>
    exact hstring (f := fun token => .directive (.epoch first.position token)) _ fun _ htoken =>
      ⟨rfl, Tree.grammatical_epoch htoken, trivial⟩
  case h_13 => exact hkeyword _ ⟨rfl, trivial, trivial⟩
  case h_14 => exact hkeyword _ ⟨rfl, trivial, trivial⟩
  case h_15 => exact hkeyword _ ⟨rfl, trivial, trivial⟩
  case h_16 hkind =>
    refine (Cursor.reads_expect (by decide)).bind ?_
    rintro ⟨name, c₁⟩ taken₁ h₁ ⟨htaken₁, hname⟩
    refine (Cursor.reads_expect (by decide)).bind ?_
    rintro ⟨_, c₂⟩ taken₂ h₂ _
    have hletter : first.kind.tagLetter? = some ('G' : Char) := by rw [hkind]; rfl
    refine (reads_readRequest (Tree.grammatical_groundEpoch (hone hkind) hname)
      ⟨hkind, hof.isTag hletter⟩).bind ?_
    rintro ⟨line, c₃⟩ taken₃ h₃ ⟨htaken₃, hline⟩
    refine .ok rfl ⟨?_, hline⟩
    rw [List.append_nil]
    exact htaken₃.trans ((htaken₁.append (List.sublist_append_right ..)).cons_cons first)
  case h_17 hkind => exact reads_readNamed (hone hkind) hc
  case h_18 =>
    have htag : first.kind ∈ timeTags := by
      simp only [firsts, List.mem_append, List.mem_cons, List.not_mem_nil, or_false] at hmem
      simp_all
    exact reads_readTimed (hof.mono htag) hc

theorem areProper_levels (place : Place) : Level.areProper place.levels = true := by
  obtain ⟨region, tail, afterMetadata⟩ := place
  refine Region.forall_of_all
    (P := fun r => Level.areProper (Place.levels ⟨r, tail, afterMetadata⟩) = true) ?_ region
  cases tail <;> cases afterMetadata <;> decide

/-- A line is read by taking tokens, or the text ends. -/
theorem ends_read (place : Place) (hc : c.rest.length ≤ c.bound) :
    Ends c.Stops (read place c) fun found => ∀ line place' c', found = some (line, place', c') →
      ∃ taken, c.Takes taken c' ∧ taken ≠ [] ∧ line.tokens.Sublist taken ∧
        line.Grammatical ∧ line.Lexed := by
  refine (Cursor.ends_read (areProper_levels place)).bind fun found hfound => ?_
  cases found with
  | none => exact .ok (by rintro _ _ _ ⟨⟩)
  | some found =>
    obtain ⟨first, c₁⟩ := found
    obtain ⟨hfirst, hfound, -⟩ := hfound first c₁ rfl
    have hline := reads_readFrom hfound.of (hfirst.length_le_bound hc)
    dsimp only
    cases hread : readFrom place first c₁ with
    | error e => exact .throw ((hline.error e hread).after hfirst)
    | ok found =>
      refine .ok ?_
      rintro line place' c' ⟨⟩
      obtain ⟨taken, htaken, hsublist, hline⟩ := hline.result _ hread
      exact ⟨first :: taken, hfirst.append htaken, List.cons_ne_nil _ _, hsublist, hline⟩

/-- All lines of a text are read by taking tokens. -/
theorem ends_readAll {fuel : Nat} (place : Place) (hc : c.rest.length ≤ c.bound)
    (hfuel : c.rest.length < fuel) : Ends c.Stops (readAll fuel place c) fun lines =>
      ∃ taken c', c.Takes taken c' ∧ (lines.flatMap Line.tokens).Sublist taken ∧
        ∀ line ∈ lines, line.Grammatical ∧ line.Lexed := by
  induction fuel generalizing place c with
  | zero => omega
  | succ fuel ih =>
    refine (ends_read place hc).bind fun found hfound => ?_
    cases found with
    | none => exact .ok ⟨[], c, .nil, List.nil_sublist _, List.forall_mem_nil _⟩
    | some found =>
      obtain ⟨line, place', c₁⟩ := found
      obtain ⟨taken₁, h₁, hfilled, htaken₁, hline⟩ := hfound line place' c₁ rfl
      have hlength := h₁.length_le
      have hpos := List.length_pos_of_ne_nil hfilled
      have hmore := ih place' (h₁.length_le_bound hc) (by omega)
      dsimp only
      cases hread : readAll fuel place' c₁ with
      | error e => exact .throw ((hmore.error e hread).after h₁)
      | ok lines =>
        obtain ⟨taken₂, c', h₂, htaken₂, hlines⟩ := hmore.result _ hread
        exact .ok ⟨taken₁ ++ taken₂, c', h₁.append h₂, htaken₁.append htaken₂,
          List.forall_mem_cons.2 ⟨hline, hlines⟩⟩

end Line

/-- A text is read as lines by taking tokens from its front. -/
theorem ends_readLines (text : List Char) :
    Ends (Cursor.ofText text).Stops (readLines text) fun lines =>
      ∃ taken c, (Cursor.ofText text).Takes taken c ∧ (lines.flatMap Line.tokens).Sublist taken ∧
        ∀ line ∈ lines, line.Grammatical ∧ line.Lexed :=
  Line.ends_readAll .start (Nat.le_refl _) (Nat.lt_succ_self _)

end CommandSequence.Source
