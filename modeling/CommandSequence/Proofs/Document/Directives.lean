import CommandSequence.Document.OfText
import CommandSequence.Proofs.Document.OfOutline
import CommandSequence.Proofs.Document.Unplaced
import CommandSequence.Proofs.Source.Directives

/-!
# The order of directives

What a step comes to depends on the entries of its metadata and on its models in their order, and on
which engine and epoch it is given; that there are at most one of each, and only for a step that
starts another sequence, is checked for all directives together (`OfOutline.step_shuffled`). So
directive lines below a step can be shuffled, as long as those of metadata and those of models keep
their order (`Document.directives_commute`).
-/

namespace CommandSequence

namespace OfOutline

open Source (Terminal Directive StepItem Shuffled)

/-! ## Effects -/

theorem kind_of_effect (d : Directive) : Yields (effect d) fun e => e.kind = d.kind := by
  intro e h
  cases d with
  | metadata line =>
    obtain ⟨_, -, heq⟩ := bind_eq_ok.1 h
    cases heq
    rfl
  | model line =>
    obtain ⟨_, -, rfl⟩ := map_eq_ok.1 h
    rfl
  | engine position token =>
    obtain ⟨n, -, h⟩ := bind_eq_ok.1 h
    cases n <;> cases h
    rfl
  | epoch position token =>
    obtain ⟨_, -, rfl⟩ := map_eq_ok.1 h
    rfl

theorem map_kind_of_mapM {directives : List Directive} {effects : List Effect}
    (h : directives.mapM effect = .ok effects) :
    effects.map Effect.kind = directives.map Directive.kind := by
  rw [mapM_eq_ok] at h
  induction h with
  | nil => rfl
  | cons he _ ih => rw [List.map_cons, List.map_cons, kind_of_effect _ _ he, ih]

/-! ## Shuffled effects -/

variable {effects effects' : List Effect}

theorem findSome?_perm {α β : Type} {f : α → Option β} {l l' : List α} (h : l.Perm l')
    (hlength : (l.filterMap f).length ≤ 1) : l.findSome? f = l'.findSome? f := by
  have hperm := h.filterMap f
  rw [← List.head?_filterMap, ← List.head?_filterMap]
  rcases hfound : l.filterMap f with - | ⟨a, - | ⟨b, more⟩⟩
  · rw [hfound] at hperm
    rw [hperm.nil_eq]
  · rw [hfound] at hperm
    rw [List.singleton_perm.1 hperm]
  · rw [hfound] at hlength
    simp at hlength

theorem filterMap_shuffled {α : Type} {k : Terminal} (pick : Effect → Option α)
    (hpick : ∀ e : Effect, e.kind ≠ k → pick e = none)
    (h : effects.filter (·.kind == k) = effects'.filter (·.kind == k)) :
    effects.filterMap pick = effects'.filterMap pick := by
  have hkept (effects : List Effect) :
      (effects.filter (·.kind == k)).filterMap pick = effects.filterMap pick := by
    rw [List.filterMap_filter]
    refine List.filterMap_congr fun e _ => ?_
    by_cases hkind : e.kind = k
    · simp [hkind]
    · simp [hkind, hpick e hkind]
  rw [← hkept effects, h, hkept]

theorem checkCalls_shuffled {isCall : Bool} (h : Shuffled Effect.kind effects effects')
    (hcalls : checkCalls isCall [] (effects.filterMap Effect.call?) = .ok ()) :
    checkCalls isCall [] (effects'.filterMap Effect.call?) = .ok () := by
  have hperm := h.perm.filterMap Effect.call?
  obtain ⟨hcall, hnodup, -⟩ := checkCalls_eq_ok.1 hcalls
  refine checkCalls_eq_ok.2 ⟨fun hfilled => hcall fun hnone => hfilled ?_, ?_, nofun⟩
  · rw [hnone] at hperm
    exact hperm.nil_eq.symm
  · exact (hperm.map Prod.fst).nodup_iff.1 hnodup

/-- Accepted directives give a call the same engine and epoch in any order. -/
theorem withCalls_shuffled {isCall : Bool} (h : Shuffled Effect.kind effects effects')
    (hcalls : checkCalls isCall [] (effects.filterMap Effect.call?) = .ok ()) (a : Action) :
    withCalls effects' a = withCalls effects a := by
  have hengines : (effects.filterMap Effect.engine?).length ≤ 1 := by
    rw [length_filterMap (k := .engine) fun e => by cases e <;> rfl]
    exact count_le_one hcalls .engine
  have hepochs : (effects.filterMap Effect.epoch?).length ≤ 1 := by
    rw [length_filterMap (k := .epoch) fun e => by cases e <;> rfl]
    exact count_le_one hcalls .epoch
  have hengine := findSome?_perm h.perm hengines
  have hepoch := findSome?_perm h.perm hepochs
  cases a with
  | call => simp only [withCalls, hengine, hepoch]
  | _ => rfl

/-! ## Shuffled items -/

variable {validate : Bool}

/-- A step means the same in whatever order its directives stand. -/
theorem step_shuffled {s s' : StepItem} {r : Step} (h : s.Shuffles s')
    (hs : step validate s = .ok r) : step validate s' = .ok r := by
  obtain ⟨hline, hdirectives⟩ := h
  obtain ⟨moment, hmoment, hs⟩ := bind_eq_ok.1 hs
  obtain ⟨does, hdoes, hs⟩ := bind_eq_ok.1 hs
  obtain ⟨given, hgiven, hs⟩ := bind_eq_ok.1 hs
  obtain ⟨effects, heffects, hs⟩ := bind_eq_ok.1 hs
  obtain ⟨⟨⟩, hcalls, hs⟩ := bind_eq_ok.1 hs
  cases hs
  obtain ⟨effects', heffects', hshuffled⟩ := hdirectives.exists_mapM kind_of_effect heffects
  rw [hline] at hmoment hdoes hgiven
  refine bind_eq_ok.2 ⟨moment, hmoment, bind_eq_ok.2 ⟨does, hdoes, bind_eq_ok.2 ⟨given, hgiven,
    bind_eq_ok.2
      ⟨effects', heffects', bind_eq_ok.2 ⟨(), checkCalls_shuffled hshuffled hcalls, ?_⟩⟩⟩⟩⟩
  have hmetadata := filterMap_shuffled Effect.metadata?
    (fun e hkind => by cases e <;> first | rfl | exact absurd rfl hkind) hshuffled.metadata
  have hmodels := filterMap_shuffled Effect.model?
    (fun e hkind => by cases e <;> first | rfl | exact absurd rfl hkind) hshuffled.models
  rw [withCalls_shuffled hshuffled hcalls, hline, hmetadata, hmodels]
  rfl

theorem mapM_eq_ok_of_forall₂ {α β ε : Type} {f : α → Except ε β} {R : α → α → Prop} {l l' : List α}
    {out : List β} (h : List.Forall₂ R l l') (hR : ∀ a a' b, R a a' → f a = .ok b → f a' = .ok b)
    (hout : l.mapM f = .ok out) : l'.mapM f = .ok out := by
  rw [mapM_eq_ok] at hout ⊢
  induction hout generalizing l' with
  | nil =>
    cases h
    exact .nil
  | cons hab _ ih =>
    obtain _ | ⟨ha, h⟩ := h
    exact .cons (hR _ _ _ ha hab) (ih h)

theorem part_shuffled {item item' : Source.Item} {part' : Part} (h : item.Shuffles item')
    (hpart : part validate item = .ok part') : part validate item' = .ok part' := by
  cases h with
  | refl => exact hpart
  | step h =>
    obtain ⟨s, hs, rfl⟩ := map_eq_ok.1 hpart
    exact map_eq_ok.2 ⟨s, step_shuffled h hs, rfl⟩
  | request line metadata h =>
    obtain ⟨r, hr, rfl⟩ := map_eq_ok.1 hpart
    refine map_eq_ok.2 ⟨r, ?_, rfl⟩
    obtain ⟨moment, hmoment, hr⟩ := bind_eq_ok.1 hr
    obtain ⟨name, hname, hr⟩ := bind_eq_ok.1 hr
    obtain ⟨steps, hsteps, hr⟩ := bind_eq_ok.1 hr
    have hsteps' := mapM_eq_ok_of_forall₂ h (fun _ _ _ => step_shuffled) hsteps
    exact bind_eq_ok.2
      ⟨moment, hmoment, bind_eq_ok.2 ⟨name, hname, bind_eq_ok.2 ⟨steps, hsteps', hr⟩⟩⟩

/-! ## How many directives are accepted -/

theorem isCall_of_action {kind : Source.StepKind} {subject : Source.Token} :
    Yields (action kind subject) fun a => isCall a = true → kind = .activate ∨ kind = .load := by
  intro a h hcall
  cases kind with
  | activate => exact .inl rfl
  | load => exact .inr rfl
  | command => cases h; cases hcall
  | groundBlock | groundEvent =>
    obtain ⟨_, -, heq⟩ := bind_eq_ok.1 h
    cases heq
    cases hcall

/-- A step is given at most one engine and one epoch, and those only to start another sequence. -/
theorem count_of_step {s : StepItem} (d : CallDirective) : Yields (step validate s) fun _ =>
    (s.directives.map Directive.kind).count (callTerminal d) ≤ 1 ∧
      (callTerminal d ∈ s.directives.map Directive.kind →
        s.line.kind = .activate ∨ s.line.kind = .load) := by
  intro r hs
  obtain ⟨_, -, hs⟩ := bind_eq_ok.1 hs
  obtain ⟨does, hdoes, hs⟩ := bind_eq_ok.1 hs
  obtain ⟨_, -, hs⟩ := bind_eq_ok.1 hs
  obtain ⟨effects, heffects, hs⟩ := bind_eq_ok.1 hs
  obtain ⟨⟨⟩, hcalls, -⟩ := bind_eq_ok.1 hs
  rw [← map_kind_of_mapM heffects]
  exact ⟨count_le_one hcalls d, fun hmem => isCall_of_action does hdoes (isCall_of_mem hcalls hmem)⟩

/-- Every step of an outline that has a document has a meaning. -/
theorem exists_step {outline : Source.Outline} {d : Document}
    (h : Document.ofOutline validate outline = .ok d) :
    ∀ s ∈ outline.steps, ∃ r, step validate s = .ok r := by
  obtain ⟨parts, hparts, -⟩ := bind_eq_ok.1 h
  intro s hs
  obtain ⟨item, hitem, hs⟩ := List.mem_flatMap.1 hs
  obtain ⟨p, hp⟩ := exists_of_mapM hparts item hitem
  cases item with
  | step s' =>
    obtain rfl := List.mem_singleton.1 hs
    obtain ⟨r, hr, -⟩ := map_eq_ok.1 hp
    exact ⟨r, hr⟩
  | request r =>
    obtain ⟨_, hr, -⟩ := map_eq_ok.1 hp
    obtain ⟨_, -, hr⟩ := bind_eq_ok.1 hr
    obtain ⟨_, -, hr⟩ := bind_eq_ok.1 hr
    obtain ⟨steps, hsteps, -⟩ := bind_eq_ok.1 hr
    exact exists_of_mapM hsteps s hs
  | _ => cases hs

end OfOutline

namespace Document

open Source (Outline Directive DirectiveLine EndsBelowStep Shuffled)

variable {validate : Bool}

/-- The document of an outline does not depend on the order of directives. -/
theorem ofOutline_shuffled {outline outline' : Outline} {d : Document}
    (h : List.Forall₂ Source.Item.Shuffles (outline.items.map Source.Item.unplaced)
      (outline'.items.map Source.Item.unplaced))
    (hd : ofOutline validate outline = .ok d) : ofOutline validate outline' = .ok d := by
  have hunplaced (outline : Outline) {parts : List OfOutline.Part} :
      outline.items.mapM (OfOutline.part validate) = .ok parts ↔
        (outline.items.map Source.Item.unplaced).mapM (OfOutline.part validate) = .ok parts := by
    rw [← toOption_eq_some, ← toOption_eq_some,
      OfOutline.toOption_mapM_unplaced OfOutline.part_unplaced]
  obtain ⟨parts, hparts, hgather⟩ := bind_eq_ok.1 hd
  rw [hunplaced] at hparts
  refine bind_eq_ok.2 ⟨parts, (hunplaced outline').2 ?_, hgather⟩
  exact OfOutline.mapM_eq_ok_of_forall₂ h (fun _ _ _ => OfOutline.part_shuffled) hparts

/-- Directive lines below a step can be shuffled, as long as those of metadata and those of models
keep their order. Not more than one engine and one epoch are accepted, and those only to start
another sequence. -/
theorem directives_commute :
    (∀ (validate : Bool) (before after text text' : List Char) (lines lines' : List DirectiveLine),
      EndsBelowStep before → Shuffled (·.directive.kind) lines lines' →
      Lines.terminate text = before ++ (DirectiveLine.textOf lines ++ after) →
      Lines.terminate text' = before ++ (DirectiveLine.textOf lines' ++ after) →
      ∀ d, ofText validate text = .ok d ↔ ofText validate text' = .ok d) ∧
    ∀ (validate : Bool) (text : List Char) (outline : Outline) (d : Document),
      Outline.read text = .ok outline → ofText validate text = .ok d → ∀ s ∈ outline.steps,
        (s.directives.map Directive.kind).count .engine ≤ 1 ∧
        (s.directives.map Directive.kind).count .epoch ≤ 1 ∧
        (.engine ∈ s.directives.map Directive.kind ∨ .epoch ∈ s.directives.map Directive.kind →
          s.line.kind = .activate ∨ s.line.kind = .load) := by
  constructor
  · intro validate before after text text' lines lines' hbefore hlines htext htext' d
    have hone {text text' : List Char} {lines lines' : List DirectiveLine}
        (h : Shuffled (·.directive.kind) lines lines')
        (htext : Lines.terminate text = before ++ (DirectiveLine.textOf lines ++ after))
        (htext' : Lines.terminate text' = before ++ (DirectiveLine.textOf lines' ++ after))
        (hd : ofText validate text = .ok d) : ofText validate text' = .ok d := by
      obtain ⟨outline, hread, hd⟩ := ofText_eq_ok.1 hd
      obtain ⟨outline', hread', hitems⟩ := Outline.read_shuffled hbefore h htext htext' hread
      exact ofText_eq_ok.2 ⟨outline', hread', ofOutline_shuffled hitems hd⟩
    exact ⟨hone hlines htext htext', hone hlines.symm htext' htext⟩
  · intro validate text outline d hread hd s hs
    obtain ⟨_, hread', hd⟩ := ofText_eq_ok.1 hd
    cases hread.symm.trans hread'
    obtain ⟨r, hr⟩ := OfOutline.exists_step hd s hs
    obtain ⟨hengines, hengine⟩ := OfOutline.count_of_step .engine r hr
    obtain ⟨hepochs, hepoch⟩ := OfOutline.count_of_step .epoch r hr
    exact ⟨hengines, hepochs, fun h => h.elim hengine hepoch⟩

theorem directives_commute_call :
    let before := String.toList "@ID \"t\"\nC @ACTIVATE(\"child\") 7\n"
    let after := String.toList "C NOOP\n"
    let text := before ++
      String.toList "@ENGINE 2\n@METADATA \"k\" 1\n@EPOCH \"e\"\n@METADATA \"k\" [2,\n3]\n" ++ after
    let text' := before ++
      String.toList "@METADATA \"k\" 1\n@METADATA \"k\" [2,\n3]\n@EPOCH \"e\"\n@ENGINE 2\n" ++ after
    EndsBelowStep before ∧ Succeeds (Outline.read text) fun outline =>
      Succeeds (ofText true text) fun d => ofText true text' = .ok d ∧ ∀ s ∈ outline.steps,
        (s.directives.map Directive.kind).count .engine ≤ 1 ∧
        (s.directives.map Directive.kind).count .epoch ≤ 1 ∧
        (.engine ∈ s.directives.map Directive.kind ∨ .epoch ∈ s.directives.map Directive.kind →
          s.line.kind = .activate ∨ s.line.kind = .load) := by
  intro before after text text'
  have hbefore : EndsBelowStep before := .of_leads (by decide) (by decide +kernel)
  obtain ⟨engine, hengine, hengineKind⟩ :=
    DirectiveLine.exists_text (k := .engine) (String.toList "@ENGINE 2\n") (by decide)
      (by decide +kernel)
  obtain ⟨epoch, hepoch, hepochKind⟩ :=
    DirectiveLine.exists_text (k := .epoch) (String.toList "@EPOCH \"e\"\n") (by decide)
      (by decide +kernel)
  obtain ⟨first, hfirst, hfirstKind⟩ := DirectiveLine.exists_text (k := .metadata)
    (String.toList "@METADATA \"k\" 1\n") (by decide) (by decide +kernel)
  obtain ⟨second, hsecond, hsecondKind⟩ := DirectiveLine.exists_text (k := .metadata)
    (String.toList "@METADATA \"k\" [2,\n3]\n") (by decide) (by decide +kernel)
  have hlines : Shuffled (·.directive.kind) [engine, first, epoch, second]
      [first, second, epoch, engine] := by
    refine ⟨?_, by simp [*], by simp [*]⟩
    have hlast : List.Perm ([engine] ++ [first, epoch, second])
        ([first, epoch, second] ++ [engine]) :=
      List.perm_append_comm
    exact hlast.trans (.cons first (.swap second epoch _))
  have htext : Lines.terminate text =
      before ++ (DirectiveLine.textOf [engine, first, epoch, second] ++ after) := by
    simp only [DirectiveLine.textOf, List.flatMap_cons, hengine, hfirst, hepoch, hsecond]
    decide
  have htext' : Lines.terminate text' =
      before ++ (DirectiveLine.textOf [first, second, epoch, engine] ++ after) := by
    simp only [DirectiveLine.textOf, List.flatMap_cons, hengine, hfirst, hepoch, hsecond]
    decide
  have hread : (Outline.read text).toOption.isSome = true ∧
      (ofText true text).toOption.isSome = true := by decide +kernel
  obtain ⟨outline, houtline⟩ := Option.isSome_iff_exists.1 hread.1
  obtain ⟨d, hd⟩ := Option.isSome_iff_exists.1 hread.2
  rw [toOption_eq_some] at houtline hd
  refine ⟨hbefore, outline, houtline, d, hd, ?_,
    directives_commute.2 true text outline d houtline hd⟩
  exact (directives_commute.1 true before after text text' _ _ hbefore hlines htext htext' d).1 hd

end Document

end CommandSequence
