import CommandSequence.Document.OfOutline
import CommandSequence.Proofs.Dictionary

/-!
# The effects of directives

What the directives of a step come to does not depend on where they stand (`Effect.unplaced`). A
step's engine, epoch, metadata and models are its effects (`Step.effects`), and directives that have
just these effects give them back to the step (`Step.ofEffects`).
-/

namespace CommandSequence

/-- The action without the engine and epoch that directives give it. -/
def Action.bare : Action → Action
  | .call kind sequence _ _ => .call kind sequence none none
  | action => action

namespace OfOutline

open Source (Terminal)

namespace Effect

/-- The effect of a directive at the beginning of a text. -/
def unplaced : Effect → Effect
  | .engine _ n => .engine .origin n
  | .epoch _ name => .epoch .origin name
  | effect => effect

theorem metadata?_unplaced (e : Effect) : e.unplaced.metadata? = e.metadata? := by
  cases e <;> rfl

theorem model?_unplaced (e : Effect) : e.unplaced.model? = e.model? := by
  cases e <;> rfl

theorem engine?_unplaced (e : Effect) :
    e.unplaced.engine?.map Prod.snd = e.engine?.map Prod.snd := by
  cases e <;> rfl

theorem epoch?_unplaced (e : Effect) : e.unplaced.epoch?.map Prod.snd = e.epoch?.map Prod.snd := by
  cases e <;> rfl

theorem call?_unplaced (e : Effect) : e.unplaced.call?.map Prod.fst = e.call?.map Prod.fst := by
  cases e <;> rfl

/-! ## The effects of several directives -/

variable {effects effects' : List Effect}

theorem filterMap_unplaced {α : Type} {pick : Effect → Option α}
    (hpick : ∀ e : Effect, pick e.unplaced = pick e)
    (h : effects.map unplaced = effects'.map unplaced) :
    effects.filterMap pick = effects'.filterMap pick := by
  have hunplaced (l : List Effect) : l.filterMap pick = (l.map unplaced).filterMap pick := by
    rw [List.filterMap_map]
    exact congrArg (fun f => l.filterMap f) (funext fun e => (hpick e).symm)
  rw [hunplaced effects, hunplaced effects', h]

theorem findSome?_map_unplaced {α : Type} {pick : Effect → Option (Source.Position × α)}
    (hpick : ∀ e : Effect, (pick e.unplaced).map Prod.snd = (pick e).map Prod.snd)
    (h : effects.map unplaced = effects'.map unplaced) :
    (effects.findSome? pick).map Prod.snd = (effects'.findSome? pick).map Prod.snd := by
  have hunplaced (l : List Effect) : (l.findSome? pick).map Prod.snd =
      (l.map unplaced).findSome? fun e => (pick e).map Prod.snd := by
    rw [List.findSome?_map]
    induction l with
    | nil => rfl
    | cons e l ih =>
      have he := hpick e
      cases hpe : pick e with
      | none => simp [hpe, he, ih]
      | some a => simp [hpe, he]
  rw [hunplaced effects, hunplaced effects', h]

/-- The engine and epoch that directives give do not depend on where they stand. -/
theorem withCalls_congr (h : effects.map unplaced = effects'.map unplaced) (a : Action) :
    withCalls effects a = withCalls effects' a := by
  cases a with
  | call kind sequence engine epoch =>
    simp only [withCalls]
    exact congrArg₂ _ (findSome?_map_unplaced engine?_unplaced h)
      (findSome?_map_unplaced epoch?_unplaced h)
  | _ => rfl

end Effect

/-- Directives for calls pass if the step is a call, and none stands there twice. -/
theorem checkCalls_eq_ok {isCall : Bool} {seen : List CallDirective}
    {calls : List (CallDirective × Source.Position)} :
    checkCalls isCall seen calls = .ok () ↔
      (calls ≠ [] → isCall = true) ∧ (calls.map Prod.fst).Nodup ∧
        ∀ d ∈ seen, d ∉ calls.map Prod.fst := by
  induction calls generalizing seen with
  | nil => simp [checkCalls]
  | cons call calls ih =>
    obtain ⟨directive, position⟩ := call
    unfold checkCalls
    cases isCall with
    | false => simp
    | true =>
      by_cases hseen : directive ∈ seen
      · have hcontains : seen.contains directive = true := List.contains_iff_mem.2 hseen
        simp only [Bool.not_true, hcontains, if_true, Bool.false_eq_true, if_false, reduceCtorEq,
          false_iff]
        exact fun h => h.2.2 directive hseen (List.mem_cons_self ..)
      · have hcontains : seen.contains directive = false := by simpa using hseen
        simp only [Bool.not_true, hcontains, Bool.false_eq_true, if_false, ih, List.map_cons,
          List.nodup_cons, List.mem_cons, not_or]
        constructor
        · rintro ⟨-, hnodup, hold⟩
          exact ⟨fun _ => trivial, ⟨hold directive (.inl rfl), hnodup⟩,
            fun d hd => ⟨fun h => hseen (h ▸ hd), hold d (.inr hd)⟩⟩
        · rintro ⟨-, ⟨hdirective, hnodup⟩, hold⟩
          exact ⟨fun _ => trivial, hnodup, fun d hd => hd.elim (fun h => h ▸ hdirective)
            fun hd => (hold d hd).2⟩

/-- Whether directives for calls pass does not depend on where they stand. -/
theorem checkCalls_congr {isCall : Bool} {effects effects' : List Effect}
    (h : effects.map Effect.unplaced = effects'.map Effect.unplaced) :
    checkCalls isCall [] (effects.filterMap Effect.call?) = .ok () ↔
      checkCalls isCall [] (effects'.filterMap Effect.call?) = .ok () := by
  have hkinds : (effects.filterMap Effect.call?).map Prod.fst =
      (effects'.filterMap Effect.call?).map Prod.fst := by
    rw [List.map_filterMap, List.map_filterMap]
    exact Effect.filterMap_unplaced Effect.call?_unplaced h
  have hfilled : effects.filterMap Effect.call? ≠ [] ↔ effects'.filterMap Effect.call? ≠ [] := by
    rw [ne_eq, ne_eq, ← List.map_eq_nil_iff (f := Prod.fst), hkinds, List.map_eq_nil_iff]
  rw [checkCalls_eq_ok, checkCalls_eq_ok, hkinds, hfilled]

/-! ## How many directives for calls there are -/

variable {effects : List Effect}

/-- The terminal that begins a directive with the effect. -/
def Effect.kind : Effect → Terminal
  | .metadata .. => .metadata
  | .model _ => .model
  | .engine .. => .engine
  | .epoch .. => .epoch

/-- The terminal that begins a directive for calls. -/
def callTerminal : CallDirective → Terminal
  | .engine => .engine
  | .epoch => .epoch

theorem count_calls (directive : CallDirective) (effects : List Effect) :
    ((effects.filterMap Effect.call?).map Prod.fst).count directive =
      (effects.map Effect.kind).count (callTerminal directive) := by
  induction effects with
  | nil => rfl
  | cons e effects ih =>
    cases e <;> cases directive <;>
      simp [Effect.call?, Effect.kind, callTerminal] at ih ⊢ <;> exact ih

theorem length_filterMap {α : Type} {pick : Effect → Option α} {k : Terminal}
    (hpick : ∀ e : Effect, (pick e).isSome = (e.kind == k)) (effects : List Effect) :
    (effects.filterMap pick).length = (effects.map Effect.kind).count k := by
  induction effects with
  | nil => rfl
  | cons e effects ih =>
    have he := hpick e
    rw [List.map_cons, List.count_cons, ← he, ← ih]
    cases hfound : pick e with
    | none => rw [List.filterMap_cons_none hfound]; rfl
    | some a => rw [List.filterMap_cons_some hfound]; rfl

/-- Accepted directives give at most one engine and one epoch. -/
theorem count_le_one {isCall : Bool}
    (h : checkCalls isCall [] (effects.filterMap Effect.call?) = .ok ()) (d : CallDirective) :
    (effects.map Effect.kind).count (callTerminal d) ≤ 1 := by
  rw [← count_calls]
  exact List.nodup_iff_count_le_one.1 (checkCalls_eq_ok.1 h).2.1 d

/-- Directives for calls are accepted for calls alone. -/
theorem isCall_of_mem {isCall : Bool} {d : CallDirective}
    (h : checkCalls isCall [] (effects.filterMap Effect.call?) = .ok ())
    (hmem : callTerminal d ∈ effects.map Effect.kind) : isCall = true := by
  refine (checkCalls_eq_ok.1 h).1 fun hnone => ?_
  have hcount := count_calls d effects
  rw [hnone] at hcount
  exact absurd (List.count_pos_iff.2 hmem) (by rw [← hcount]; exact Nat.lt_irrefl 0)

/-- Accepted directives of a kind for calls are at most one, and the first is all of them. -/
theorem toList_findSome? {α : Type} {isCall : Bool} {d : CallDirective}
    {pick : Effect → Option (Source.Position × α)}
    (hpick : ∀ e : Effect, (pick e).isSome = (e.kind == callTerminal d))
    (h : checkCalls isCall [] (effects.filterMap Effect.call?) = .ok ()) :
    ((effects.findSome? pick).map Prod.snd).toList = (effects.filterMap pick).map Prod.snd := by
  have hlength := length_filterMap hpick effects
  have hone := count_le_one h d
  rw [← List.head?_filterMap]
  rcases hfound : effects.filterMap pick with - | ⟨a, - | ⟨b, more⟩⟩
  · rfl
  · rfl
  · rw [hfound, List.length_cons, List.length_cons] at hlength
    omega

/-- Directives for calls are not accepted for what is no call. -/
theorem filterMap_eq_nil {α : Type} {d : CallDirective} {pick : Effect → Option α}
    (hpick : ∀ e : Effect, (pick e).isSome = (e.kind == callTerminal d))
    (h : checkCalls false [] (effects.filterMap Effect.call?) = .ok ()) :
    effects.filterMap pick = [] := by
  have hlength := length_filterMap hpick effects
  by_cases hmem : callTerminal d ∈ effects.map Effect.kind
  · exact absurd (isCall_of_mem h hmem) Bool.false_ne_true
  · rw [List.count_eq_zero.2 hmem] at hlength
    exact List.length_eq_zero_iff.1 hlength

end OfOutline

/-! ## The effects of a step -/

open OfOutline (Effect)

/-- The effects of the directives of an action. -/
def Action.effects : Action → List Effect
  | .call _ _ engine epoch =>
    (engine.map (Effect.engine .origin)).toList ++ (epoch.map (Effect.epoch .origin)).toList
  | _ => []

/-- The effects of the directives of a step, in the order of its text. -/
def Step.effects (s : Step) : List Effect :=
  s.action.effects ++ (s.metadata.map fun (key, value) => Effect.metadata key value)
    ++ s.models.map Effect.model

theorem Step.unplaced_effects (s : Step) : s.effects.map Effect.unplaced = s.effects := by
  have haction : s.action.effects.map Effect.unplaced = s.action.effects := by
    cases s.action with
    | call kind sequence engine epoch => cases engine <;> cases epoch <;> rfl
    | _ => rfl
  simp [effects, haction, Effect.unplaced, Function.comp_def]

theorem Step.filterMap_effects {α : Type} {pick : Effect → Option α} (s : Step)
    (hmetadata : ∀ key value, pick (.metadata key value) = none)
    (hmodel : ∀ m, pick (.model m) = none) :
    s.effects.filterMap pick = s.action.effects.filterMap pick := by
  simp [effects, List.filterMap_append, List.filterMap_map, hmetadata, hmodel]

/-- Directives with the effects of a step give the step's action, metadata and models. -/
theorem Step.ofEffects {s : Step} {effects : List Effect}
    (hkeys : Dictionary.Distinct s.metadata) (h : effects.map Effect.unplaced = s.effects) :
    OfOutline.checkCalls (OfOutline.isCall s.action.bare) [] (effects.filterMap Effect.call?) =
        .ok () ∧
      OfOutline.withCalls effects s.action.bare = s.action ∧
      Dictionary.ofList (effects.filterMap Effect.metadata?) = s.metadata ∧
      effects.filterMap Effect.model? = s.models := by
  have hsame : effects.map Effect.unplaced = s.effects.map Effect.unplaced := by
    rw [h, s.unplaced_effects]
  refine ⟨?_, ?_, ?_, ?_⟩
  · rw [OfOutline.checkCalls_congr hsame, s.filterMap_effects (fun _ _ => rfl) fun _ => rfl]
    cases s.action with
    | call kind sequence engine epoch => cases engine <;> cases epoch <;> rfl
    | _ => rfl
  · rw [Effect.withCalls_congr hsame]
    have hfound {α : Type} (pick : Effect → Option α) (hmetadata : ∀ key value,
        pick (.metadata key value) = none) (hmodel : ∀ m, pick (.model m) = none) :
        s.effects.findSome? pick = s.action.effects.findSome? pick := by
      rw [← List.head?_filterMap, ← List.head?_filterMap, s.filterMap_effects hmetadata hmodel]
    cases haction : s.action with
    | call kind sequence engine epoch =>
      simp only [Action.bare, OfOutline.withCalls,
        hfound Effect.engine? (fun _ _ => rfl) fun _ => rfl,
        hfound Effect.epoch? (fun _ _ => rfl) fun _ => rfl, haction]
      cases engine <;> cases epoch <;> rfl
    | _ => rfl
  · rw [Effect.filterMap_unplaced Effect.metadata?_unplaced hsame]
    have hnone : s.action.effects.filterMap Effect.metadata? = [] := by
      cases s.action with
      | call kind sequence engine epoch => cases engine <;> cases epoch <;> rfl
      | _ => rfl
    simp [Step.effects, hnone, List.filterMap_map, Effect.metadata?, Function.comp_def,
      Dictionary.ofList_of_distinct hkeys]
  · rw [Effect.filterMap_unplaced Effect.model?_unplaced hsame]
    have hnone : s.action.effects.filterMap Effect.model? = [] := by
      cases s.action with
      | call kind sequence engine epoch => cases engine <;> cases epoch <;> rfl
      | _ => rfl
    simp [Step.effects, hnone, List.filterMap_map, Effect.model?, Function.comp_def]

end CommandSequence
