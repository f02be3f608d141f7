import CommandSequence.Json.Shape
import CommandSequence.Proofs.Json.Reading
import Mathlib.Data.List.Forall2

/-!
# Taking shapes apart

What a shape demands of a value that it passes, combinator by combinator (`record_eq_pass`,
`variants_eq_pass`, `required_eq_pass` and so on). The same equations, read from right to left, say
when a shape passes a value.
-/

namespace CommandSequence.Json

namespace Checked

variable {α β : Type}

theorem pass_inj {a b : α} : (pass a : Checked α) = pass b ↔ a = b :=
  ⟨fun h => Except.ok.inj h, fun h => h ▸ rfl⟩

theorem fail_ne_pass {cause : IssueCause} {a : α} : (fail cause : Checked α) ≠ pass a :=
  nofun

theorem seq_eq_pass {f : Checked (α → β)} {a : Checked α} {b : β} :
    f <*> a = pass b ↔ ∃ g x, f = pass g ∧ a = pass x ∧ g x = b := by
  show apply f a = pass b ↔ _
  constructor
  · intro h
    unfold apply at h
    split at h
    · next g x => exact ⟨g, x, rfl, rfl, pass_inj.1 h⟩
    · cases h
    · cases h
    · cases h
  · rintro ⟨g, x, rfl, rfl, rfl⟩
    rfl

theorem map_eq_pass {f : α → β} {a : Checked α} {b : β} :
    f <$> a = pass b ↔ ∃ x, a = pass x ∧ f x = b := by
  show apply (pass f) a = pass b ↔ _
  constructor
  · intro h
    unfold apply at h
    split at h
    · next heq => cases heq; exact ⟨_, rfl, pass_inj.1 h⟩
    · cases h
    · cases h
    · cases h
  · rintro ⟨x, rfl, rfl⟩
    rfl

theorem under_eq_pass {step : PathStep} {c : Checked α} {a : α} :
    c.under step = pass a ↔ c = pass a := by
  unfold under
  split
  · rfl
  · simp [pass]

theorem refine_eq_pass {c : Checked α} {test : α → Checked β} {b : β} :
    c.refine test = pass b ↔ ∃ a, c = pass a ∧ test a = pass b := by
  unfold refine
  split
  · next a =>
    constructor
    · exact fun h => ⟨a, rfl, h⟩
    · rintro ⟨x, hx, h⟩
      cases hx
      exact h
  · constructor
    · nofun
    · rintro ⟨x, hx, -⟩
      cases hx

end Checked

namespace Shape

open Checked

variable {α : Type} {shape : Shape α} {v : Value} {members : Members} {name : String}

/-! ## Single values -/

theorem string_eq_pass {s : String} : string v = pass s ↔ v = .string s := by
  cases v <;> simp [string, pass_inj, fail_ne_pass]

theorem nonEmptyString_eq_pass {s : String} :
    nonEmptyString v = pass s ↔ v = .string s ∧ s ≠ "" := by
  simp only [nonEmptyString, refine_eq_pass, string_eq_pass]
  constructor
  · rintro ⟨t, rfl, h⟩
    split at h
    · exact absurd h fail_ne_pass
    · next hne => cases pass_inj.1 h; exact ⟨rfl, by simpa using hne⟩
  · rintro ⟨rfl, hne⟩
    exact ⟨s, rfl, by simp [hne]⟩

theorem matching_eq_pass {pattern : String} {accepts : List Char → Bool} {s : String} :
    matching pattern accepts v = pass s ↔ v = .string s ∧ accepts s.toList = true := by
  simp only [matching, refine_eq_pass, string_eq_pass]
  constructor
  · rintro ⟨t, rfl, h⟩
    split at h
    · next haccepts => cases pass_inj.1 h; exact ⟨rfl, haccepts⟩
    · exact absurd h fail_ne_pass
  · rintro ⟨rfl, haccepts⟩
    exact ⟨s, rfl, if_pos haccepts⟩

theorem choice_eq_pass {words : List String} {ofWord? : String → Option α} {a : α} :
    choice words ofWord? v = pass a ↔ ∃ s, v = .string s ∧ ofWord? s = some a := by
  cases v with
  | string s =>
    simp only [choice, Value.string.injEq, exists_eq_left']
    split
    · next heq => simp [heq, pass_inj]
    · next heq => simp [heq, fail_ne_pass]
  | _ => simp [choice, fail_ne_pass]

theorem boolean_eq_pass {b : Bool} : boolean v = pass b ↔ v = .boolean b := by
  cases v <;> simp [boolean, pass_inj, fail_ne_pass]

theorem number_eq_pass {n : Number} : number v = pass n ↔ v = .number n := by
  have herror (h : (Except.error numberIssues : Checked Number) = pass n) : v = .number n :=
    nomatch h
  cases v with
  | number m => exact ⟨fun h => congrArg _ (pass_inj.1 h), fun h => congrArg _ (Value.number.inj h)⟩
  | null | boolean | string | array | object => exact ⟨herror, nofun⟩

theorem nullable_eq_pass {o : Option α} :
    nullable shape v = pass o ↔ (v = .null ∧ o = none) ∨
      (v ≠ .null ∧ ∃ a, shape v = pass a ∧ o = some a) := by
  cases v with
  | null => simp [nullable, pass_inj, eq_comm]
  | _ => simp only [nullable, map_eq_pass, reduceCtorEq, false_and, false_or, ne_eq,
      not_false_eq_true, true_and, eq_comm (a := o)]

/-! ## Arrays -/

/-- Every item that is collected comes from a value. -/
theorem mem_collect {index : Nat} {values : List Value} {a : α}
    (h : a ∈ (collect shape index values).1) : ∃ v ∈ values, shape v = pass a := by
  induction values generalizing index with
  | nil => cases h
  | cons v values ih =>
    have hrest (hmem : a ∈ (collect shape (index + 1) values).1) :
        ∃ w ∈ v :: values, shape w = pass a := by
      obtain ⟨w, hw, hshape⟩ := ih hmem
      exact ⟨w, List.mem_cons_of_mem v hw, hshape⟩
    simp only [collect] at h
    split at h
    · next b hb =>
      rcases List.mem_cons.1 h with rfl | hmem
      · exact ⟨v, List.mem_cons_self .., under_eq_pass.1 hb⟩
      · exact hrest hmem
    · exact hrest h

/-- Values that all have the shape are collected without issues. -/
theorem collect_map {β : Type} {index : Nat} {items : List β} {write : β → Value} {read : β → α}
    (h : ∀ b ∈ items, shape (write b) = pass (read b)) :
    collect shape index (items.map write) = (items.map read, []) := by
  induction items generalizing index with
  | nil => rfl
  | cons b items ih =>
    have hfirst : (shape (write b)).under (.index index) = pass (read b) :=
      under_eq_pass.2 (h b (List.mem_cons_self ..))
    have hrest : collect shape (index + 1) (items.map write) = (items.map read, []) :=
      ih fun x hx => h x (List.mem_cons_of_mem b hx)
    simp only [List.map_cons, collect, hrest, hfirst]
    rfl

theorem mem_of_array {items : List α} (h : array shape v = pass items) :
    ∃ values, v = .array values ∧ ∀ a ∈ items, ∃ w ∈ values, shape w = pass a := by
  unfold array at h
  split at h
  · next values =>
    have hmem : ∀ a ∈ (collect shape 0 values).1, ∃ w ∈ values, shape w = pass a :=
      fun _ => mem_collect
    generalize collect shape 0 values = found at h hmem
    obtain ⟨list, issues⟩ := found
    cases issues with
    | nil => cases pass_inj.1 h; exact ⟨values, rfl, hmem⟩
    | cons => cases h
  · cases h

/-- An array of at least one item is an array. -/
theorem array_of_filledArray {items : List α} (h : filledArray shape v = pass items) :
    items ≠ [] ∧ array shape v = pass items := by
  unfold filledArray at h
  split at h
  · next values =>
    unfold array
    dsimp only
    generalize collect shape 0 values = found at h ⊢
    obtain ⟨list, issues⟩ := found
    cases list with
    | nil => cases h
    | cons b more =>
      cases issues with
      | nil => cases pass_inj.1 h; exact ⟨List.cons_ne_nil b more, rfl⟩
      | cons => cases h
  · cases h

theorem mem_of_filledArray {items : List α} (h : filledArray shape v = pass items) :
    items ≠ [] ∧ ∃ values, v = .array values ∧ ∀ a ∈ items, ∃ w ∈ values, shape w = pass a :=
  (array_of_filledArray h).imp_right mem_of_array

theorem array_map {β : Type} {items : List β} {write : β → Value} {read : β → α}
    (h : ∀ b ∈ items, shape (write b) = pass (read b)) :
    array shape (.array (items.map write)) = pass (items.map read) := by
  simp only [array, collect_map h]

theorem filledArray_map {β : Type} {items : List β} {write : β → Value} {read : β → α}
    (hne : items ≠ []) (h : ∀ b ∈ items, shape (write b) = pass (read b)) :
    filledArray shape (.array (items.map write)) = pass (items.map read) := by
  obtain ⟨b, more, rfl⟩ := List.exists_cons_of_ne_nil hne
  have hcollect : collect shape 0 ((b :: more).map write) = ((b :: more).map read, []) :=
    collect_map h
  simp only [List.map_cons] at hcollect ⊢
  simp only [filledArray, hcollect]

/-! ## Fields -/

theorem required_eq_pass {a : α} :
    required members name shape = pass a ↔ ∃ v, members.lookup name = some v ∧
    shape v = pass a := by
  unfold required
  cases members.lookup name with
  | none => simp [Checked.pass]
  | some v => simp [under_eq_pass]

theorem withDefault_eq_pass {default a : α} :
    withDefault members name default shape = pass a ↔
      (members.lookup name = none ∧ a = default) ∨
        ∃ v, members.lookup name = some v ∧ shape v = pass a := by
  unfold withDefault
  cases members.lookup name with
  | none => simp [pass_inj, eq_comm]
  | some v => simp [under_eq_pass]

theorem optional_eq_some {a : α} :
    optional members name shape = pass (some a) ↔
      ∃ v, members.lookup name = some v ∧ v ≠ .null ∧ shape v = pass a := by
  simp only [optional, withDefault_eq_pass, nullable_eq_pass]
  simp

/-- A field that is left out where there is no value, and written where there is one. -/
theorem optional_map {β : Type} {o : Option β} {write : β → Value} {read : β → α}
    (hlookup : members.lookup name = o.map write)
    (h : ∀ b, o = some b → write b ≠ .null ∧ shape (write b) = pass (read b)) :
    optional members name shape = pass (o.map read) := by
  cases o with
  | none =>
    unfold optional withDefault
    rw [hlookup]
    rfl
  | some b =>
    obtain ⟨hnull, hshape⟩ := h b rfl
    exact optional_eq_some.2 ⟨write b, hlookup, hnull, hshape⟩

theorem mem_of_group {items : List α} (h : group members name shape = pass items) :
    items = [] ∨ ∃ values, members.lookup name = some (.array values) ∧
      ∀ a ∈ items, ∃ w ∈ values, shape w = pass a := by
  obtain ⟨found, hfound, h⟩ := refine_eq_pass.1 h
  cases pass_inj.1 h
  cases found with
  | none => exact .inl rfl
  | some list =>
    obtain ⟨v, hlookup, -, hshape⟩ := optional_eq_some.1 hfound
    obtain ⟨-, values, rfl, hmem⟩ := mem_of_filledArray hshape
    exact .inr ⟨values, hlookup, hmem⟩

/-- A group that is left out where it has no members, and written where it has some. -/
theorem group_map {β : Type} {items : List β} {write : β → Value} {read : β → α}
    (hlookup : members.lookup name =
      if items.isEmpty then none else some (.array (items.map write)))
    (h : ∀ b ∈ items, shape (write b) = pass (read b)) :
    group members name shape = pass (items.map read) := by
  cases items with
  | nil =>
    unfold group optional withDefault
    rw [hlookup]
    rfl
  | cons b more =>
    have hfound : optional members name (filledArray shape) =
        pass (some ((b :: more).map read)) :=
      optional_eq_some.2 ⟨_, hlookup, nofun, filledArray_map (List.cons_ne_nil b more) h⟩
    exact refine_eq_pass.2 ⟨_, hfound, rfl⟩

/-! ## Records and variants -/

theorem unexpected_eq_pass {known : List String} :
    unexpected known members = pass () ↔ ∀ m ∈ members, m.1 ∈ known := by
  have hfilter : (members.filter fun m => !known.contains m.1) = [] ↔
      ∀ m ∈ members, m.1 ∈ known := by
    simp [List.filter_eq_nil_iff]
  unfold unexpected
  rw [← hfilter]
  generalize (members.filter fun m => !known.contains m.1) = extra
  cases extra with
  | nil => simp
  | cons => exact iff_of_false (by rintro ⟨⟩) (by rintro ⟨⟩)

theorem record_eq_pass {known : List String} {read : Members → Checked α} {a : α} :
    record known read v = pass a ↔
      ∃ members, v = .object members ∧ read members = pass a ∧ ∀ m ∈ members, m.1 ∈ known := by
  unfold record
  split
  · next members =>
    simp only [seq_eq_pass, map_eq_pass, unexpected_eq_pass.symm, Value.object.injEq,
      exists_eq_left']
    constructor
    · rintro ⟨g, u, ⟨b, hb, rfl⟩, hu, rfl⟩
      exact ⟨hb, hu⟩
    · rintro ⟨hb, hu⟩
      exact ⟨_, (), ⟨a, hb, rfl⟩, hu, rfl⟩
  · next hne =>
    constructor
    · intro h
      cases h
    · rintro ⟨members, rfl, -⟩
      exact absurd rfl (hne members)

theorem variants_eq_pass {list : List (String × Shape α)} {a : α} :
    variants list v = pass a ↔ ∃ members name shape, v = .object members ∧
      members.lookup tagName = some (.string name) ∧ list.lookup name = some shape ∧
      shape (.object members) = pass a := by
  unfold variants
  split
  · next members =>
    cases htag : members.lookup tagName with
    | none => simp [fail_ne_pass, htag]
    | some tag =>
      cases tag with
      | string name =>
        cases hshape : list.lookup name with
        | none => simp [fail_ne_pass, htag, hshape]
        | some shape => simp [under_eq_pass, htag, hshape]
      | _ => simp [fail_ne_pass, htag]
  · next hne =>
    constructor
    · intro h
      cases h
    · rintro ⟨members, -, -, rfl, -⟩
      exact absurd rfl (hne members)

end Shape

end CommandSequence.Json
