import CommandSequence.Json.Value
import CommandSequence.Proofs.Dictionary

/-!
# Sound values

A value is sound if its numbers satisfy a given condition and no object in it has a key twice. What
the readers give is sound, and soundness is the induction along which written values are read back.
The *depth* of a value counts the arrays and objects inside one another, those with nothing in them
apart. A value is *encodable* if no string in it holds half of a surrogate pair.
-/

namespace CommandSequence.Json.Value

open Dictionary (Distinct)

variable {p q : Number → Prop} {v : Value}

/-- Every number in the value satisfies `p`, and the keys of every object in it are distinct. -/
inductive Sound (p : Number → Prop) : Value → Prop
  | null : Sound p .null
  | boolean (b : Bool) : Sound p (.boolean b)
  | number {n : Number} (h : p n) : Sound p (.number n)
  | string (s : String) : Sound p (.string s)
  | array {items : List Value} (h : ∀ v ∈ items, Sound p v) : Sound p (.array items)
  | object {members : List (String × Value)} (hkeys : Distinct members)
      (h : ∀ m ∈ members, Sound p m.2) : Sound p (.object members)

theorem Sound.mono (h : v.Sound p) (hpq : ∀ n, p n → q n) : v.Sound q := by
  induction h with
  | null => exact .null
  | boolean b => exact .boolean b
  | number h => exact .number (hpq _ h)
  | string s => exact .string s
  | array _ ih => exact .array ih
  | object hkeys _ ih => exact .object hkeys ih

/-! ## Depth -/

mutual

/-- The count of arrays and objects inside one another, those with nothing in them apart. -/
def depth : Value → Nat
  | .array items => if items.isEmpty then 0 else depthOfItems items + 1
  | .object members => if members.isEmpty then 0 else depthOfMembers members + 1
  | _ => 0

@[inherit_doc depth]
def depthOfItems : List Value → Nat
  | [] => 0
  | item :: rest => max item.depth (depthOfItems rest)

@[inherit_doc depth]
def depthOfMembers : List (String × Value) → Nat
  | [] => 0
  | (_, value) :: rest => max value.depth (depthOfMembers rest)

end

theorem depthOfItems_le {items : List Value} {n : Nat} :
    depthOfItems items ≤ n ↔ ∀ v ∈ items, v.depth ≤ n := by
  induction items with
  | nil => simp [depthOfItems]
  | cons item items ih => rw [depthOfItems, Nat.max_le, ih, List.forall_mem_cons]

theorem depthOfMembers_le {members : List (String × Value)} {n : Nat} :
    depthOfMembers members ≤ n ↔ ∀ m ∈ members, m.2.depth ≤ n := by
  induction members with
  | nil => simp [depthOfMembers]
  | cons member members ih => rw [depthOfMembers, Nat.max_le, ih, List.forall_mem_cons]

theorem depth_array_le {items : List Value} {n : Nat} :
    (Value.array items).depth ≤ n ↔ items = [] ∨ (0 < n ∧ ∀ v ∈ items, v.depth ≤ n - 1) := by
  cases items with
  | nil => simp [depth]
  | cons item items =>
    rw [← depthOfItems_le]
    simp only [depth, List.isEmpty_cons, Bool.false_eq_true, if_false, reduceCtorEq, false_or]
    omega

theorem depth_object_le {members : List (String × Value)} {n : Nat} :
    (Value.object members).depth ≤ n ↔
      members = [] ∨ (0 < n ∧ ∀ m ∈ members, m.2.depth ≤ n - 1) := by
  cases members with
  | nil => simp [depth]
  | cons member members =>
    rw [← depthOfMembers_le]
    simp only [depth, List.isEmpty_cons, Bool.false_eq_true, if_false, reduceCtorEq, false_or]
    omega

/-! ## Strings that UTF-8 has bytes for -/

mutual

/-- Whether UTF-8 has bytes for every string in the value, keys included. -/
def isEncodable : Value → Bool
  | .string s => s.isEncodable
  | .array items => itemsEncodable items
  | .object members => membersEncodable members
  | _ => true

@[inherit_doc isEncodable]
def itemsEncodable : List Value → Bool
  | [] => true
  | item :: rest => item.isEncodable && itemsEncodable rest

@[inherit_doc isEncodable]
def membersEncodable : List (String × Value) → Bool
  | [] => true
  | (key, value) :: rest => (key.isEncodable && value.isEncodable) && membersEncodable rest

end

theorem isEncodable_array {items : List Value} :
    (Value.array items).isEncodable = true ↔ ∀ v ∈ items, v.isEncodable = true := by
  rw [isEncodable]
  induction items with
  | nil => simp [itemsEncodable]
  | cons item items ih => rw [itemsEncodable, Bool.and_eq_true, ih, List.forall_mem_cons]

theorem isEncodable_object {members : List (String × Value)} :
    (Value.object members).isEncodable = true ↔
      ∀ m ∈ members, m.1.isEncodable = true ∧ m.2.isEncodable = true := by
  rw [isEncodable]
  induction members with
  | nil => simp [membersEncodable]
  | cons member members ih =>
    rw [membersEncodable, Bool.and_eq_true, Bool.and_eq_true, ih, List.forall_mem_cons]

/-! ## Numbers that are not finite -/

theorem nonFiniteItems_eq (items : List Value) :
    nonFiniteItems items = items.flatMap nonFinite := by
  induction items with
  | nil => rfl
  | cons item items ih => rw [nonFiniteItems, ih, List.flatMap_cons]

theorem nonFiniteMembers_eq (members : List (String × Value)) :
    nonFiniteMembers members = members.flatMap fun m => m.2.nonFinite := by
  induction members with
  | nil => rfl
  | cons member members ih => rw [nonFiniteMembers, ih, List.flatMap_cons]

theorem nullNonFiniteItems_eq (items : List Value) :
    nullNonFiniteItems items = items.map nullNonFinite := by
  induction items with
  | nil => rfl
  | cons item items ih => rw [nullNonFiniteItems, ih, List.map_cons]

theorem nullNonFiniteMembers_eq (members : List (String × Value)) :
    nullNonFiniteMembers members = members.map fun m => (m.1, m.2.nullNonFinite) := by
  induction members with
  | nil => rfl
  | cons member members ih => rw [nullNonFiniteMembers, ih, List.map_cons]

/-! ## Numbers that cannot be written -/

theorem unwritableItems_eq (items : List Value) :
    unwritableItems items = items.flatMap unwritable := by
  induction items with
  | nil => rfl
  | cons item items ih => rw [unwritableItems, ih, List.flatMap_cons]

theorem unwritableMembers_eq (members : List (String × Value)) :
    unwritableMembers members = members.flatMap fun m => m.2.unwritable := by
  induction members with
  | nil => rfl
  | cons member members ih => rw [unwritableMembers, ih, List.flatMap_cons]

/-- What cannot be written is one of the numbers of the value. -/
theorem Sound.of_mem_unwritable (h : v.Sound p) {n : Number} (hn : n ∈ v.unwritable) :
    p n ∧ n.isWritable = false := by
  induction h with
  | null => cases hn
  | boolean b => cases hn
  | string s => cases hn
  | @number number h =>
    simp only [unwritable] at hn
    split at hn
    · cases hn
    · next hnot =>
      rw [List.mem_singleton.1 hn]
      exact ⟨h, Bool.eq_false_iff.2 hnot⟩
  | array _ ih =>
    simp only [unwritable, unwritableItems_eq, List.mem_flatMap] at hn
    obtain ⟨item, hitem, hn⟩ := hn
    exact ih item hitem hn
  | object _ _ ih =>
    simp only [unwritable, unwritableMembers_eq, List.mem_flatMap] at hn
    obtain ⟨member, hmember, hn⟩ := hn
    exact ih member hmember hn

/-- A value in which every number can be written has none that cannot. -/
theorem Sound.unwritable_eq_nil (h : v.Sound fun n => n.isWritable = true) :
    v.unwritable = [] := by
  refine List.eq_nil_iff_forall_not_mem.2 fun n hn => ?_
  obtain ⟨hwritable, hnot⟩ := h.of_mem_unwritable hn
  rw [hwritable] at hnot
  cases hnot

/-- Conversely, if there is none then every number can be written. -/
theorem Sound.writable (h : v.Sound p) (hnone : v.unwritable = []) :
    v.Sound fun n => n.isWritable = true := by
  induction h with
  | null => exact .null
  | boolean b => exact .boolean b
  | string s => exact .string s
  | number _ =>
    simp only [unwritable] at hnone
    split at hnone
    · next hwritable => exact .number hwritable
    · cases hnone
  | array _ ih =>
    simp only [unwritable, unwritableItems_eq, List.flatMap_eq_nil_iff] at hnone
    exact .array fun v hv => ih v hv (hnone v hv)
  | object hkeys _ ih =>
    simp only [unwritable, unwritableMembers_eq, List.flatMap_eq_nil_iff] at hnone
    exact .object hkeys fun m hm => ih m hm (hnone m hm)

/-- Where integers can be written, what cannot is what is not finite. -/
theorem Sound.unwritable_eq (hp : ∀ n, p (.int n) → Decimal.writable n = true) (h : v.Sound p) :
    v.unwritable = v.nonFinite.map .float := by
  induction h with
  | null => rfl
  | boolean b => rfl
  | string s => rfl
  | @number n h =>
    cases n with
    | int n =>
      have hwritable : (Number.int n).isWritable = true := hp n h
      simp only [unwritable, nonFinite, hwritable, if_true, List.map_nil]
    | float x =>
      have hwritable : (Number.float x).isWritable = x.isFinite := rfl
      simp only [unwritable, nonFinite, apply_ite (List.map Number.float), hwritable, List.map_nil,
        List.map_singleton]
  | array _ ih =>
    simp only [unwritable, unwritableItems_eq, nonFinite, nonFiniteItems_eq, List.map_flatMap]
    exact List.flatMap_congr ih
  | object _ _ ih =>
    simp only [unwritable, unwritableMembers_eq, nonFinite, nonFiniteMembers_eq, List.map_flatMap]
    exact List.flatMap_congr ih

/-- Replacing the numbers that are not finite leaves a sound value with finite numbers alone, as
deep as it was. -/
theorem Sound.nullNonFinite (h : v.Sound p) :
    v.nullNonFinite.Sound (fun n => p n ∧ n.isFinite = true) ∧
      v.nullNonFinite.depth = v.depth := by
  induction h with
  | null => exact ⟨.null, rfl⟩
  | boolean b => exact ⟨.boolean b, rfl⟩
  | string s => exact ⟨.string s, rfl⟩
  | @number n h =>
    cases n with
    | int n => exact ⟨.number ⟨h, rfl⟩, rfl⟩
    | float x =>
      simp only [Value.nullNonFinite]
      split
      · next hx => exact ⟨.number ⟨h, hx⟩, rfl⟩
      · exact ⟨.null, rfl⟩
  | @array items _ ih =>
    simp only [Value.nullNonFinite, nullNonFiniteItems_eq]
    refine ⟨.array fun w hw => ?_, ?_⟩
    · obtain ⟨v, hv, rfl⟩ := List.mem_map.1 hw
      exact (ih v hv).1
    · have hdepth : depthOfItems (items.map Value.nullNonFinite) = depthOfItems items := by
        clear * - ih
        induction items with
        | nil => rfl
        | cons item items hitems =>
          rw [List.map_cons, depthOfItems, depthOfItems, (ih item (List.mem_cons_self ..)).2,
            hitems fun v hv => ih v (List.mem_cons_of_mem item hv)]
      simp only [depth, List.isEmpty_map, hdepth]
  | @object members hkeys _ ih =>
    simp only [Value.nullNonFinite, nullNonFiniteMembers_eq]
    refine ⟨.object ?_ fun w hw => ?_, ?_⟩
    · unfold Distinct at hkeys ⊢
      rwa [List.map_map]
    · obtain ⟨m, hm, rfl⟩ := List.mem_map.1 hw
      exact (ih m hm).1
    · have hdepth : depthOfMembers (members.map fun m => (m.1, m.2.nullNonFinite)) =
          depthOfMembers members := by
        clear * - ih
        induction members with
        | nil => rfl
        | cons member members hmembers =>
          rw [List.map_cons, depthOfMembers, depthOfMembers,
            (ih member (List.mem_cons_self ..)).2,
            hmembers fun m hm => ih m (List.mem_cons_of_mem member hm)]
      simp only [depth, List.isEmpty_map, hdepth]

/-- Replacing numbers changes no string. -/
theorem Sound.isEncodable_nullNonFinite (h : v.Sound p) :
    v.nullNonFinite.isEncodable = true ↔ v.isEncodable = true := by
  induction h with
  | null => exact Iff.rfl
  | boolean b => exact Iff.rfl
  | string s => exact Iff.rfl
  | @number n h =>
    cases n with
    | int n => exact Iff.rfl
    | float x =>
      simp only [Value.nullNonFinite]
      split <;> simp [isEncodable]
  | @array items _ ih =>
    simp only [Value.nullNonFinite, nullNonFiniteItems_eq, isEncodable_array, List.forall_mem_map]
    exact forall₂_congr ih
  | @object members _ _ ih =>
    simp only [Value.nullNonFinite, nullNonFiniteMembers_eq, isEncodable_object,
      List.forall_mem_map]
    exact forall₂_congr fun m hm => and_congr_right fun _ => ih m hm

/-- Finite numbers stay as they are. -/
theorem Sound.nullNonFinite_eq (h : v.Sound fun n => p n ∧ n.isFinite = true) :
    v.nullNonFinite = v := by
  induction h with
  | null => rfl
  | boolean b => rfl
  | string s => rfl
  | @number n h =>
    cases n with
    | int n => rfl
    | float x => exact if_pos h.2
  | array _ ih =>
    simp only [Value.nullNonFinite, nullNonFiniteItems_eq]
    rw [List.map_congr_left ih, List.map_id']
  | @object members _ _ ih =>
    simp only [Value.nullNonFinite, nullNonFiniteMembers_eq]
    have hsame : ∀ m ∈ members, (m.1, m.2.nullNonFinite) = m :=
      fun m hm => Prod.ext rfl (ih m hm)
    rw [List.map_congr_left hsame, List.map_id']

end CommandSequence.Json.Value
