import CommandSequence.Proofs.Json.RoundTrip
import CommandSequence.Proofs.Outcome

/-!
# What a JSON reader gives

A value that was read is sound and keeps the reader's limits (`sound_of_read`), and a reader with
wider limits gives the same value (`read_relax`). So a sound value is read back from its text
exactly if it keeps the limits (`read_write_iff`).
-/

namespace CommandSequence.Json

variable {d : Demands} {text left : List Char} {v : Value} {n fuel : Nat}

/-! ## The values that are read -/

theorem fits_of_readMagnitude {sign : List Char} {x : Number}
    (h : readMagnitude d sign text = .ok (x, left)) : x.Fits d.shortNumbers := by
  simp only [readMagnitude] at h
  split at h
  · cases h
  split at h
  · cases h
  next hlong =>
  split at h
  · split at h
    · next hint =>
      cases h
      refine Number.fits_of_readInt hint fun hshort => ?_
      simpa [hshort] using hlong
    · cases h
  · cases h
    trivial

theorem fits_of_readNumber {x : Number} (h : readNumber d text = .ok (x, left)) :
    x.Fits d.shortNumbers := by
  unfold readNumber at h
  split at h
  · exact fits_of_readMagnitude h
  · exact fits_of_readMagnitude h

/-- The words stand for single values. -/
theorem sound_of_readWord? (h : readWord? text = some (v, left)) (p : Number → Prop)
    (hp : ∀ x, p (.float x)) : v.Sound p ∧ v.depth = 0 ∧ v.isEncodable = true := by
  unfold readWord? at h
  obtain ⟨⟨word, value⟩, hmem, hword⟩ := List.exists_of_findSome?_eq_some h
  obtain ⟨rest, -, heq⟩ := Option.map_eq_some_iff.1 hword
  cases heq
  simp only [List.mem_cons, Prod.mk.injEq, List.not_mem_nil, or_false] at hmem
  rcases hmem with ⟨-, rfl⟩ | ⟨-, rfl⟩ | ⟨-, rfl⟩ | ⟨-, rfl⟩ | ⟨-, rfl⟩ | ⟨-, rfl⟩
  · exact ⟨.null, rfl, rfl⟩
  · exact ⟨.boolean _, rfl, rfl⟩
  · exact ⟨.boolean _, rfl, rfl⟩
  · exact ⟨.number (hp _), rfl, rfl⟩
  · exact ⟨.number (hp _), rfl, rfl⟩
  · exact ⟨.number (hp _), rfl, rfl⟩

/-- The reader admits the string that it read. -/
theorem admits_of_readString {s : String} (h : readString d text = .ok (s, left)) :
    d.halves = true ∨ s.isEncodable = true := by
  unfold readString at h
  split at h
  · split at h
    · next hadmits =>
      cases h
      exact Bool.or_eq_true_iff.1 hadmits
    · cases h
  · cases h

/-- A value keeps the limits of a reader. -/
def Value.Fits (d : Demands) (v : Value) : Prop :=
  v.Sound (Number.Fits d.shortNumbers) ∧ v.depth ≤ d.depth ∧
    (d.halves = true ∨ v.isEncodable = true)

theorem Demands.inside_eq_ok {inner : Demands} :
    d.inside = .ok inner ↔ 0 < d.depth ∧ inner = { d with depth := d.depth - 1 } := by
  obtain ⟨controls, halves, short, depth⟩ := d
  cases depth with
  | zero => simp [inside]
  | succ depth => simp [inside, eq_comm]

theorem Value.Fits.array {items : List Value} (hdepth : 0 < d.depth)
    (h : ∀ v ∈ items, v.Fits { d with depth := d.depth - 1 }) : (Value.array items).Fits d :=
  ⟨.array fun v hv => (h v hv).1, depth_array_le.2 (.inr ⟨hdepth, fun v hv => (h v hv).2.1⟩),
    or_iff_not_imp_left.2 fun hhalves => isEncodable_array.2 fun v hv =>
      (h v hv).2.2.resolve_left hhalves⟩

theorem Value.Fits.object {members : List (String × Value)}
    (hkeys : Dictionary.Distinct members) (hdepth : 0 < d.depth)
    (hstrings : ∀ m ∈ members, d.halves = true ∨ m.1.isEncodable = true)
    (h : ∀ m ∈ members, m.2.Fits { d with depth := d.depth - 1 }) :
    (Value.object members).Fits d :=
  ⟨.object hkeys fun m hm => (h m hm).1,
    depth_object_le.2 (.inr ⟨hdepth, fun m hm => (h m hm).2.1⟩),
    or_iff_not_imp_left.2 fun hhalves => isEncodable_object.2 fun m hm =>
      ⟨(hstrings m hm).resolve_left hhalves, (h m hm).2.2.resolve_left hhalves⟩⟩

/-- Whatever value is read with this fuel keeps the limits. -/
def ValuesFit (fuel : Nat) : Prop :=
  ∀ d text v left, readValue fuel d text = .ok (v, left) → v.Fits d

/-- Whatever items are read with this fuel keep the limits. -/
def ItemsFit (fuel : Nat) : Prop :=
  ∀ d text items left, readItems fuel d text = .ok (items, left) → ∀ v ∈ items, v.Fits d

/-- The keys and values of whatever members are read with this fuel keep the limits. -/
def MembersFit (fuel : Nat) : Prop :=
  ∀ d text members left, readMembers fuel d text = .ok (members, left) → ∀ m ∈ members,
    (d.halves = true ∨ m.1.isEncodable = true) ∧ m.2.Fits d

theorem valuesFit_succ (hitems : ItemsFit fuel) (hmembers : MembersFit fuel) :
    ValuesFit (fuel + 1) := by
  intro d text v left h
  rw [readValue] at h
  split at h
  · -- a string
    obtain ⟨⟨s, rest⟩, hread, heq⟩ := map_eq_ok.1 h
    cases heq
    exact ⟨.string s, Nat.zero_le _, admits_of_readString hread⟩
  · -- an array
    split at h
    · cases h
      exact ⟨.array (List.forall_mem_nil _), Nat.zero_le _, .inr rfl⟩
    · obtain ⟨inner, hinner, h⟩ := bind_eq_ok.1 h
      obtain ⟨⟨items, rest⟩, hread, heq⟩ := bind_eq_ok.1 h
      cases heq
      obtain ⟨hdepth, rfl⟩ := Demands.inside_eq_ok.1 hinner
      exact .array hdepth (hitems _ _ _ _ hread)
  · -- an object
    split at h
    · cases h
      exact ⟨.object Dictionary.distinct_nil (List.forall_mem_nil _), Nat.zero_le _, .inr rfl⟩
    · obtain ⟨inner, hinner, h⟩ := bind_eq_ok.1 h
      obtain ⟨⟨members, rest⟩, hread, heq⟩ := bind_eq_ok.1 h
      cases heq
      obtain ⟨hdepth, rfl⟩ := Demands.inside_eq_ok.1 hinner
      have hfits := hmembers _ _ _ _ hread
      exact .object (Dictionary.distinct_ofList _) hdepth
        (fun m hm => (hfits m (Dictionary.mem_ofList hm)).1)
        fun m hm => (hfits m (Dictionary.mem_ofList hm)).2
  · -- a word or a number
    split at h
    · next hword =>
      cases h
      obtain ⟨hsound, hdepth, hencodable⟩ := sound_of_readWord? hword
        (Number.Fits d.shortNumbers) fun _ => trivial
      exact ⟨hsound, by omega, .inr hencodable⟩
    · obtain ⟨⟨x, rest⟩, hnumber, heq⟩ := map_eq_ok.1 h
      cases heq
      exact ⟨.number (fits_of_readNumber hnumber), Nat.zero_le _, .inr rfl⟩

theorem itemsFit_succ (hvalues : ValuesFit fuel) (hitems : ItemsFit fuel) :
    ItemsFit (fuel + 1) := by
  intro d text items left h
  rw [readItems] at h
  obtain ⟨⟨item, rest⟩, hitem, h⟩ := bind_eq_ok.1 h
  dsimp only at h
  have hfits := hvalues _ _ _ _ hitem
  split at h
  · cases h
    exact fun v hv => List.mem_singleton.1 hv ▸ hfits
  · obtain ⟨⟨more, rest⟩, hmore, heq⟩ := bind_eq_ok.1 h
    cases heq
    exact List.forall_mem_cons.2 ⟨hfits, hitems _ _ _ _ hmore⟩
  · cases h

theorem membersFit_succ (hvalues : ValuesFit fuel) (hmembers : MembersFit fuel) :
    MembersFit (fuel + 1) := by
  intro d text members left h
  rw [readMembers] at h
  split at h
  · obtain ⟨⟨key, rest⟩, hkey, h⟩ := bind_eq_ok.1 h
    dsimp only at h
    split at h
    · obtain ⟨⟨value, rest⟩, hvalue, h⟩ := bind_eq_ok.1 h
      dsimp only at h
      have hfits := And.intro (admits_of_readString hkey) (hvalues _ _ _ _ hvalue)
      split at h
      · cases h
        exact fun m hm => List.mem_singleton.1 hm ▸ hfits
      · obtain ⟨⟨more, rest⟩, hmore, heq⟩ := bind_eq_ok.1 h
        cases heq
        exact List.forall_mem_cons.2 ⟨hfits, hmembers _ _ _ _ hmore⟩
      · cases h
    · cases h
  · cases h

/-- What the three readers give with some fuel keeps the limits. -/
theorem fits_of_readValue (fuel : Nat) : ValuesFit fuel ∧ ItemsFit fuel ∧ MembersFit fuel := by
  induction fuel with
  | zero =>
    refine ⟨fun _ _ _ _ h => ?_, fun _ _ _ _ h => ?_, fun _ _ _ _ h => ?_⟩
    all_goals cases h
  | succ fuel ih =>
    obtain ⟨hvalues, hitems, hmembers⟩ := ih
    exact ⟨valuesFit_succ hitems hmembers, itemsFit_succ hvalues hitems,
      membersFit_succ hvalues hmembers⟩

/-- A value that was read keeps the reader's limits. -/
theorem fits_of_read (h : read d text = .ok v) : v.Fits d := by
  simp only [read] at h
  obtain ⟨⟨value, left⟩, hvalue, h⟩ := bind_eq_ok.1 h
  dsimp only at h
  split at h
  · cases h
    exact (fits_of_readValue _).1 _ _ _ _ hvalue
  · cases h

/-! ## Wider limits -/

/-- The demands with any string and integer admitted that can be read at all, and another depth. -/
def Demands.relaxed (d : Demands) (depth : Nat) : Demands :=
  { d with halves := true, shortNumbers := false, depth }

theorem readString_relax {s : String} (h : readString d text = .ok (s, left)) :
    readString (d.relaxed n) text = .ok (s, left) := by
  unfold readString at h ⊢
  simp only [Demands.relaxed]
  split at h
  · split at h
    · exact h
    · cases h
  · cases h

theorem readNumber_relax {x : Number} (h : readNumber d text = .ok (x, left)) :
    readNumber (d.relaxed n) text = .ok (x, left) := by
  have hmagnitude (sign text : List Char) (h : readMagnitude d sign text = .ok (x, left)) :
      readMagnitude (d.relaxed n) sign text = .ok (x, left) := by
    simp only [readMagnitude, Demands.relaxed, Bool.false_and, Bool.false_eq_true, if_false] at h ⊢
    split at h
    · cases h
    next hempty =>
    rw [if_neg hempty]
    split at h
    · cases h
    · exact h
  unfold readNumber at h ⊢
  split at h
  · exact hmagnitude _ _ h
  · exact hmagnitude _ _ h

theorem inside_relax {inner : Demands} (h : d.inside = .ok inner) (hn : d.depth ≤ n) :
    (d.relaxed n).inside = .ok (inner.relaxed (n - 1)) ∧ inner.depth ≤ n - 1 := by
  obtain ⟨hdepth, rfl⟩ := Demands.inside_eq_ok.1 h
  refine ⟨Demands.inside_eq_ok.2 ⟨?_, rfl⟩, ?_⟩
  · show 0 < n
    omega
  · show d.depth - 1 ≤ n - 1
    omega

/-- With wider limits the reader gives what it gave. -/
def Relaxes {α : Type} (read : Demands → List Char → Except ReadError α) : Prop :=
  ∀ d n text found, d.depth ≤ n → read d text = .ok found → read (d.relaxed n) text = .ok found

theorem readValue_relaxes (hitems : Relaxes (readItems fuel))
    (hmembers : Relaxes (readMembers fuel)) : Relaxes (readValue (fuel + 1)) := by
  intro d n text found hn h
  rw [readValue] at h ⊢
  split at h
  · obtain ⟨s, hstring, heq⟩ := map_eq_ok.1 h
    exact map_eq_ok.2 ⟨_, readString_relax hstring, heq⟩
  · split at h
    · exact h
    · obtain ⟨inner, hinner, h⟩ := bind_eq_ok.1 h
      obtain ⟨items, hread, heq⟩ := bind_eq_ok.1 h
      obtain ⟨hwide, hdepth⟩ := inside_relax hinner hn
      exact bind_eq_ok.2 ⟨_, hwide, bind_eq_ok.2 ⟨_, hitems _ _ _ _ hdepth hread, heq⟩⟩
  · split at h
    · exact h
    · obtain ⟨inner, hinner, h⟩ := bind_eq_ok.1 h
      obtain ⟨members, hread, heq⟩ := bind_eq_ok.1 h
      obtain ⟨hwide, hdepth⟩ := inside_relax hinner hn
      exact bind_eq_ok.2 ⟨_, hwide, bind_eq_ok.2 ⟨_, hmembers _ _ _ _ hdepth hread, heq⟩⟩
  · split at h
    · exact h
    · obtain ⟨x, hnumber, heq⟩ := map_eq_ok.1 h
      exact map_eq_ok.2 ⟨_, readNumber_relax hnumber, heq⟩

theorem readItems_relaxes (hvalue : Relaxes (readValue fuel)) (hitems : Relaxes (readItems fuel)) :
    Relaxes (readItems (fuel + 1)) := by
  intro d n text found hn h
  rw [readItems] at h ⊢
  obtain ⟨item, hitem, h⟩ := bind_eq_ok.1 h
  refine bind_eq_ok.2 ⟨_, hvalue _ _ _ _ hn hitem, ?_⟩
  dsimp only at h ⊢
  split at h
  · exact h
  · obtain ⟨more, hmore, heq⟩ := bind_eq_ok.1 h
    exact bind_eq_ok.2 ⟨_, hitems _ _ _ _ hn hmore, heq⟩
  · cases h

theorem readMembers_relaxes (hvalue : Relaxes (readValue fuel))
    (hmembers : Relaxes (readMembers fuel)) : Relaxes (readMembers (fuel + 1)) := by
  intro d n text found hn h
  rw [readMembers] at h ⊢
  split at h
  · obtain ⟨key, hkey, h⟩ := bind_eq_ok.1 h
    refine bind_eq_ok.2 ⟨_, readString_relax hkey, ?_⟩
    dsimp only at h ⊢
    split at h
    · obtain ⟨value, hread, h⟩ := bind_eq_ok.1 h
      refine bind_eq_ok.2 ⟨_, hvalue _ _ _ _ hn hread, ?_⟩
      split at h
      · exact h
      · obtain ⟨more, hmore, heq⟩ := bind_eq_ok.1 h
        exact bind_eq_ok.2 ⟨_, hmembers _ _ _ _ hn hmore, heq⟩
      · cases h
    · cases h
  · cases h

/-- With wider limits the three readers give what they gave. -/
theorem readers_relax (fuel : Nat) : Relaxes (readValue fuel) ∧ Relaxes (readItems fuel) ∧
    Relaxes (readMembers fuel) := by
  induction fuel with
  | zero =>
    refine ⟨fun _ _ _ _ _ h => ?_, fun _ _ _ _ _ h => ?_, fun _ _ _ _ _ h => ?_⟩
    all_goals cases h
  | succ fuel ih =>
    obtain ⟨hvalue, hitems, hmembers⟩ := ih
    exact ⟨readValue_relaxes hitems hmembers, readItems_relaxes hvalue hitems,
      readMembers_relaxes hvalue hmembers⟩

/-- A reader with wider limits gives the same value. -/
theorem read_relax (hn : d.depth ≤ n) (h : read d text = .ok v) :
    read (d.relaxed n) text = .ok v := by
  simp only [read] at h ⊢
  obtain ⟨found, hvalue, h⟩ := bind_eq_ok.1 h
  exact bind_eq_ok.2 ⟨_, (readers_relax _).1 _ _ _ _ hn hvalue, h⟩

/-- A sound value is read back from its text exactly if it keeps the reader's limits; where it does
not, nothing is read at all. -/
theorem read_write_iff {indent : Indent} {w : Value} (h : v.Sound (Number.Fits false)) :
    read d (v.write indent) = .ok w ↔ v.Fits d ∧ w = v := by
  constructor
  · intro hread
    have hwide := read_relax (Nat.le_max_left d.depth v.depth) hread
    have hback : read (d.relaxed (max d.depth v.depth)) (v.write indent) = .ok v :=
      read_write h (Nat.le_max_right d.depth v.depth) (.inl rfl)
    have heq : w = v := Except.ok.inj (hwide.symm.trans hback)
    exact ⟨heq ▸ fits_of_read hread, heq⟩
  · rintro ⟨⟨hsound, hdepth, hstrings⟩, rfl⟩
    exact read_write hsound hdepth hstrings

end CommandSequence.Json
