import CommandSequence.Dictionary
import Mathlib.Data.List.Nodup

/-!
# Keys of dictionaries

Writing entries one after the other gives distinct keys (`distinct_ofList`) and no entry that was
not written (`mem_ofList`). Entries whose keys are distinct already are a dictionary as they stand
(`ofList_of_distinct`), and the entries that pass a test on their keys keep their values
(`get?_filter`). Of the values written under a key the last one counts (`get?_ofList`).
-/

namespace CommandSequence.Dictionary

variable {α : Type}

/-- No key is written twice. -/
def Distinct (entries : List (String × α)) : Prop :=
  (entries.map Prod.fst).Nodup

theorem distinct_nil : Distinct ([] : List (String × α)) :=
  List.nodup_nil

theorem distinct_filter {entries : List (String × α)} (p : String × α → Bool)
    (h : Distinct entries) : Distinct (entries.filter p) :=
  h.sublist (List.filter_sublist.map Prod.fst)

/-! ## Writing entries -/

theorem keys_put (key : String) (value : α) (d : Dictionary α) :
    (d.put key value).map Prod.fst =
      if key ∈ d.map Prod.fst then d.map Prod.fst else d.map Prod.fst ++ [key] := by
  induction d with
  | nil => rfl
  | cons entry d ih =>
    obtain ⟨k, v⟩ := entry
    by_cases hk : k = key
    · simp [put, hk]
    · simp only [put, hk, if_false, List.map_cons, ih, List.mem_cons, Ne.symm hk, false_or]
      split <;> rfl

theorem put_of_notMem {key : String} {d : Dictionary α} (value : α) (h : key ∉ d.map Prod.fst) :
    d.put key value = d ++ [(key, value)] := by
  induction d with
  | nil => rfl
  | cons entry d ih =>
    obtain ⟨k, v⟩ := entry
    simp only [List.map_cons, List.mem_cons, not_or] at h
    simp only [put, Ne.symm h.1, if_false, ih h.2, List.cons_append]

theorem mem_put {key : String} {value : α} {d : Dictionary α} {entry : String × α}
    (h : entry ∈ d.put key value) : entry ∈ d ∨ entry = (key, value) := by
  induction d with
  | nil => exact .inr (List.mem_singleton.1 h)
  | cons first d ih =>
    obtain ⟨k, v⟩ := first
    unfold put at h
    split at h
    · next hk =>
      rcases List.mem_cons.1 h with rfl | h
      · exact .inr (by rw [hk])
      · exact .inl (List.mem_cons_of_mem _ h)
    · rcases List.mem_cons.1 h with rfl | h
      · exact .inl (List.mem_cons_self ..)
      · exact (ih h).imp (List.mem_cons_of_mem _) id

theorem distinct_put {d : Dictionary α} (key : String) (value : α) (h : Distinct d) :
    Distinct (d.put key value) := by
  unfold Distinct at h ⊢
  rw [keys_put]
  split
  · exact h
  · next hkey => exact List.nodup_append.2 ⟨h, List.nodup_singleton key, by
      rintro a ha b hb rfl
      exact hkey (List.mem_singleton.1 hb ▸ ha)⟩

/-! ## Dictionaries of entries -/

/-- The keys of a dictionary are distinct. -/
theorem distinct_ofList (entries : List (String × α)) : Distinct (ofList entries) := by
  unfold ofList
  generalize hd : ([] : Dictionary α) = d
  have h : Distinct d := hd ▸ distinct_nil
  clear hd
  induction entries generalizing d with
  | nil => exact h
  | cons entry entries ih => exact ih _ (distinct_put entry.1 entry.2 h)

/-- Keys that are written again keep their place. -/
theorem keys_ofList (entries : List (String × α)) :
    (ofList entries).map Prod.fst = (entries.map Prod.fst).eraseDups := by
  have hfold (d : Dictionary α) :
      (entries.foldl (fun d entry => d.put entry.1 entry.2) d).map Prod.fst = d.map Prod.fst ++
        ((entries.map Prod.fst).filter fun key => !(d.map Prod.fst).contains key).eraseDups := by
    induction entries generalizing d with
    | nil => simp
    | cons entry entries ih =>
      obtain ⟨key, value⟩ := entry
      rw [List.foldl_cons, ih, keys_put, List.map_cons]
      by_cases hkey : key ∈ d.map Prod.fst
      · rw [if_pos hkey, List.filter_cons_of_neg (by simpa using hkey)]
      · rw [if_neg hkey, List.filter_cons_of_pos (by simpa using hkey), List.eraseDups_cons,
          List.filter_filter, List.append_assoc, List.singleton_append]
        refine congrArg (fun keys : List String => d.map Prod.fst ++ key :: keys.eraseDups) ?_
        refine List.filter_congr fun k _ => ?_
        rw [Bool.eq_iff_iff]
        simp [and_comm]
  have h := hfold []
  simpa [ofList] using h

/-- A dictionary holds only what was written. -/
theorem mem_ofList {entries : List (String × α)} {entry : String × α}
    (h : entry ∈ ofList entries) : entry ∈ entries := by
  have hmem (d : Dictionary α) : entry ∈ entries.foldl (fun d entry => d.put entry.1 entry.2) d →
      entry ∈ d ∨ entry ∈ entries := by
    clear h
    induction entries generalizing d with
    | nil => exact .inl
    | cons first entries ih =>
      intro h
      rcases ih _ h with h | h
      · rcases mem_put h with h | rfl
        · exact .inl h
        · exact .inr (List.mem_cons_self ..)
      · exact .inr (List.mem_cons_of_mem _ h)
  rcases hmem [] h with h | h
  · cases h
  · exact h

/-- Entries with distinct keys are a dictionary as they stand. -/
theorem ofList_of_distinct {entries : List (String × α)} (h : Distinct entries) :
    ofList entries = entries := by
  have hfold (d : Dictionary α) (hd : Distinct (d ++ entries)) :
      entries.foldl (fun d entry => d.put entry.1 entry.2) d = d ++ entries := by
    clear h
    induction entries generalizing d with
    | nil => rw [List.foldl_nil, List.append_nil]
    | cons entry entries ih =>
      have hkey : entry.1 ∉ d.map Prod.fst := by
        unfold Distinct at hd
        rw [List.map_append, List.map_cons, List.nodup_append] at hd
        exact fun hmem => hd.2.2 _ hmem _ (List.mem_cons_self ..) rfl
      rw [List.foldl_cons]
      change entries.foldl _ (d.put entry.1 entry.2) = _
      rw [put_of_notMem entry.2 hkey, ih _ (by rwa [List.append_assoc]), List.append_assoc]
      rfl
  exact hfold [] h

/-! ## Values of keys -/

theorem get?_cons (key k : String) (v : α) (d : Dictionary α) :
    get? key ((k, v) :: d) = if key = k then some v else get? key d := by
  unfold get?
  rw [List.lookup_cons]
  by_cases h : key = k
  · simp [h]
  · simp [h, beq_eq_false_iff_ne.2 h]

theorem get?_map {β : Type} (f : α → β) (key : String) (d : Dictionary α) :
    get? key (d.map fun entry => (entry.1, f entry.2)) = (get? key d).map f := by
  induction d with
  | nil => rfl
  | cons entry d ih =>
    obtain ⟨k, v⟩ := entry
    rw [List.map_cons, get?_cons, get?_cons, ih]
    split <;> rfl

theorem get?_append (key : String) (d e : Dictionary α) :
    get? key (d ++ e) = (get? key d).or (get? key e) := by
  induction d with
  | nil => rfl
  | cons entry d ih =>
    rw [List.cons_append, get?_cons, get?_cons, ih]
    split <;> rfl

/-- The entries that pass a test on their keys keep their values. -/
theorem get?_filter (p : String → Bool) (key : String) (d : Dictionary α) :
    get? key (d.filter fun entry => p entry.1) = if p key then get? key d else none := by
  induction d with
  | nil => simp [get?]
  | cons entry d ih =>
    obtain ⟨k, v⟩ := entry
    cases hk : p k with
    | true =>
      simp only [List.filter_cons, hk, if_true, get?_cons, ih]
      by_cases h : key = k
      · simp [h, hk]
      · simp [h]
    | false =>
      simp only [List.filter_cons, hk, Bool.false_eq_true, if_false, get?_cons, ih]
      by_cases h : key = k
      · simp [h, hk]
      · simp [h]

theorem get?_of_notMem {key : String} {d : Dictionary α} (h : key ∉ d.map Prod.fst) :
    get? key d = none := by
  induction d with
  | nil => rfl
  | cons entry d ih =>
    rw [List.map_cons, List.mem_cons, not_or] at h
    rw [get?_cons, if_neg h.1, ih h.2]

theorem mem_of_get? {key : String} {v : α} {d : Dictionary α} (h : get? key d = some v) :
    (key, v) ∈ d := by
  induction d with
  | nil => cases h
  | cons entry d ih =>
    obtain ⟨k, w⟩ := entry
    rw [get?_cons] at h
    split at h
    · next hk => cases h; rw [hk]; exact List.mem_cons_self ..
    · exact List.mem_cons_of_mem _ (ih h)

/-! ## What is written under a key -/

/-- The values that entries write under a key, in their order. -/
def written (key : String) (entries : List (String × α)) : List α :=
  entries.filterMap fun (k, v) => if k = key then some v else none

theorem get?_put (key k : String) (value : α) (d : Dictionary α) :
    get? key (d.put k value) = if key = k then some value else get? key d := by
  induction d with
  | nil => rw [put, get?_cons]
  | cons entry d ih =>
    obtain ⟨k', v'⟩ := entry
    unfold put
    by_cases hk : k' = k
    · rw [if_pos hk, get?_cons, get?_cons, hk]
      by_cases hkey : key = k
      · rw [if_pos hkey, if_pos hkey]
      · rw [if_neg hkey, if_neg hkey, if_neg hkey]
    · rw [if_neg hk, get?_cons, get?_cons, ih]
      by_cases hkey : key = k'
      · have hne : key ≠ k := fun h => hk (hkey.symm.trans h)
        rw [if_pos hkey, if_neg hne, if_pos hkey]
      · rw [if_neg hkey, if_neg hkey]

/-- The last value written under a key counts. -/
theorem get?_ofList (key : String) (entries : List (String × α)) :
    get? key (ofList entries) = (written key entries).getLast? := by
  have hfold (d : Dictionary α) :
      get? key (entries.foldl (fun d entry => d.put entry.1 entry.2) d) =
        (written key entries).getLast?.or (get? key d) := by
    induction entries generalizing d with
    | nil => rfl
    | cons entry entries ih =>
      obtain ⟨k, v⟩ := entry
      rw [List.foldl_cons, ih, get?_put]
      by_cases hkey : k = key
      · have hfirst : written key ((k, v) :: entries) = v :: written key entries := by
          simp [written, hkey]
        rw [hfirst, List.getLast?_cons, if_pos hkey.symm]
        cases (written key entries).getLast? <;> rfl
      · have hfirst : written key ((k, v) :: entries) = written key entries := by
          simp [written, hkey]
        rw [hfirst, if_neg (Ne.symm hkey)]
  rw [ofList, hfold []]
  simp [get?]

end CommandSequence.Dictionary
