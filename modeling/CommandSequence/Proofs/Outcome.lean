import Mathlib.Data.List.Forall2

/-!
# Outcomes of computations that can fail

`Succeeds r P` says that a computation gives a result and that `P` holds of it; `Yields r P` says
that `P` holds of its result if it gives one; `Follows R r r'` says that the second gives a result
related to that of the first, if the first gives one; `Ends Q r P` says that `P` holds of its result
and `Q` of its error; `Decides Q r P` says that it gives a result exactly if `P` holds, and
otherwise an error of which `Q` holds; `Filters r r' P` says that it gives those results of another
of which `P` holds. All compose along `bind`, so that a computation is followed step by step. The
other direction takes a computation that gave a result apart (`bind_eq_ok`, `mapM_eq_ok`).
-/

namespace CommandSequence

variable {ε α β : Type}

/-- A computation gives a result of which `P` holds. -/
def Succeeds (r : Except ε α) (P : α → Prop) : Prop :=
  ∃ a, r = .ok a ∧ P a

namespace Succeeds

variable {r : Except ε α} {P Q : α → Prop}

theorem ok {a : α} (h : P a) : Succeeds (.ok a : Except ε α) P :=
  ⟨a, rfl, h⟩

theorem mono (h : Succeeds r P) (hPQ : ∀ a, P a → Q a) : Succeeds r Q := by
  obtain ⟨a, ha, hP⟩ := h
  exact ⟨a, ha, hPQ a hP⟩

/-- What follows a computation may rely on what holds of its result. -/
theorem bind {f : α → Except ε β} {R : β → Prop} (h : Succeeds r P)
    (hf : ∀ a, P a → Succeeds (f a) R) : Succeeds (r >>= f) R := by
  obtain ⟨a, rfl, hP⟩ := h
  exact hf a hP

end Succeeds

/-- `P` holds of the result of a computation, if it gives one. -/
def Yields (r : Except ε α) (P : α → Prop) : Prop :=
  ∀ a, r = .ok a → P a

namespace Yields

variable {r : Except ε α} {P Q : α → Prop}

theorem ok {a : α} (h : P a) : Yields (.ok a : Except ε α) P := by
  rintro _ ⟨⟩
  exact h

theorem error {e : ε} : Yields (.error e : Except ε α) P :=
  fun _ h => nomatch h

theorem mono (h : Yields r P) (hPQ : ∀ a, P a → Q a) : Yields r Q :=
  fun a ha => hPQ a (h a ha)

/-- What follows a computation may rely on what holds of its result. -/
theorem bind {f : α → Except ε β} {R : β → Prop} (h : Yields r P)
    (hf : ∀ a, P a → Yields (f a) R) : Yields (r >>= f) R := by
  cases r with
  | error e => exact error
  | ok a => exact hf a (h a rfl)

theorem bind_any {f : α → Except ε β} {R : β → Prop} (hf : ∀ a, Yields (f a) R) :
    Yields (r >>= f) R :=
  bind (P := fun _ => True) (fun _ _ => trivial) fun a _ => hf a

end Yields

/-- If the first computation gives a result, the second gives a related one. -/
def Follows {ε' : Type} (R : α → β → Prop) (r : Except ε α) (r' : Except ε' β) : Prop :=
  Yields r fun a => Succeeds r' (R a)

namespace Follows

variable {ε' γ δ : Type} {R : α → β → Prop} {S : γ → δ → Prop}
variable {r : Except ε α} {r' : Except ε' β}

theorem ok {a : α} {b : β} (h : R a b) : Follows R (.ok a : Except ε α) (.ok b : Except ε' β) :=
  Yields.ok (.ok h)

theorem error {e : ε} : Follows R (.error e : Except ε α) r' :=
  Yields.error

theorem mono {R' : α → β → Prop} (h : Follows R r r') (hR : ∀ a b, R a b → R' a b) :
    Follows R' r r' :=
  Yields.mono h fun a hb => hb.mono (hR a)

/-- What follows the computations may rely on how their results are related. -/
theorem bind {f : α → Except ε γ} {f' : β → Except ε' δ} (h : Follows R r r')
    (hf : ∀ a b, R a b → Follows S (f a) (f' b)) : Follows S (r >>= f) (r' >>= f') :=
  Yields.bind h fun a hb => fun c hc => hb.bind fun b hR => hf a b hR c hc

end Follows

/-- `P` holds of the result of a computation, or `Q` of its error. -/
structure Ends (Q : ε → Prop) (r : Except ε α) (P : α → Prop) : Prop where
  result : Yields r P
  error : ∀ e, r = .error e → Q e

namespace Ends

variable {Q : ε → Prop} {r : Except ε α} {P R : α → Prop}

theorem ok {a : α} (h : P a) : Ends Q (.ok a) P :=
  ⟨.ok h, fun _ h => nomatch h⟩

theorem throw {e : ε} (h : Q e) : Ends Q (.error e : Except ε α) P :=
  ⟨.error, fun _ heq => Except.error.inj heq ▸ h⟩

theorem mono (h : Ends Q r P) (hPR : ∀ a, P a → R a) : Ends Q r R :=
  ⟨h.result.mono hPR, h.error⟩

/-- What follows a computation may rely on what holds of its result. -/
theorem bind {f : α → Except ε β} {S : β → Prop} (h : Ends Q r P)
    (hf : ∀ a, P a → Ends Q (f a) S) : Ends Q (r >>= f) S := by
  cases r with
  | error e => exact throw (h.error e rfl)
  | ok a => exact hf a (h.result a rfl)

end Ends

/-- A computation gives a result if `P` holds, and otherwise an error of which `Q` holds. -/
structure Decides (Q : ε → Prop) (r : Except ε α) (P : Prop) : Prop where
  result : P → ∃ a, r = .ok a
  error : ¬P → ∃ e, r = .error e ∧ Q e

namespace Decides

variable {Q : ε → Prop} {r : Except ε α} {P P' : Prop}

theorem ok (Q : ε → Prop) (a : α) : Decides Q (.ok a) True :=
  ⟨fun _ => ⟨a, rfl⟩, fun h => absurd trivial h⟩

theorem congr (h : Decides Q r P) (hP : P ↔ P') : Decides Q r P' :=
  propext hP ▸ h

/-- What follows a computation decides the rest, whatever its result. -/
theorem bind {f : α → Except ε β} (h : Decides Q r P) (hf : ∀ a, Decides Q (f a) P') :
    Decides Q (r >>= f) (P ∧ P') := by
  by_cases hP : P
  · obtain ⟨a, rfl⟩ := h.result hP
    exact (hf a).congr (and_iff_right hP).symm
  · obtain ⟨e, rfl, he⟩ := h.error hP
    exact ⟨fun hboth => absurd hboth.1 hP, fun _ => ⟨e, rfl, he⟩⟩

theorem bind_ok {f : α → β} (h : Decides Q r P) : Decides Q (r >>= fun a => .ok (f a)) P :=
  (h.bind fun a => ok Q (f a)).congr (and_iff_left trivial)

/-- A list is read item by item, up to the first error. -/
theorem mapM {f : α → Except ε β} {l : List α} {P : α → Prop}
    (h : ∀ x ∈ l, Decides Q (f x) (P x)) : Decides Q (l.mapM f) (∀ x ∈ l, P x) := by
  induction l with
  | nil => exact (ok Q []).congr (iff_of_true trivial (List.forall_mem_nil _))
  | cons x l ih =>
    obtain ⟨hx, hl⟩ := List.forall_mem_cons.1 h
    rw [List.mapM_cons]
    exact (hx.bind fun y => (ih hl).bind_ok).congr List.forall_mem_cons.symm

/-- It gives an error only if it gives no result. -/
theorem error_iff (h : Decides Q r P) : (∃ e, r = .error e ∧ Q e) ↔ ¬P := by
  refine ⟨fun ⟨e, he, _⟩ hP => ?_, h.error⟩
  obtain ⟨a, ha⟩ := h.result hP
  rw [he] at ha
  cases ha

end Decides

/-! ## Taking a computation apart -/

theorem ok_bind {a : α} {f : α → Except ε β} : (.ok a : Except ε α) >>= f = f a :=
  rfl

theorem error_bind {e : ε} {f : α → Except ε β} : (.error e : Except ε α) >>= f = .error e :=
  rfl

theorem bind_eq_ok {r : Except ε α} {f : α → Except ε β} {b : β} :
    r >>= f = .ok b ↔ ∃ a, r = .ok a ∧ f a = .ok b := by
  cases r with
  | error e => simp [Bind.bind, Except.bind]
  | ok a => simp [Bind.bind, Except.bind]

theorem ite_error_bind {c : Prop} [Decidable c] {e : ε} {r : Except ε α} {f : α → Except ε β} :
    (if c then .error e else r) >>= f = if c then .error e else r >>= f := by
  split <;> rfl

theorem map_eq_ok {r : Except ε α} {f : α → β} {b : β} :
    r.map f = .ok b ↔ ∃ a, r = .ok a ∧ f a = b := by
  cases r with
  | error e => simp [Except.map]
  | ok a => simp [Except.map]

/-- A list is read item by item. -/
theorem mapM_eq_ok {f : α → Except ε β} {l : List α} {out : List β} :
    l.mapM f = .ok out ↔ List.Forall₂ (fun x y => f x = .ok y) l out := by
  induction l generalizing out with
  | nil => simp [pure, Except.pure, eq_comm]
  | cons x l ih =>
    rw [List.mapM_cons, bind_eq_ok, List.forall₂_cons_left_iff]
    refine exists_congr fun y => ?_
    simp only [bind_eq_ok, ih, pure, Except.pure, Except.ok.injEq]
    exact ⟨fun ⟨hy, ys, hys, h⟩ => ⟨ys, hy, hys, h.symm⟩,
      fun ⟨ys, hy, hys, h⟩ => ⟨hy, ys, hys, h.symm⟩⟩

/-- What holds of an item and its result holds along the items of a list and their results. -/
theorem Yields.mapM {f : α → Except ε β} {l : List α} {R : α → β → Prop}
    (h : ∀ x ∈ l, Yields (f x) (R x)) : Yields (l.mapM f) (List.Forall₂ R l) := by
  intro out hout
  rw [mapM_eq_ok] at hout
  induction hout with
  | nil => exact .nil
  | cons hxy _ ih =>
    obtain ⟨hx, hl⟩ := List.forall_mem_cons.1 h
    exact .cons (hx _ hxy) (ih hl)

theorem mapM_append_eq_ok {f : α → Except ε β} {l l' : List α} {out : List β} :
    (l ++ l').mapM f = .ok out ↔
      ∃ ys ys', l.mapM f = .ok ys ∧ l'.mapM f = .ok ys' ∧ out = ys ++ ys' := by
  rw [List.mapM_append, bind_eq_ok]
  refine exists_congr fun ys => ?_
  simp only [bind_eq_ok, pure, Except.pure, Except.ok.injEq]
  exact ⟨fun ⟨h, ys', h', heq⟩ => ⟨ys', h, h', heq.symm⟩,
    fun ⟨ys', h, h', heq⟩ => ⟨h, ys', h', heq.symm⟩⟩

/-- What holds of every result of a function holds of all the results of a list. -/
theorem forall_mem_of_mapM {f : α → Except ε β} {l : List α} {out : List β} {P : β → Prop}
    (h : l.mapM f = .ok out) (hf : ∀ x ∈ l, ∀ y, f x = .ok y → P y) : ∀ y ∈ out, P y := by
  rw [mapM_eq_ok] at h
  induction h with
  | nil => simp
  | @cons x y l out hxy _ ih =>
    intro z hz
    rcases List.mem_cons.1 hz with rfl | hz
    · exact hf x (List.mem_cons_self ..) z hxy
    · exact ih (fun a ha => hf a (List.mem_cons_of_mem x ha)) z hz

/-- A function that gives results for a list gives one for each of its items. -/
theorem exists_of_mapM {f : α → Except ε β} {l : List α} {out : List β} (h : l.mapM f = .ok out) :
    ∀ x ∈ l, ∃ y, f x = .ok y := by
  rw [mapM_eq_ok] at h
  induction h with
  | nil => exact List.forall_mem_nil _
  | cons hfirst _ ih => exact List.forall_mem_cons.2 ⟨⟨_, hfirst⟩, ih⟩

/-- The error of a list is that of one of its items. -/
theorem exists_of_mapM_error {f : α → Except ε β} {l : List α} {e : ε} (h : l.mapM f = .error e) :
    ∃ x ∈ l, f x = .error e := by
  induction l with
  | nil => cases h
  | cons x l ih =>
    rw [List.mapM_cons] at h
    cases hx : f x with
    | error e' =>
      rw [hx, error_bind] at h
      cases h
      exact ⟨x, List.mem_cons_self, hx⟩
    | ok y =>
      rw [hx, ok_bind] at h
      cases hl : l.mapM f with
      | error e' =>
        rw [hl, error_bind] at h
        cases h
        obtain ⟨x', hmem, hx'⟩ := ih hl
        exact ⟨x', List.mem_cons_of_mem x hmem, hx'⟩
      | ok ys =>
        rw [hl] at h
        cases h

/-- If one function gives on `g x` what another gives on `x`, up to `k`, then so on lists. -/
theorem mapM_map_eq {γ δ : Type} {f : α → Except ε β} {f' : γ → Except ε δ} {g : α → γ} {k : β → δ}
    {l : List α} (h : ∀ x ∈ l, f' (g x) = (f x).map k) :
    (l.map g).mapM f' = (l.mapM f).map (List.map k) := by
  induction l with
  | nil => rfl
  | cons x l ih =>
    obtain ⟨hx, hl⟩ := List.forall_mem_cons.1 h
    rw [List.map_cons, List.mapM_cons, List.mapM_cons, hx, ih hl]
    cases f x with
    | error e => rfl
    | ok y => cases l.mapM f <;> rfl

/-- A map that leaves alone whatever a function succeeds on leaves a list alone. -/
theorem map_eq_self_of_mapM {f : α → Except ε β} {g : α → α} {l : List α} {out : List β}
    (h : l.mapM f = .ok out) (hg : ∀ x ∈ l, ∀ y, f x = .ok y → g x = x) : l.map g = l := by
  rw [mapM_eq_ok] at h
  induction h with
  | nil => rfl
  | cons hfirst _ ih =>
    rw [List.map_cons, hg _ List.mem_cons_self _ hfirst,
      ih fun a ha => hg a (List.mem_cons_of_mem _ ha)]

/-! ## Filtering -/

/-- The first computation gives just those results of the second of which `P` holds. -/
def Filters (checked unchecked : Except ε α) (P : α → Prop) : Prop :=
  ∀ a, checked = .ok a ↔ unchecked = .ok a ∧ P a

namespace Filters

variable {checked unchecked : Except ε α} {P : α → Prop}

/-- A computation of whose result `P` holds anyway need not be filtered. -/
theorem same {r : Except ε α} (h : Yields r P) : Filters r r P := by
  intro a
  refine ⟨fun ha => ⟨ha, h a ha⟩, And.left⟩

theorem map {Q : β → Prop} {f : α → β} (h : Filters checked unchecked P)
    (hf : ∀ a, Q (f a) ↔ P a) : Filters (checked.map f) (unchecked.map f) Q := by
  intro b
  rw [map_eq_ok, map_eq_ok]
  constructor
  · rintro ⟨a, ha, rfl⟩
    obtain ⟨ha, hP⟩ := (h a).1 ha
    exact ⟨⟨a, ha, rfl⟩, (hf a).2 hP⟩
  · rintro ⟨⟨a, ha, rfl⟩, hQ⟩
    exact ⟨a, (h a).2 ⟨ha, (hf a).1 hQ⟩, rfl⟩

/-- What follows is the same for both, and shows whether `P` held. -/
theorem bind {Q : β → Prop} {f : α → Except ε β} (h : Filters checked unchecked P)
    (hf : ∀ a, Yields (f a) fun b => Q b ↔ P a) : Filters (checked >>= f) (unchecked >>= f) Q := by
  intro b
  rw [bind_eq_ok, bind_eq_ok]
  constructor
  · rintro ⟨a, ha, hb⟩
    obtain ⟨ha, hP⟩ := (h a).1 ha
    exact ⟨⟨a, ha, hb⟩, (hf a b hb).2 hP⟩
  · rintro ⟨⟨a, ha, hb⟩, hQ⟩
    exact ⟨a, (h a).2 ⟨ha, (hf a b hb).1 hQ⟩, hb⟩

/-- A list is filtered item by item. -/
theorem mapM {f f' : α → Except ε β} {Q : β → Prop} {l : List α}
    (h : ∀ x ∈ l, Filters (f x) (f' x) Q) : Filters (l.mapM f) (l.mapM f') (∀ b ∈ ·, Q b) := by
  induction l with
  | nil => exact same (.ok (List.forall_mem_nil Q))
  | cons x l ih =>
    obtain ⟨hx, hl⟩ := List.forall_mem_cons.1 h
    intro bs
    simp only [List.mapM_cons, bind_eq_ok, pure, Except.pure, Except.ok.injEq]
    constructor
    · rintro ⟨b, hb, rest, hrest, rfl⟩
      obtain ⟨hb, hQ⟩ := (hx b).1 hb
      obtain ⟨hrest, hall⟩ := (ih hl rest).1 hrest
      exact ⟨⟨b, hb, rest, hrest, rfl⟩, List.forall_mem_cons.2 ⟨hQ, hall⟩⟩
    · rintro ⟨⟨b, hb, rest, hrest, rfl⟩, hall⟩
      obtain ⟨hQ, hall⟩ := List.forall_mem_cons.1 hall
      exact ⟨b, (hx b).2 ⟨hb, hQ⟩, rest, (ih hl rest).2 ⟨hrest, hall⟩, rfl⟩

end Filters

/-! ## Results without errors -/

theorem toOption_bind (r : Except ε α) (f : α → Except ε β) :
    (r >>= f).toOption = r.toOption.bind fun a => (f a).toOption := by
  cases r <;> rfl

theorem toOption_map (r : Except ε α) (f : α → β) : (r.map f).toOption = r.toOption.map f := by
  cases r <;> rfl

theorem toOption_eq_some {r : Except ε α} {a : α} : r.toOption = some a ↔ r = .ok a := by
  cases r <;> simp [Except.toOption]

/-- A computation that runs to a result with a property succeeds with it. -/
theorem succeeds_of_any {r : Except ε α} {p : α → Bool} (h : r.toOption.any p = true) :
    Succeeds r fun a => p a = true := by
  cases r with
  | error e => cases h
  | ok a => exact ⟨a, rfl, h⟩

/-- If one function gives on `g x` what another gives on `x`, up to `k`, then so on lists. -/
theorem toOption_mapM_map {f f' : α → Except ε β} {g : α → α} {k : β → β} {l : List α}
    (h : ∀ x ∈ l, (f' (g x)).toOption = (f x).toOption.map k) :
    ((l.map g).mapM f').toOption = (l.mapM f).toOption.map (List.map k) := by
  induction l with
  | nil => rfl
  | cons x l ih =>
    obtain ⟨hx, hl⟩ := List.forall_mem_cons.1 h
    rw [List.map_cons, List.mapM_cons, List.mapM_cons, toOption_bind, toOption_bind, hx]
    simp only [toOption_bind, ih hl]
    cases (f x).toOption with
    | none => rfl
    | some y => cases (l.mapM f).toOption <;> rfl

end CommandSequence
