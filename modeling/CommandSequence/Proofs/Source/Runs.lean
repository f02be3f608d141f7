import CommandSequence.Proofs.Source.Lines

/-!
# Runs of lines

Lines are read one after the other, so what is read of a text put together from pieces is put
together from what is read of the pieces (`ReadsLines.append`, `ReadsLines.flatten`). A run may
leave the reader at one of several places, which the run after it has to allow for.
-/

namespace CommandSequence

open Source (Terminal Token Cursor Level nextLine Place Region)

namespace ReadBack

variable {place : Place} {text text' rest : List Char} {S S' : Place → Prop}
variable {P Q : List Source.Line → Prop}

/-- From a place lines are read from the front of a text, of which `P` holds, and leave one of the
places in `S`. Every line takes at least one character. -/
def ReadsLines (place : Place) (text rest : List Char) (S : Place → Prop)
    (P : List Source.Line → Prop) : Prop :=
  ∀ c : Cursor, c.Before (nextLine (text ++ rest)) →
    ∃ lines place' after, P lines ∧ S place' ∧ after.Before (nextLine rest) ∧
      lines.length ≤ text.length ∧
      ∀ n, Source.Line.readAll (n + lines.length) place c =
        (Source.Line.readAll n place' after).map (lines ++ ·)

namespace ReadsLines

theorem mono (h : ReadsLines place text rest S P) (hS : ∀ p, S p → S' p)
    (hP : ∀ lines, P lines → Q lines) : ReadsLines place text rest S' Q := by
  intro c hc
  obtain ⟨lines, place', after, hlines, hplace, hafter, hlength, hread⟩ := h c hc
  exact ⟨lines, place', after, hP lines hlines, hS place' hplace, hafter, hlength, hread⟩

theorem map_nil (r : Except Source.SyntaxError (List Source.Line)) : r.map ([] ++ ·) = r := by
  cases r <;> rfl

/-- Nothing holds no lines. -/
theorem nil (hplace : S place) (hP : P []) : ReadsLines place [] rest S P :=
  fun c hc => ⟨[], place, c, hP, hplace, hc, Nat.zero_le _, fun _ => (map_nil _).symm⟩

/-- A line feed before a line changes nothing. -/
theorem blank (h : ReadsLines place text rest S P) : ReadsLines place ('\n' :: text) rest S P := by
  intro c hc
  obtain ⟨lines, place', after, hP, hplace, hafter, hlength, hread⟩ := h c hc
  exact ⟨lines, place', after, hP, hplace, hafter, Nat.le_succ_of_le hlength, hread⟩

/-- A single line. -/
theorem line {place' : Place} {R : Source.Line → Prop} (h : ReadsLine place text rest place' R)
    (hplace : S place') (hP : ∀ line, R line → P [line]) : ReadsLines place text rest S P := by
  intro c hc
  rw [h.begins] at hc
  obtain ⟨line, after, hread, hR, hafter⟩ := h.read c hc
  refine ⟨[line], place', after, hP line hR, hplace, hafter,
    List.length_pos_of_ne_nil h.filled, fun fuel => ?_⟩
  change Source.Line.readAll (fuel + 1) place c = _
  rw [Source.Line.readAll, hread]
  cases hmore : Source.Line.readAll fuel place' after <;> simp [Bind.bind, Except.bind, hmore,
    Except.map, pure, Except.pure]

/-- One run of lines after another. -/
theorem append (h : ReadsLines place text (text' ++ rest) S P)
    (h' : ∀ p, S p → ReadsLines p text' rest S' Q) :
    ReadsLines place (text ++ text') rest S'
      fun lines => ∃ a b, lines = a ++ b ∧ P a ∧ Q b := by
  intro c hc
  rw [List.append_assoc] at hc
  obtain ⟨a, p, between, ha, hp, hbetween, hlength, hread⟩ := h c hc
  obtain ⟨b, place', after, hb, hplace, hafter, hlength', hread'⟩ := h' p hp between hbetween
  refine ⟨a ++ b, place', after, ⟨a, b, rfl, ha, hb⟩, hplace, hafter, by simp; omega,
    fun fuel => ?_⟩
  rw [List.length_append, Nat.add_comm a.length, ← Nat.add_assoc, hread, hread']
  cases Source.Line.readAll fuel place' after <;> simp [Except.map]

/-- Runs of lines one after the other, each of them written for an item. -/
theorem flatten {ε α : Type} {write : α → Except ε (List Char)} {R : α → List Source.Line → Prop}
    {items : List α} {texts : List (List Char)} (hplace : S place)
    (hwrite : items.mapM write = .ok texts)
    (h : ∀ a ∈ items, ∀ text p rest, write a = .ok text → S p → ReadsLines p text rest S (R a)) :
    ReadsLines place texts.flatten rest S
      fun lines => ∃ runs : List (List Source.Line), lines = runs.flatten ∧
        List.Forall₂ R items runs := by
  rw [mapM_eq_ok] at hwrite
  induction hwrite generalizing place with
  | nil => exact nil hplace ⟨[], rfl, .nil⟩
  | @cons a text items texts hfirst _ ih =>
    refine (append (h a (List.mem_cons_self ..) text place _ hfirst hplace) fun p hp =>
      ih hp fun b hb => h b (List.mem_cons_of_mem a hb)).mono (fun _ h => h) ?_
    rintro lines ⟨a, b, rfl, ha, runs, rfl, hruns⟩
    exact ⟨a :: runs, rfl, .cons ha hruns⟩

end ReadsLines

end ReadBack

end CommandSequence
