import CommandSequence.Proofs.Json.Value
import CommandSequence.Proofs.Number.Written
import CommandSequence.Proofs.Text.Lines
import CommandSequence.Proofs.Text.Quoted

/-!
# JSON texts that a file keeps

A file keeps a quoted string, and the text of a value, exactly if UTF-8 has bytes for the strings in
it (`kept_encode`, `kept_writeAt`): carriage returns are escaped, and halves of surrogate pairs are
not.
-/

namespace CommandSequence

open Lines (Keeps Kept kept_nil kept_cons kept_append)
open Json (Value)

variable {back : Bool} {text : List Char} {indent : Json.Indent}

/-! ## Strings and numbers -/

theorem kept_hexDigits (width n : Nat) : Kept back (Character.hexDigits width n) := by
  have hdigit : ∀ n < 16, Keeps true (Character.hexDigit n) := by decide
  induction width generalizing n with
  | zero => exact kept_nil
  | succ width ih =>
    have hlast := hdigit _ (Nat.mod_lt n (by decide : 0 < 16))
    exact kept_append.2 ⟨ih _, kept_cons.2 ⟨.of_ne hlast.1 (hlast.2 rfl), kept_nil⟩⟩

theorem kept_escape {c : Char} : Kept back (Quoted.escape c) ↔ c.isScalar = true := by
  have hletters : ∀ pair ∈ Quoted.letters, Keeps true pair.1 ∧ pair.2.isScalar = true := by decide
  rcases Quoted.escape_cases c with ⟨letter, hc, hletter⟩ | ⟨hc, hlow⟩ | ⟨hc, -, -, -, -, hr⟩
  · obtain ⟨hkeeps, hscalar⟩ := hletters _ hletter
    rw [hc]
    simp [Keeps.of_ne hkeeps.1 (hkeeps.2 rfl), hscalar]
  · have hscalar : c.isScalar = true := c.isScalar_iff.2 (by omega)
    rw [hc]
    simp [kept_hexDigits, hscalar]
  · rw [hc]
    simp [Keeps, hr]

theorem kept_encode {s : String} : Kept back (Quoted.encode s.toList) ↔ s.isEncodable = true := by
  have hbody : Kept back (s.toList.flatMap Quoted.escape) ↔ ∀ c ∈ s.toList, c.isScalar = true := by
    rw [← forall₂_congr fun c _ => @kept_escape back c]
    exact List.forall_mem_flatMap
  simp [Quoted.encode, hbody, String.isEncodable]

theorem keeps_of_isAsciiDigit {c : Char} (h : Character.isAsciiDigit c = true) : Keeps back c := by
  have hrange := Character.isAsciiDigit_iff.1 h
  refine .of_ne (c.isScalar_iff.2 (by omega)) ?_
  rintro rfl
  exact absurd h (by decide)

theorem kept_spelling {s : Spelling} (hs : s.Proper) : Kept back s.text := by
  have hmarks : ∀ c ∈ [('-' : Char), '+', '.', 'e', 'E'], Keeps true c := by decide
  intro c h
  rcases Spelling.mem_text hs h with h | h
  · exact keeps_of_isAsciiDigit h
  · exact .of_ne (hmarks c h).1 ((hmarks c h).2 rfl)

theorem kept_literal {n : Number} (h : n.literal = .ok text) : Kept back text := by
  obtain ⟨s, rfl, hs, -⟩ := Number.exists_spelling h
  exact kept_spelling hs

theorem kept_writeNumber (n : Number) : Kept back (Json.writeNumber n) := by
  cases n with
  | int n =>
    rw [Json.writeNumber, ← Spelling.text_ofInt]
    exact kept_spelling (Spelling.proper_ofInt n)
  | float x =>
    cases x with
    | nan => exact .of_back (by decide)
    | infinite negative => cases negative <;> exact .of_back (by decide)
    | finite negative units h =>
      obtain ⟨s, htext, hs, -⟩ := Binary64.exists_spelling
        (rfl : (Binary64.finite negative units h).isFinite = true)
      change Kept back (Binary64.finite negative units h).write
      exact htext ▸ kept_spelling hs

/-! ## Values -/

theorem kept_break (level : Nat) : Kept back (indent.break level) := by
  cases indent with
  | none => exact kept_nil
  | some width =>
    have hblanks : Kept back (List.replicate (width * level) (' ' : Char)) := fun c h => by
      rw [List.eq_of_mem_replicate h]
      simp
    simp [Json.Indent.break, hblanks]

theorem kept_separator (level : Nat) : Kept back (indent.separator level) := by
  cases indent with
  | none => exact .of_back (by rw [Json.Indent.separator]; decide)
  | some width => exact kept_cons.2 ⟨by simp, kept_break level⟩

theorem kept_writeItems {items : List Value} {level : Nat}
    (h : ∀ v ∈ items, ∀ level, Kept back (v.writeAt indent level) ↔ v.isEncodable = true) :
    Kept back (Value.writeItems indent level items) ↔ ∀ v ∈ items, v.isEncodable = true := by
  induction items with
  | nil => simp [Value.writeItems]
  | cons item items ih =>
    obtain ⟨hitem, hitems⟩ := List.forall_mem_cons.1 h
    simp [Value.writeItems, kept_separator, hitem level, ih hitems]

theorem kept_writeMembers {members : List (String × Value)} {level : Nat}
    (h : ∀ m ∈ members, ∀ level, Kept back (m.2.writeAt indent level) ↔ m.2.isEncodable = true) :
    Kept back (Value.writeMembers indent level members) ↔
      ∀ m ∈ members, m.1.isEncodable = true ∧ m.2.isEncodable = true := by
  induction members with
  | nil => simp [Value.writeMembers]
  | cons member members ih =>
    obtain ⟨hmember, hmembers⟩ := List.forall_mem_cons.1 h
    simp [Value.writeMembers, kept_separator, kept_encode, hmember level, ih hmembers, and_assoc]

/-- A file keeps the text of a value exactly if UTF-8 has bytes for every string in it. -/
theorem kept_writeAt {v : Value} {p : Number → Prop} (h : v.Sound p) (level : Nat) :
    Kept back (v.writeAt indent level) ↔ v.isEncodable = true := by
  induction h generalizing level with
  | null => exact iff_of_true (.of_back (by rw [Value.writeAt]; decide)) rfl
  | boolean b => exact iff_of_true (.of_back (by cases b <;> (rw [Value.writeAt]; decide))) rfl
  | number => exact iff_of_true (kept_writeNumber _) rfl
  | string s => exact kept_encode
  | @array items _ ih =>
    rw [Value.isEncodable_array]
    cases items with
    | nil => exact iff_of_true (.of_back (by rw [Value.writeAt]; decide)) (List.forall_mem_nil _)
    | cons item items =>
      obtain ⟨hitem, hitems⟩ := List.forall_mem_cons.1 ih
      simp [Value.writeAt, kept_break, hitem (level + 1), kept_writeItems hitems]
  | @object members _ _ ih =>
    rw [Value.isEncodable_object]
    cases members with
    | nil => exact iff_of_true (.of_back (by rw [Value.writeAt]; decide)) (List.forall_mem_nil _)
    | cons member members =>
      obtain ⟨hmember, hmembers⟩ := List.forall_mem_cons.1 ih
      simp [Value.writeAt, kept_break, kept_encode, hmember (level + 1),
        kept_writeMembers hmembers, and_assoc]

end CommandSequence
