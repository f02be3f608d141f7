import CommandSequence.Number.Decimal
import CommandSequence.Proofs.Character

/-!
# Decimal digits and their value

The digits of a natural number are ASCII digits without a leading zero (`Spelled`), they have the
number as their value (`value_ofNat`), and their count is bounded by its size (`length_ofNat_le`).
Appending digits multiplies the value by a power of ten (`value_append`).
-/

namespace CommandSequence

open Character

theorem tenPow_zero : tenPow 0 = 1 :=
  rfl

theorem tenPow_succ (n : Nat) : tenPow (n + 1) = 10 * tenPow n :=
  Nat.pow_succ'

namespace Decimal

/-! ## The value of digits -/

theorem value_eq (digits : List Char) (n : Nat) :
    digits.foldl (fun n c => 10 * n + (digitValue? c).getD 0) n =
      n * tenPow digits.length + value digits := by
  induction digits generalizing n with
  | nil => simp [value, tenPow_zero]
  | cons c digits ih =>
    simp only [List.foldl_cons, List.length_cons, value]
    rw [ih, ih, tenPow_succ]
    simp only [Nat.mul_zero, Nat.zero_add, Nat.add_mul, Nat.add_assoc]
    congr 1
    rw [Nat.mul_right_comm, Nat.mul_comm _ n, Nat.mul_comm 10]

@[simp]
theorem value_nil : value [] = 0 :=
  rfl

theorem value_cons (c : Char) (digits : List Char) :
    value (c :: digits) = (digitValue? c).getD 0 * tenPow digits.length + value digits := by
  rw [value, List.foldl_cons, value_eq, Nat.mul_zero, Nat.zero_add]

theorem value_append (digits more : List Char) :
    value (digits ++ more) = value digits * tenPow more.length + value more := by
  rw [value, List.foldl_append, value_eq]
  rfl

/-- Zeros in front change no value. -/
theorem value_zeros (n : Nat) (digits : List Char) :
    value (List.replicate n ('0' : Char) ++ digits) = value digits := by
  have hzeros : value (List.replicate n ('0' : Char)) = 0 := by
    induction n with
    | zero => rfl
    | succ n ih =>
      rw [List.replicate_succ, value_cons, ih, show digitValue? '0' = some 0 from rfl,
        Option.getD_some, Nat.zero_mul]
  rw [value_append, hzeros, Nat.zero_mul, Nat.zero_add]

/-- Zeros at the end multiply the value. -/
theorem value_append_zeros (digits : List Char) (n : Nat) :
    value (digits ++ List.replicate n ('0' : Char)) = value digits * tenPow n := by
  have hzeros := value_zeros n []
  rw [List.append_nil] at hzeros
  rw [value_append, List.length_replicate, hzeros, value_nil, Nat.add_zero]

theorem digitValue?_lt {c : Char} : (digitValue? c).getD 0 < 10 := by
  cases h : digitValue? c with
  | none => decide
  | some d =>
    obtain ⟨z, hz, rfl⟩ := Option.map_eq_some_iff.1 h
    have := List.find?_some hz
    simp only [Bool.and_eq_true, decide_eq_true_eq] at this
    simp only [Option.getD_some]
    omega

theorem value_lt (digits : List Char) : value digits < tenPow digits.length := by
  induction digits with
  | nil => decide
  | cons c digits ih =>
    rw [value_cons, List.length_cons, tenPow_succ]
    have hc := digitValue?_lt (c := c)
    calc (digitValue? c).getD 0 * tenPow digits.length + value digits
        < (digitValue? c).getD 0 * tenPow digits.length + tenPow digits.length := by omega
      _ = ((digitValue? c).getD 0 + 1) * tenPow digits.length := by rw [Nat.add_one_mul]
      _ ≤ 10 * tenPow digits.length := Nat.mul_le_mul_right _ hc

/-! ## The digits of a number -/

/-- ASCII digits without a leading zero, unless that is the only one. -/
structure Spelled (digits : List Char) : Prop where
  ne_nil : digits ≠ []
  digit : ∀ c ∈ digits, isAsciiDigit c = true
  leading : digits.head? = some ('0' : Char) → digits = [('0' : Char)]

theorem ofNat_of_lt {n : Nat} (h : n < 10) : ofNat n = [(n.digitChar : Char)] := by
  rw [ofNat, Nat.toDigits_of_lt_base h]
  rfl

theorem ofNat_of_le {n : Nat} (h : 10 ≤ n) :
    ofNat n = ofNat (n / 10) ++ [((n % 10).digitChar : Char)] := by
  rw [ofNat, Nat.toDigits_of_base_le (by decide) h, List.map_append]
  rfl

theorem ofNat_ne_nil (n : Nat) : ofNat n ≠ [] := fun h =>
  Nat.toDigits_ne_nil (List.map_eq_nil_iff.1 h)

theorem value_ofNat (n : Nat) : value (ofNat n) = n := by
  induction n using Nat.strongRecOn with
  | _ n ih =>
    by_cases h : n < 10
    · rw [ofNat_of_lt h, value_cons, digitValue?_digitChar h]
      simp [tenPow_zero]
    · rw [ofNat_of_le (by omega), value_append, ih (n / 10) (by omega), value_cons,
        digitValue?_digitChar (Nat.mod_lt n (by decide))]
      simp only [List.length_cons, List.length_nil, tenPow_succ, tenPow_zero, Option.getD_some,
        value_nil]
      omega

theorem head?_ofNat {n : Nat} (hn : n ≠ 0) : (ofNat n).head? ≠ some ('0' : Char) := by
  induction n using Nat.strongRecOn with
  | _ n ih =>
    by_cases h : n < 10
    · rw [ofNat_of_lt h, List.head?_cons, ne_eq, Option.some.injEq, ← Char.toNat_inj,
        Char.toNat_scalar, Nat.toNat_digitChar_of_lt_ten h]
      have : ('0' : Char).toNat = 48 := rfl
      omega
    · rw [ofNat_of_le (by omega), List.head?_append]
      have hrec := ih (n / 10) (by omega) (by omega)
      cases hhead : (ofNat (n / 10)).head? with
      | none => exact absurd (List.head?_eq_none_iff.1 hhead) (ofNat_ne_nil _)
      | some c => rw [hhead] at hrec; simpa using hrec

theorem isAsciiDigit_of_mem_ofNat {n : Nat} : ∀ c ∈ ofNat n, isAsciiDigit c = true := by
  induction n using Nat.strongRecOn with
  | _ n ih =>
    intro c hc
    by_cases h : n < 10
    · rw [ofNat_of_lt h, List.mem_singleton] at hc
      rw [hc]
      exact isAsciiDigit_digitChar h
    · rw [ofNat_of_le (by omega), List.mem_append, List.mem_singleton] at hc
      rcases hc with hc | rfl
      · exact ih (n / 10) (by omega) c hc
      · exact isAsciiDigit_digitChar (Nat.mod_lt n (by decide))

theorem spelled_ofNat (n : Nat) : Spelled (ofNat n) where
  ne_nil := ofNat_ne_nil n
  digit := isAsciiDigit_of_mem_ofNat
  leading h := by
    by_cases hn : n = 0
    · rw [hn]; rfl
    · exact absurd h (head?_ofNat hn)

theorem length_ofNat (n : Nat) : (ofNat n).length = (Nat.toDigits 10 n).length :=
  List.length_map _

theorem length_ofNat_le {n k : Nat} (hk : 0 < k) : (ofNat n).length ≤ k ↔ n < tenPow k := by
  rw [length_ofNat]
  exact Nat.length_toDigits_le_iff (by decide) hk

/-- An integer is short enough to be written if it has few digits. -/
theorem writable_iff {n : Int} :
    writable n = true ↔ (ofNat n.natAbs).length ≤ digitLimit := by
  have hlimit : 0 < digitLimit := by decide
  unfold writable
  generalize digitLimit = limit at hlimit
  rw [decide_eq_true_iff, length_ofNat_le hlimit]

end Decimal

end CommandSequence
