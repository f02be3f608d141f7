import CommandSequence.Proofs.Number.Thousandths
import Mathlib.Data.Nat.Log

/-!
# Rounding keeps bounds

Rounding a quotient to a binary64 number does not pass a representable number (`roundUnits_le`), and
whole numbers of few bits are representable. So a fraction below one is read as a number of at most
one, its product with a whole number is at most that number, and so is the nearest integer
(`roundDiv_le_of_le_mul`).
-/

namespace CommandSequence

/-- The rounded quotient does not pass a whole number that the quotient does not pass. -/
theorem roundDiv_le_of_le_mul {n d q : Nat} (hd : 0 < d) (h : n ≤ q * d) : roundDiv n d ≤ q := by
  rcases Nat.lt_or_eq_of_le h with hlt | rfl
  · apply roundDiv_le
    exact Nat.div_lt_of_lt_mul (Nat.mul_comm q d ▸ hlt)
  · exact Nat.le_of_eq (roundDiv_mul_self hd)

namespace Binary64

/-- Rounding does not pass a representable count of units: the scale of the rounding divides it. -/
theorem roundUnits_le {n d m : Nat} (hd : 0 < d) (hm : Representable m) (h : n ≤ m * d) :
    roundUnits n d ≤ m := by
  have hquotient : n / d ≤ m := Nat.div_le_of_le_mul (Nat.mul_comm m d ▸ h)
  have hlog : (n / d).log2 - 52 ≤ m.log2 - 52 := by
    apply Nat.sub_le_sub_right
    rw [Nat.log2_eq_log_two, Nat.log2_eq_log_two]
    exact Nat.log_mono_right hquotient
  obtain ⟨q, hq⟩ := Nat.dvd_trans (twoPow_dvd_twoPow hlog) hm.2
  unfold roundUnits
  generalize hs : twoPow ((n / d).log2 - 52) = scale at hq ⊢
  have hscale : 0 < scale := hs ▸ twoPow_pos _
  have hrounded : roundDiv n (d * scale) ≤ q := by
    apply roundDiv_le_of_le_mul (Nat.mul_pos hd hscale)
    calc n ≤ m * d := h
      _ = q * (d * scale) := by rw [hq, Nat.mul_comm scale, Nat.mul_assoc, Nat.mul_comm scale]
  calc roundDiv n (d * scale) * scale ≤ q * scale := Nat.mul_le_mul_right _ hrounded
    _ = m := by rw [hq, Nat.mul_comm]

/-- A number without a minus sign that is at most a whole number. -/
def AtMost (x : Binary64) (n : Nat) : Prop :=
  ∃ units h, x = .finite false units h ∧ units ≤ n * one

theorem atMost_zero (n : Nat) : (zero false).AtMost n :=
  ⟨0, _, rfl, Nat.zero_le _⟩

theorem atMost_ofUnits {n d m : Nat} (hd : 0 < d) (hm : m ≤ twoPow 53) (h : n ≤ m * one * d) :
    (ofUnits false n d).AtMost m := by
  have hle : roundUnits n d ≤ m * one := roundUnits_le hd (representable_mul_one hm) h
  have hbound : roundUnits n d < bound :=
    Nat.lt_of_le_of_lt hle (representable_mul_one hm).1
  exact ⟨_, roundUnits_representable hbound, dif_pos hbound, hle⟩

/-- A fraction without a whole part is at most one. -/
theorem atMost_ofDecimal {digits k : Nat} (h : digits < tenPow k) :
    (ofDecimal false digits (-(k : Int))).AtMost 1 := by
  by_cases hzero : digits = 0
  · simp only [ofDecimal, hzero, true_or, if_true]
    exact atMost_zero 1
  · have hk : 0 < k := by
      apply Nat.pos_of_ne_zero
      rintro rfl
      rw [tenPow_zero] at h
      omega
    have hlength : (Nat.toDigits 10 digits).length ≤ k := by
      rw [← Decimal.length_ofNat]
      exact (Decimal.length_ofNat_le hk).2 h
    by_cases hsmall : ((Nat.toDigits 10 digits).length : Int) + -(k : Int) < -330
    · simp only [ofDecimal, hsmall, or_true, if_true]
      exact atMost_zero 1
    · rw [ofDecimal_of_size hzero hk (by omega) (by omega)]
      apply atMost_ofUnits (tenPow_pos k) (by decide)
      rw [Nat.one_mul, Nat.mul_comm]
      exact Nat.mul_le_mul_left one (Nat.le_of_lt h)

/-- The product of a number of at most one and a whole number is at most that number. -/
theorem AtMost.mul {x : Binary64} {n : Nat} (h : x.AtMost 1) (hn : n ≤ twoPow 53) :
    (x.mul (ofInt n)).AtMost n := by
  obtain ⟨units, hunits, rfl, hle⟩ := h
  rw [Nat.one_mul] at hle
  rw [ofInt_natCast rfl hn]
  apply atMost_ofUnits one_pos hn
  rw [Nat.mul_comm units]
  exact Nat.mul_le_mul_left _ hle

end Binary64

end CommandSequence
