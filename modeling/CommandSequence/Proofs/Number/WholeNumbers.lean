import CommandSequence.Proofs.Number.Bounds
import CommandSequence.Proofs.Number.Spelling

/-!
# Whole numbers as floating-point numbers

Digits without a fraction are read as the floating-point number nearest to their value
(`Number.abs_readFloat_digits`), also where the count of the digits alone settles that they stand
for more than the greatest number: rounding keeps the leading bit, so that it does not go back below
the bound (`Binary64.bound_le_roundUnits`). A whole number comes back from the nearest
floating-point number exactly if it is one of these itself (`Number.normalize_ofInt_eq_iff`).
-/

namespace CommandSequence

open Character

/-- Rounding does not go below the whole part of a quotient. -/
theorem div_le_roundDiv (n d : Nat) : n / d ≤ roundDiv n d := by
  simp only [roundDiv]
  split
  · exact Nat.le_refl _
  · split
    · exact Nat.le_succ _
    · exact Nat.le_add_right ..

namespace Binary64

/-! ## Beyond the greatest number -/

/-- Rounding keeps the leading bit of a quotient. -/
theorem twoPow_log2_le_roundUnits {n d : Nat} (h : n / d ≠ 0) :
    twoPow (n / d).log2 ≤ roundUnits n d := by
  have hlead : twoPow (n / d).log2 ≤ n / d :=
    Nat.le_of_not_lt fun hlt => Nat.lt_irrefl _ ((log2_lt_iff_lt_twoPow h).2 hlt)
  obtain ⟨k, hk⟩ := Nat.exists_eq_add_of_le (Nat.sub_le (n / d).log2 52)
  unfold roundUnits
  generalize (n / d).log2 - 52 = shift at hk ⊢
  have hscale := twoPow_pos shift
  have hquotient : twoPow k ≤ n / (d * twoPow shift) := by
    rw [← Nat.div_div_eq_div_mul, Nat.le_div_iff_mul_le hscale, ← twoPow_add, Nat.add_comm, ← hk]
    exact hlead
  calc twoPow (n / d).log2 = twoPow k * twoPow shift := by rw [hk, Nat.add_comm, twoPow_add]
    _ ≤ roundDiv n (d * twoPow shift) * twoPow shift :=
      Nat.mul_le_mul_right _ (Nat.le_trans hquotient (div_le_roundDiv _ _))

/-- What reaches the bound is not rounded below it. -/
theorem bound_le_roundUnits {n d : Nat} (hd : 0 < d) (h : bound * d ≤ n) :
    bound ≤ roundUnits n d := by
  have hquotient : bound ≤ n / d := (Nat.le_div_iff_mul_le hd).2 h
  have hne : n / d ≠ 0 := Nat.ne_of_gt (Nat.lt_of_lt_of_le bound_pos hquotient)
  have hlog : 2098 ≤ (n / d).log2 :=
    Nat.le_of_not_lt fun hlt => Nat.not_lt.2 hquotient ((log2_lt_iff_lt_twoPow hne).1 hlt)
  exact Nat.le_trans (Nat.le_of_dvd (twoPow_pos _) (twoPow_dvd_twoPow hlog))
    (twoPow_log2_le_roundUnits hne)

theorem bound_le_tenPow_mul_one : bound ≤ tenPow 330 * one := by
  decide +kernel

/-! ## The nearest number -/

/-- The nearest number of digits without a fraction is that of their value, whichever way it is
found: more than 330 digits are beyond the greatest number. -/
theorem ofDecimal_natCast (n : Nat) : ofDecimal false n 0 = ofInt n := by
  by_cases hzero : n = 0
  · subst hzero
    have hrepresentable : Representable (0 * one) := by
      rw [Nat.zero_mul]
      exact ⟨bound_pos, Nat.dvd_zero _⟩
    rw [ofInt_of_representable hrepresentable]
    simp only [ofDecimal, true_or, if_true, zero, Nat.zero_mul]
  · have hlarge : ¬ ((Nat.toDigits 10 n).length : Int) + 0 < -330 := by omega
    rw [ofInt_eq]
    by_cases hsize : 330 < (Nat.toDigits 10 n).length
    · have hleast : tenPow 330 ≤ n :=
        Nat.le_of_not_lt fun hlt => Nat.not_le.2 hsize <| by
          rw [← Decimal.length_ofNat]
          exact (Decimal.length_ofNat_le (by decide)).2 hlt
      have hbound : bound ≤ roundUnits (n * one) 1 := by
        apply bound_le_roundUnits Nat.one_pos
        rw [Nat.mul_one]
        exact Nat.le_trans bound_le_tenPow_mul_one (Nat.mul_le_mul_right _ hleast)
      have hmany : (330 : Int) < (Nat.toDigits 10 n).length + 0 := by omega
      simp only [ofUnits, dif_neg (Nat.not_lt.2 hbound), ofDecimal, hzero, hlarge, or_self,
        if_false, hmany, if_true]
    · have hfew : ¬ (330 : Int) < (Nat.toDigits 10 n).length + 0 := by omega
      simp only [ofDecimal, hzero, hlarge, or_self, if_false, hfew, Int.le_refl, if_true,
        Int.toNat_zero, tenPow_zero, Nat.mul_one, ofRatio]

theorem abs_withSign (negative : Bool) (x : Binary64) : (x.withSign negative).abs = x.abs := by
  cases x with
  | finite => rfl
  | infinite => rfl
  | nan => rfl

theorem abs_ofUnits (n d : Nat) : (ofUnits false n d).abs = ofUnits false n d := by
  unfold ofUnits
  split
  · rfl
  · rfl

theorem abs_ofDecimal_natCast (negative : Bool) (n : Nat) :
    (ofDecimal negative n 0).abs = ofInt n := by
  rw [ofDecimal_eq_withSign, abs_withSign, ofDecimal_natCast, ofInt_eq, abs_ofUnits]

/-- A floating-point number that is a natural number has that number of units. -/
theorem representable_of_toInt? {x : Binary64} {n : Nat} (h : x.toInt? = some (n : Int)) :
    Representable (n * one) := by
  cases x with
  | infinite => cases h
  | nan => cases h
  | finite negative units hunits =>
    rw [toInt?] at h
    split at h
    · next hwhole =>
      have hunit : units = units / one * one :=
        (Nat.div_mul_cancel (Nat.dvd_of_mod_eq_zero hwhole)).symm
      generalize units / one = magnitude at h hunit
      have hvalue : magnitude = n := by
        cases negative
        · exact Int.ofNat.inj (Option.some.inj h)
        · have hopposite : -(magnitude : Int) = n := Option.some.inj h
          omega
      rw [← hvalue, ← hunit]
      exact hunits
    · cases h

end Binary64

namespace Number

/-- Digits with or without a sign stand for the number nearest to their value. -/
theorem abs_readFloat_digits {text digits : List Char} {negative : Bool}
    (hsign : splitSign text = (negative, digits)) (hdigits : ∀ c ∈ digits, isDigit c = true) :
    (readFloat text).abs = Binary64.ofInt (Decimal.value digits) := by
  have hend : ∀ c, ([] : List Char).head? = some c → isDigit c = false := fun c hc => nomatch hc
  have htake := takeWhile_run hdigits hend
  have hdrop := dropWhile_run hdigits hend
  rw [List.append_nil] at htake hdrop
  simp only [readFloat, hsign, htake, hdrop, List.append_nil, List.length_nil]
  exact Binary64.abs_ofDecimal_natCast negative _

/-- A whole number comes back from the nearest floating-point number exactly if it is one. -/
theorem normalize_ofInt_eq_iff (n : Nat) : (Number.float (Binary64.ofInt n)).normalize = .int n ↔
    ∃ x : Binary64, x.toInt? = some (n : Int) := by
  constructor
  · intro h
    rw [normalize] at h
    split at h
    · next z hz =>
      cases h
      exact ⟨_, hz⟩
    · cases h
  · rintro ⟨x, hx⟩
    have hback := Binary64.representable_of_toInt? hx
    rw [Binary64.ofInt_of_representable hback, normalize, Binary64.toInt?_mul_one hback]

end Number

end CommandSequence
