import CommandSequence.Number.Basic
import CommandSequence.Proofs.Number.Rounding

/-!
# Three decimal places and a thousand

A decimal fraction of three digits is rounded to a binary64 number, and a thousand times that number
is rounded again. For every such fraction the second rounding undoes the first
(`ofDecimal_mul_thousand`): the 53 bits of the quotient by a thousand differ from it by at most half
of their last one, and what a thousand times that difference amounts to is lost in the product, of
which 9 or 10 bits are rounded away. That bound is too coarse for a few of the fractions, so the
bits are computed for each of them (`roundsBack`).
-/

namespace CommandSequence.Binary64

theorem twoPow_lt_twoPow {m n : Nat} (h : m < n) : twoPow m < twoPow n :=
  Nat.pow_lt_pow_right (by decide) h

/-- A quotient of `53 + k` bits is rounded to a multiple of `2 ^ k`. -/
theorem roundUnits_of_bits {n d k : Nat} (hleast : twoPow (52 + k) ≤ n / d)
    (hgreatest : n / d < twoPow (53 + k)) :
    roundUnits n d = roundDiv n (d * twoPow k) * twoPow k := by
  have hlog : (n / d).log2 - 52 = k := by
    have hne : n / d ≠ 0 := Nat.ne_of_gt (Nat.lt_of_lt_of_le (twoPow_pos _) hleast)
    have hlt := (log2_lt_iff_lt_twoPow hne).2 hgreatest
    have hle := mt (log2_lt_iff_lt_twoPow hne).1 (Nat.not_lt_of_le hleast)
    omega
  unfold roundUnits
  rw [hlog]

/-- A quotient that has its last bit `2 ^ (j + k)` and a factor of `2 ^ k` is rounded without the
factor. -/
theorem roundUnits_scaled {n d j k : Nat} (hd : 0 < d) (hleast : twoPow (52 + j) ≤ n / d)
    (hgreatest : n / d < twoPow (53 + j)) :
    roundUnits (n * twoPow k) d = roundDiv n (d * twoPow j) * twoPow j * twoPow k := by
  have hk := twoPow_pos k
  rw [Nat.le_div_iff_mul_le hd] at hleast
  rw [Nat.div_lt_iff_lt_mul hd] at hgreatest
  rw [roundUnits_of_bits (k := j + k), twoPow_add j k, ← Nat.mul_assoc d, roundDiv_mul_right hk,
    Nat.mul_assoc]
  · rw [Nat.le_div_iff_mul_le hd, ← Nat.add_assoc, twoPow_add, Nat.mul_right_comm]
    exact Nat.mul_le_mul_right _ hleast
  · rw [Nat.div_lt_iff_lt_mul hd, ← Nat.add_assoc, twoPow_add, Nat.mul_right_comm]
    exact Nat.mul_lt_mul_of_pos_right hgreatest hk

/-! ## The bits of thousandths -/

/-- The bits by which a count of thousandths is moved for its quotient by a thousand to have 53. -/
def thousandthShift (n : Nat) : Nat :=
  53 + (999 / n).log2

/-- The 53 bits of a count of thousandths. -/
def thousandth (n : Nat) : Nat :=
  roundDiv (n * twoPow (thousandthShift n)) 1000

/-- The bits beyond 53 that a thousand times the bits of thousandths have. -/
def excess (n : Nat) : Nat :=
  if 1000 * thousandth n < twoPow 62 then 9 else 10

/-- A thousand times the bits of thousandths is rounded to their count. -/
structure RoundsBack (n : Nat) : Prop where
  least : twoPow 52 ≤ n * twoPow (thousandthShift n) / 1000
  greatest : n * twoPow (thousandthShift n) / 1000 < twoPow 53
  productLeast : twoPow (52 + excess n) ≤ 1000 * thousandth n
  productGreatest : 1000 * thousandth n < twoPow (53 + excess n)
  product : roundDiv (1000 * thousandth n) (twoPow (excess n)) * twoPow (excess n) =
    n * twoPow (thousandthShift n)

instance (n : Nat) : Decidable (RoundsBack n) :=
  decidable_of_iff
    ((twoPow 52 ≤ n * twoPow (thousandthShift n) / 1000 ∧
        n * twoPow (thousandthShift n) / 1000 < twoPow 53) ∧
      (twoPow (52 + excess n) ≤ 1000 * thousandth n ∧
        1000 * thousandth n < twoPow (53 + excess n)) ∧
      roundDiv (1000 * thousandth n) (twoPow (excess n)) * twoPow (excess n) =
        n * twoPow (thousandthShift n))
    ⟨fun ⟨⟨hl, hg⟩, ⟨hpl, hpg⟩, hp⟩ => ⟨hl, hg, hpl, hpg, hp⟩, fun ⟨hl, hg, hpl, hpg, hp⟩ =>
      ⟨⟨hl, hg⟩, ⟨hpl, hpg⟩, hp⟩⟩

theorem roundsBack : ∀ n < 1000, n = 0 ∨ RoundsBack n := by
  decide +kernel

theorem thousandthShift_le {n : Nat} (h : n ≠ 0) (hn : n < 1000) : thousandthShift n ≤ 1074 := by
  have hpos : 999 / n ≠ 0 :=
    Nat.ne_of_gt (Nat.div_pos (Nat.le_of_lt_succ hn) (Nat.pos_of_ne_zero h))
  have hlt : 999 / n < twoPow 10 := Nat.lt_of_le_of_lt (Nat.div_le_self ..) (by decide)
  have hlog := (log2_lt_iff_lt_twoPow hpos).2 hlt
  unfold thousandthShift
  omega

theorem one_pos : 0 < one :=
  twoPow_pos 1074

/-- Natural numbers of few bits are representable. -/
theorem representable_mul_one {n : Nat} (h : n ≤ twoPow 53) : Representable (n * one) := by
  refine ⟨?_, twoPow_dvd_mul_of_le h⟩
  rw [one, bound]
  calc n * twoPow 1074 ≤ twoPow 53 * twoPow 1074 := Nat.mul_le_mul_right _ h
    _ = twoPow (53 + 1074) := (twoPow_add 53 1074).symm
    _ < twoPow 2098 := twoPow_lt_twoPow (by decide)

theorem ofUnits_eq {negative : Bool} {n d units : Nat} (h : roundUnits n d = units)
    (hunits : Representable units) : ofUnits negative n d = .finite negative units hunits := by
  subst h
  exact dif_pos hunits.1

theorem ofInt_eq (n : Nat) : ofInt n = ofUnits false (n * one) 1 := by
  have hsign : decide ((n : Int) < 0) = false := decide_eq_false (by omega)
  rw [ofInt, hsign, Int.natAbs_natCast, ofRatio]

/-- A natural number that is a floating-point number is the one nearest to it. -/
theorem ofInt_of_representable {n : Nat} (h : Representable (n * one)) :
    ofInt n = .finite false (n * one) h := by
  have hround : roundUnits (n * one) 1 = n * one := by
    have hself := roundUnits_mul_self h Nat.one_pos
    rwa [Nat.mul_one] at hself
  rw [ofInt_eq, ofUnits_eq hround h]

/-- A natural number of few bits is a floating-point number. -/
theorem ofInt_natCast {n : Nat} {m : Int} (hm : m = n) (h : n ≤ twoPow 53) :
    ofInt m = .finite false (n * one) (representable_mul_one h) := by
  rw [hm, ofInt_of_representable (representable_mul_one h)]

/-! ## Dividing and multiplying -/

section

variable {n k : Nat} (hbits : RoundsBack n) (hk : 1074 = thousandthShift n + k)

include hk in
theorem mul_one_eq : n * one = n * twoPow (thousandthShift n) * twoPow k := by
  rw [one, hk, twoPow_add, Nat.mul_assoc]

include hbits hk

theorem roundUnits_thousandth : roundUnits (n * one) 1000 = thousandth n * twoPow k := by
  have hscaled := roundUnits_scaled (j := 0) (k := k) (by decide) hbits.least hbits.greatest
  rw [mul_one_eq hk, hscaled, show twoPow 0 = 1 from rfl, Nat.mul_one, Nat.mul_one, thousandth]

theorem representable_thousandth : Representable (thousandth n * twoPow k) := by
  rw [← roundUnits_thousandth hbits hk]
  apply roundUnits_representable
  rw [roundUnits_thousandth hbits hk, bound]
  have hexcess : excess n ≤ 10 := by
    unfold excess
    split <;> decide
  calc thousandth n * twoPow k ≤ 1000 * thousandth n * twoPow k :=
        Nat.mul_le_mul_right _ (Nat.le_mul_of_pos_left _ (by decide))
    _ < twoPow (53 + excess n) * twoPow k :=
        Nat.mul_lt_mul_of_pos_right hbits.productGreatest (twoPow_pos k)
    _ = twoPow (53 + excess n + k) := (twoPow_add _ k).symm
    _ < twoPow 2098 := twoPow_lt_twoPow (by omega)

theorem roundUnits_mul_thousand :
    roundUnits (thousandth n * twoPow k * (1000 * one)) one = n * one := by
  have hdiv := Nat.div_one (1000 * thousandth n)
  have hscaled := roundUnits_scaled (n := 1000 * thousandth n) (d := 1) (k := k) Nat.one_pos
    (hdiv.symm ▸ hbits.productLeast) (hdiv.symm ▸ hbits.productGreatest)
  rw [Nat.one_mul, hbits.product, ← mul_one_eq hk] at hscaled
  rw [← hscaled]
  apply roundUnits_congr one_pos Nat.one_pos
  rw [Nat.mul_one, ← Nat.mul_assoc, Nat.mul_right_comm (thousandth n),
    Nat.mul_comm (thousandth n)]

end

/-- The floating-point number nearest to a fraction of three digits, multiplied by a thousand, is
the number of the digits. -/
theorem ofDecimal_mul_thousand {n : Nat} (hn : n < 1000) (h : n ≤ twoPow 53) :
    (ofDecimal false n (-3)).mul (ofInt 1000) =
      .finite false (n * one) (representable_mul_one h) := by
  have hthousand : ofInt 1000 = .finite false (1000 * one) (representable_mul_one (by decide)) :=
    ofInt_natCast (n := 1000) Int.cast_ofNat_Int.symm (by decide)
  by_cases hzero : n = 0
  · subst hzero
    rw [hthousand]
    simp only [ofDecimal, true_or, if_true, zero, mul]
    apply ofUnits_eq
    have hself := roundUnits_mul_self (representable_mul_one (n := 0) h) one_pos
    rwa [Nat.zero_mul, Nat.zero_mul] at hself ⊢
  · have hbits := (roundsBack n hn).resolve_left hzero
    obtain ⟨k, hk⟩ := Nat.exists_eq_add_of_le (thousandthShift_le hzero hn)
    have hlength : (Nat.toDigits 10 n).length ≤ 3 := by
      rw [← Decimal.length_ofNat]
      exact (Decimal.length_ofNat_le (by decide)).2 hn
    have hdecimal : ofDecimal false n (-3) = ofUnits false (n * one) 1000 :=
      ofDecimal_of_size (k := 3) hzero (by decide) (by omega) (by omega)
    rw [hdecimal, ofUnits_eq (roundUnits_thousandth hbits hk) (representable_thousandth hbits hk),
      hthousand]
    exact ofUnits_eq (roundUnits_mul_thousand hbits hk) _

/-- A whole number is not changed by rounding to decimal places. -/
theorem roundPlaces_mul_one {n : Nat} (h : n ≤ twoPow 53) (places : Nat) :
    (Binary64.finite false (n * one) (representable_mul_one h)).roundPlaces places =
      .finite false (n * one) (representable_mul_one h) := by
  simp only [roundPlaces]
  split
  · rfl
  · rw [Nat.mul_right_comm, roundDiv_mul_self one_pos, ofRatio]
    apply ofUnits_eq
    rw [Nat.mul_right_comm]
    exact roundUnits_mul_self (representable_mul_one h) (tenPow_pos places)

theorem toInt?_mul_one {n : Nat} (h : Representable (n * one)) :
    (Binary64.finite false (n * one) h).toInt? = some (n : Int) := by
  simp only [toInt?, Nat.mul_mod_left, if_true, Nat.mul_div_cancel n one_pos]
  rfl

end CommandSequence.Binary64
