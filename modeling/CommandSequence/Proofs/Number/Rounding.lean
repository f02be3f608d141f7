import CommandSequence.Number.Shortest
import CommandSequence.Proofs.Number.Decimal

/-!
# Rounding to a binary64 number

Rounding a quotient depends on the quotient alone (`roundUnits_congr`), so a decimal may be written
with more or fewer zeros (`ofDecimal_scale`), and a representable count of units is rounded to
itself (`roundUnits_mul_self`). Hence the shortest decimal of a number reads back as the number
(`ofDecimal_shortest`): every candidate of the search is tested, and the exact expansion that stands
behind the search passes the test.
-/

namespace CommandSequence

theorem roundDiv_mul_right {n d k : Nat} (hk : 0 < k) :
    roundDiv (n * k) (d * k) = roundDiv n d := by
  simp only [roundDiv, Nat.mul_div_mul_right n d hk, Nat.mul_mod_mul_right, ← Nat.mul_assoc,
    Nat.mul_lt_mul_right hk]

/-- A quotient without a remainder is not rounded. -/
theorem roundDiv_mul_self {q d : Nat} (hd : 0 < d) : roundDiv (q * d) d = q := by
  simp only [roundDiv, Nat.mul_div_cancel q hd, Nat.mul_mod_left, Nat.mul_zero, hd, if_true]

namespace Binary64

theorem roundUnits_mul_right {n d k : Nat} (hk : 0 < k) :
    roundUnits (n * k) (d * k) = roundUnits n d := by
  unfold roundUnits
  simp only [Nat.mul_div_mul_right n d hk]
  rw [Nat.mul_right_comm d k, roundDiv_mul_right hk]

/-- Rounding depends on the quotient alone. -/
theorem roundUnits_congr {n d n' d' : Nat} (hd : 0 < d) (hd' : 0 < d') (h : n * d' = n' * d) :
    roundUnits n d = roundUnits n' d' := by
  rw [← roundUnits_mul_right (n := n) hd', ← roundUnits_mul_right (n := n') hd, h, Nat.mul_comm d]

/-- A representable count of units is rounded to itself. -/
theorem roundUnits_mul_self {units d : Nat} (h : Representable units) (hd : 0 < d) :
    roundUnits (units * d) d = units := by
  unfold roundUnits
  rw [Nat.mul_div_cancel units hd]
  obtain ⟨q, hq⟩ := h.2
  generalize hs : twoPow (units.log2 - 52) = scale at hq ⊢
  have hscale : 0 < scale := hs ▸ twoPow_pos _
  have hnum : units * d = q * (d * scale) := by
    rw [hq, Nat.mul_comm scale, Nat.mul_assoc, Nat.mul_comm scale]
  simp only [hnum, roundDiv_mul_self (Nat.mul_pos hd hscale)]
  rw [hq, Nat.mul_comm]

/-! ## Decimals -/

theorem ofRatio_congr (negative : Bool) {n d n' d' : Nat} (hd : 0 < d) (hd' : 0 < d')
    (h : n * d' = n' * d) : ofRatio negative n d = ofRatio negative n' d' := by
  have hround : roundUnits (n * one) d = roundUnits (n' * one) d' := by
    apply roundUnits_congr hd hd'
    rw [Nat.mul_right_comm, h, Nat.mul_right_comm]
  unfold ofRatio ofUnits
  simp only [hround]

/-- The value of a decimal without size limits. -/
def exactRatio (negative : Bool) (digits : Nat) (exponent : Int) : Binary64 :=
  if 0 ≤ exponent then ofRatio negative (digits * tenPow exponent.toNat) 1
  else ofRatio negative digits (tenPow (-exponent).toNat)

theorem exactRatio_scale (negative : Bool) (digits k : Nat) (exponent : Int) :
    exactRatio negative (digits * tenPow k) (exponent - k) =
      exactRatio negative digits exponent := by
  have hpos := tenPow_pos
  unfold exactRatio
  by_cases he : 0 ≤ exponent
  · rw [if_pos he]
    by_cases hk : 0 ≤ exponent - k
    · rw [if_pos hk, Nat.mul_assoc, ← tenPow_add]
      congr 3
      omega
    · rw [if_neg hk]
      apply ofRatio_congr negative (hpos _) Nat.one_pos
      rw [Nat.mul_one, Nat.mul_assoc, ← tenPow_add]
      congr 2
      omega
  · rw [if_neg he, if_neg (by omega)]
    apply ofRatio_congr negative (hpos _) (hpos _)
    rw [Nat.mul_assoc, ← tenPow_add]
    congr 2
    omega

theorem length_toDigits_mul_tenPow {n : Nat} (hn : n ≠ 0) (k : Nat) :
    (Nat.toDigits 10 (n * tenPow k)).length = (Nat.toDigits 10 n).length + k := by
  induction k with
  | zero => rw [tenPow_zero, Nat.mul_one, Nat.add_zero]
  | succ k ih =>
    have hpos : n * tenPow k ≠ 0 := Nat.mul_ne_zero hn (Nat.ne_of_gt (tenPow_pos k))
    have hzero := Nat.toDigits_append_toDigits (b := 10) (n := n * tenPow k) (d := 0) (by decide)
      (Nat.pos_of_ne_zero hpos) (by decide)
    rw [tenPow_succ, Nat.mul_left_comm, ← Nat.add_zero (10 * (n * tenPow k)), ← hzero,
      List.length_append, ih]
    rfl

/-- Zeros at the end of the digits, taken off the exponent, change no number. -/
theorem ofDecimal_scale (negative : Bool) (digits k : Nat) (exponent : Int) :
    ofDecimal negative (digits * tenPow k) (exponent - k) = ofDecimal negative digits exponent := by
  by_cases hd : digits = 0
  · simp [ofDecimal, hd]
  · have hpos : digits * tenPow k ≠ 0 := Nat.mul_ne_zero hd (Nat.ne_of_gt (tenPow_pos k))
    have hscale := exactRatio_scale negative digits k exponent
    unfold exactRatio at hscale
    simp only [ofDecimal, length_toDigits_mul_tenPow hd, hd, hpos, false_or, hscale]
    have hsize : (((Nat.toDigits 10 digits).length + k : Nat) : Int) + (exponent - k) =
        (Nat.toDigits 10 digits).length + exponent := by omega
    rw [hsize]

/-- The number with another sign. -/
def withSign (negative : Bool) : Binary64 → Binary64
  | .finite _ units h => .finite negative units h
  | .infinite _ => .infinite negative
  | .nan => .nan

theorem ofUnits_eq_withSign (negative : Bool) (n d : Nat) :
    ofUnits negative n d = (ofUnits false n d).withSign negative := by
  unfold ofUnits
  split <;> rfl

/-- The sign of a decimal is the sign of its number. -/
theorem ofDecimal_eq_withSign (negative : Bool) (digits : Nat) (exponent : Int) :
    ofDecimal negative digits exponent = (ofDecimal false digits exponent).withSign negative := by
  simp only [ofDecimal]
  split
  · rfl
  · split
    · rfl
    · split
      · exact ofUnits_eq_withSign negative _ _
      · exact ofUnits_eq_withSign negative _ _

/-! ## The shortest decimal -/

theorem one_dvd_tenPow : one ∣ tenPow 1074 := by
  unfold one tenPow twoPow
  exact ⟨Nat.pow 5 1074, by decide +kernel⟩

theorem exactDecimal_digits (units : Nat) :
    (exactDecimal units).digits * one = units * tenPow 1074 := by
  unfold exactDecimal
  rw [Nat.mul_assoc, Nat.div_mul_cancel one_dvd_tenPow]

/-- The exact expansion of a count of units has between 751 and 1383 digits. -/
theorem exactDecimal_size {units : Nat} (hpos : units ≠ 0) (hlt : units < bound) :
    750 < (Nat.toDigits 10 (exactDecimal units).digits).length ∧
      (Nat.toDigits 10 (exactDecimal units).digits).length ≤ 1383 := by
  have hscale : (exactDecimal units).digits = units * (tenPow 1074 / one) := rfl
  constructor
  · have hmany : tenPow 750 ≤ (exactDecimal units).digits := by
      rw [hscale]
      have hfive : tenPow 750 ≤ tenPow 1074 / one := by decide +kernel
      exact Nat.le_trans hfive (Nat.le_mul_of_pos_left _ (Nat.pos_of_ne_zero hpos))
    have := (Decimal.length_ofNat_le (n := (exactDecimal units).digits) (k := 750) (by decide))
    rw [Decimal.length_ofNat] at this
    omega
  · have hfew : (exactDecimal units).digits < tenPow 1383 := by
      have hbig : bound * (tenPow 1074 / one) ≤ tenPow 1383 := by decide +kernel
      have hpos' : 0 < tenPow 1074 / one := by decide +kernel
      rw [hscale]
      exact Nat.lt_of_lt_of_le (Nat.mul_lt_mul_of_pos_right hlt hpos') hbig
    rw [← Decimal.length_ofNat]
    exact (Decimal.length_ofNat_le (by decide)).2 hfew

theorem ofDecimal_of_size {digits k : Nat} (hd : digits ≠ 0) (hk : 0 < k)
    (hlow : k ≤ (Nat.toDigits 10 digits).length + 330)
    (hhigh : (Nat.toDigits 10 digits).length ≤ k + 330) :
    ofDecimal false digits (-(k : Int)) = ofUnits false (digits * one) (tenPow k) := by
  simp only [ofDecimal, hd, false_or]
  rw [if_neg (by omega), if_neg (by omega), if_neg (by omega), Int.neg_neg, Int.toNat_natCast]
  rfl

theorem ofDecimal_exact {units digits k : Nat} (h : Representable units) (hk : 0 < k)
    (hpos : units ≠ 0) (hscale : digits * one = units * tenPow k)
    (hlow : k ≤ (Nat.toDigits 10 digits).length + 330)
    (hhigh : (Nat.toDigits 10 digits).length ≤ k + 330) :
    ofDecimal false digits (-(k : Int)) = .finite false units h := by
  have hdigits : digits ≠ 0 := by
    intro h0
    rw [h0, Nat.zero_mul] at hscale
    exact absurd hscale.symm (Nat.mul_ne_zero hpos (Nat.ne_of_gt (tenPow_pos k)))
  rw [ofDecimal_of_size hdigits hk hlow hhigh, hscale]
  unfold ofUnits
  simp only [roundUnits_mul_self h (tenPow_pos k), h.1, dif_pos]

theorem readsBack_of_eq {units : Nat} {d : Decimal.Scientific}
    {h : Representable units}
    (hread : ofDecimal false d.digits d.exponent = .finite false units h) :
    readsBack units d = true := by
  unfold readsBack
  rw [hread]
  exact beq_self_eq_true units

/-- The exact expansion reads back. -/
theorem readsBack_exactDecimal {units : Nat} (hpos : units ≠ 0) (h : Representable units) :
    readsBack units (exactDecimal units) = true := by
  obtain ⟨hlow, hhigh⟩ := exactDecimal_size hpos h.1
  have hexp : (exactDecimal units).exponent = -(1074 : Nat) := rfl
  refine readsBack_of_eq (h := h) ?_
  rw [hexp]
  exact ofDecimal_exact h (by decide) hpos (exactDecimal_digits units) (by omega) (by omega)

/-- The shortest decimal reads back, whichever candidate it is. -/
theorem readsBack_shortest {units : Nat} (hpos : units ≠ 0) (h : Representable units) :
    readsBack units (shortest units) = true := by
  simp only [shortest]
  cases hfind : List.find? (readsBack units)
      ((List.range 17).flatMap fun (n : Nat) => neighbours units (leadingExponent units - n)) with
  | none => exact readsBack_exactDecimal hpos h
  | some d => exact List.find?_some hfind

/-- The shortest decimal of a number, with its sign, is the number. -/
theorem ofDecimal_shortest {units : Nat} (negative : Bool) (hpos : units ≠ 0)
    (h : Representable units) :
    ofDecimal negative (shortest units).digits (shortest units).exponent =
      .finite negative units h := by
  have hread := readsBack_shortest hpos h
  unfold readsBack at hread
  rw [ofDecimal_eq_withSign]
  split at hread
  · next hd =>
    rw [hd]
    cases beq_iff_eq.1 hread
    rfl
  · cases hread

/-- A decimal that reads back has digits. -/
theorem shortest_digits_ne_zero {units : Nat} (hpos : units ≠ 0) (h : Representable units) :
    (shortest units).digits ≠ 0 := by
  intro hzero
  have hread := ofDecimal_shortest false hpos h
  rw [hzero] at hread
  simp only [ofDecimal, true_or, if_true, zero] at hread
  cases hread
  exact hpos rfl

end Binary64

end CommandSequence
