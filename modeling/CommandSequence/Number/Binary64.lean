import CommandSequence.Number.Power

/-!
# Binary floating-point numbers

A finite binary64 number is a sign and a whole number of *units* of `2 ^ -1074`, so that its
arithmetic is exact arithmetic on natural numbers followed by one rounding. A count of units is
representable when it lies below `2 ^ 2098` and has at most 53 significant bits. Rounding goes to
the nearest count with 53 significant bits, a tie to the even one, and what it gives is
representable unless it reaches the bound (`roundUnits_representable`).
-/

namespace CommandSequence

/-- The quotient rounded to the nearest natural number, a tie to the even one. -/
def roundDiv (n d : Nat) : Nat :=
  let q := n / d
  let r := n % d
  if 2 * r < d then q else if d < 2 * r then q + 1 else q + q % 2

theorem roundDiv_le {n d m : Nat} (h : n / d < m) : roundDiv n d ≤ m := by
  have hq : n / d % 2 < 2 := Nat.mod_lt _ (by decide)
  simp only [roundDiv]
  split
  · omega
  · split <;> omega

namespace Binary64

/-- One, in units of `2 ^ -1074`. -/
def one : Nat := twoPow 1074

/-- The least count of units that no finite number reaches. -/
def bound : Nat := twoPow 2098

theorem bound_pos : 0 < bound :=
  twoPow_pos 2098

/-- Whether a count of units has at most 53 significant bits and lies below the bound. -/
def Representable (units : Nat) : Prop :=
  units < bound ∧ twoPow (units.log2 - 52) ∣ units

instance (units : Nat) : Decidable (Representable units) :=
  inferInstanceAs (Decidable (_ ∧ _))

/-- The quotient `n / d` rounded to 53 significant bits. -/
def roundUnits (n d : Nat) : Nat :=
  let scale := twoPow ((n / d).log2 - 52)
  roundDiv n (d * scale) * scale

theorem twoPow_dvd_mul_of_le {m k : Nat} (hm : m ≤ twoPow 53) :
    twoPow ((m * twoPow k).log2 - 52) ∣ m * twoPow k := by
  by_cases h0 : m = 0
  · simp [h0]
  have hpos : m * twoPow k ≠ 0 := Nat.mul_ne_zero h0 (Nat.ne_of_gt (twoPow_pos k))
  rcases Nat.lt_or_ge m (twoPow 53) with hlt | hge
  · have hbits : m * twoPow k < twoPow (53 + k) := by
      rw [twoPow_add]; exact Nat.mul_lt_mul_of_pos_right hlt (twoPow_pos k)
    have hlog := (log2_lt_iff_lt_twoPow hpos).2 hbits
    exact Nat.dvd_trans (twoPow_dvd_twoPow (by omega)) (Nat.dvd_mul_left _ _)
  · rw [Nat.le_antisymm hm hge, ← twoPow_add, log2_twoPow]
    exact twoPow_dvd_twoPow (by omega)

/-- Rounding gives 53 significant bits: the kept quotient is at most `2 ^ 53`. -/
theorem roundUnits_dvd (n d : Nat) : twoPow ((roundUnits n d).log2 - 52) ∣ roundUnits n d := by
  unfold roundUnits
  apply twoPow_dvd_mul_of_le
  apply roundDiv_le
  rw [← Nat.div_div_eq_div_mul]
  by_cases hq : n / d = 0
  · simp [hq, twoPow_pos]
  · rw [Nat.div_lt_iff_lt_mul (twoPow_pos _), ← twoPow_add]
    exact (log2_lt_iff_lt_twoPow hq).1 (by omega)

end Binary64

/-- A binary64 number. Its finite values are a sign and a count of units of `2 ^ -1074`. -/
inductive Binary64 where
  | finite (negative : Bool) (units : Nat) (representable : Binary64.Representable units)
  | infinite (negative : Bool)
  | nan
deriving DecidableEq

namespace Binary64

theorem roundUnits_representable {n d : Nat} (h : roundUnits n d < bound) :
    Representable (roundUnits n d) :=
  ⟨h, roundUnits_dvd n d⟩

/-- Zero with a sign. -/
def zero (negative : Bool) : Binary64 :=
  .finite negative 0 ⟨bound_pos, Nat.dvd_zero _⟩

instance : Inhabited Binary64 := ⟨zero false⟩

/-- The number nearest to `n / d` units; a count that rounds to the bound is infinite. -/
def ofUnits (negative : Bool) (n d : Nat) : Binary64 :=
  if h : roundUnits n d < bound then .finite negative (roundUnits n d) (roundUnits_representable h)
  else .infinite negative

/-- The number nearest to `n / d`. -/
def ofRatio (negative : Bool) (n d : Nat) : Binary64 :=
  ofUnits negative (n * one) d

/-- The number nearest to an integer. -/
def ofInt (n : Int) : Binary64 :=
  ofRatio (n < 0) n.natAbs 1

/-- The number nearest to `digits * 10 ^ exponent`. Exponents far outside the range are settled by
their size, so that no power of ten grows beyond need. -/
def ofDecimal (negative : Bool) (digits : Nat) (exponent : Int) : Binary64 :=
  let size : Int := (Nat.toDigits 10 digits).length + exponent
  if digits = 0 ∨ size < -330 then zero negative
  else if 330 < size then .infinite negative
  else if 0 ≤ exponent then ofRatio negative (digits * tenPow exponent.toNat) 1
  else ofRatio negative digits (tenPow (-exponent).toNat)

/-- Whether the number is one of the two zeros. -/
def isZero : Binary64 → Bool
  | .finite _ units _ => units == 0
  | _ => false

/-- Whether the number is neither infinite nor NaN. -/
def isFinite : Binary64 → Bool
  | .finite .. => true
  | _ => false

/-- Whether the number is greater than zero. -/
def isPositive : Binary64 → Bool
  | .finite negative units _ => !negative && units != 0
  | .infinite negative => !negative
  | .nan => false

/-- The number without its sign. -/
def abs : Binary64 → Binary64
  | .finite _ units h => .finite false units h
  | .infinite _ => .infinite false
  | .nan => .nan

/-- The integer that a finite number without a fractional part is. -/
def toInt? : Binary64 → Option Int
  | .finite negative units _ =>
    if units % one = 0 then
      let magnitude : Int := (units / one : Nat)
      some (if negative then -magnitude else magnitude)
    else none
  | _ => none

/-- The greatest integer that is at most a finite number. -/
def floor? : Binary64 → Option Int
  | .finite false units _ => some (units / one : Nat)
  | .finite true units _ => some (-((units + (one - 1)) / one : Nat))
  | _ => none

/-- A finite number as a signed count of units. -/
def signedUnits (negative : Bool) (units : Nat) : Int :=
  if negative then -(units : Int) else units

/-- The sum, rounded once. Two zeros of different signs, and a number and its opposite, have the sum
`+0`. -/
def add : Binary64 → Binary64 → Binary64
  | .finite n u _, .finite m v _ =>
    let sum := signedUnits n u + signedUnits m v
    if sum = 0 then zero (n && m) else ofUnits (sum < 0) sum.natAbs 1
  | .infinite n, .infinite m => if n = m then .infinite n else .nan
  | .nan, _ => .nan
  | _, .nan => .nan
  | .infinite n, _ => .infinite n
  | _, .infinite m => .infinite m

/-- The product, rounded once. -/
def mul : Binary64 → Binary64 → Binary64
  | .finite n u _, .finite m v _ => ofUnits (n != m) (u * v) one
  | .nan, _ => .nan
  | _, .nan => .nan
  | .infinite n, .infinite m => .infinite (n != m)
  | .infinite n, .finite m v _ => if v = 0 then .nan else .infinite (n != m)
  | .finite n u _, .infinite m => if u = 0 then .nan else .infinite (n != m)

/-- The number nearest to the number rounded to `places` decimal places; a tie between two decimals
goes to the even one. With more places than any number has digits this changes nothing. -/
def roundPlaces (places : Nat) : Binary64 → Binary64
  | .finite negative units h =>
    if 323 < places then .finite negative units h
    else ofRatio negative (roundDiv (units * tenPow places) one) (tenPow places)
  | x => x

end Binary64

end CommandSequence
