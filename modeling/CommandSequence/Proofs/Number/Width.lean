import CommandSequence.Proofs.Number.Decimal

/-!
# Digits of a fixed width

Counting with leading zeros, a number below a power of ten has exactly one spelling in that many
ASCII digits: the zeros that fill it up (`fixed_zeroFill`) give it back, and two texts of one width
with the same value are the same (`Fixed.eq_of_value_eq`).
-/

namespace CommandSequence.Decimal

open Character

/-- A count of ASCII digits. -/
structure Fixed (width : Nat) (digits : List Char) : Prop where
  length : digits.length = width
  digit : ∀ c ∈ digits, isAsciiDigit c = true

instance (width : Nat) (digits : List Char) : Decidable (Fixed width digits) :=
  decidable_of_iff (digits.length = width ∧ digits.all isAsciiDigit = true)
    ⟨fun ⟨hlength, hdigits⟩ => ⟨hlength, List.all_eq_true.1 hdigits⟩,
      fun ⟨hlength, hdigits⟩ => ⟨hlength, List.all_eq_true.2 hdigits⟩⟩

namespace Fixed

variable {width : Nat} {digits digits' : List Char}

theorem value_lt (h : Fixed width digits) : value digits < tenPow width := by
  rw [← h.length]
  exact Decimal.value_lt digits

theorem isDigit (h : Fixed width digits) : ∀ c ∈ digits, Character.isDigit c = true :=
  fun c hc => isDigit_of_isAsciiDigit (h.digit c hc)

theorem exists_cons (h : Fixed (width + 1) digits) :
    ∃ c more, digits = c :: more ∧ isAsciiDigit c = true ∧ Fixed width more := by
  obtain ⟨c, more, rfl⟩ := List.exists_cons_of_length_eq_add_one h.length
  exact ⟨c, more, rfl, h.digit c List.mem_cons_self, Nat.succ.inj h.length,
    fun d hd => h.digit d (List.mem_cons_of_mem c hd)⟩

/-- Digits of one width are told apart by their value. -/
theorem eq_of_value_eq (h : Fixed width digits) (h' : Fixed width digits')
    (hvalue : value digits = value digits') : digits = digits' := by
  induction width generalizing digits digits' with
  | zero => rw [List.eq_nil_of_length_eq_zero h.length, List.eq_nil_of_length_eq_zero h'.length]
  | succ width ih =>
    obtain ⟨c, rest, rfl, hc, hrest⟩ := h.exists_cons
    obtain ⟨c', rest', rfl, hc', hrest'⟩ := h'.exists_cons
    have hlt := hrest.value_lt
    have hlt' := hrest'.value_lt
    rw [value_cons, value_cons, hrest.length, hrest'.length, digitValue?_of_isAsciiDigit hc,
      digitValue?_of_isAsciiDigit hc', Option.getD_some, Option.getD_some] at hvalue
    have hpos : 0 < tenPow width := Nat.zero_lt_of_lt hlt
    have hquotient (first : Nat) {left : Nat} (hleft : left < tenPow width) :
        (first * tenPow width + left) / tenPow width = first := by
      rw [Nat.mul_comm, Nat.mul_add_div hpos, Nat.div_eq_of_lt hleft, Nat.add_zero]
    have hfirst : c.toNat - 48 = c'.toNat - 48 := by
      rw [← hquotient (c.toNat - 48) hlt, hvalue, hquotient _ hlt']
    rw [hfirst] at hvalue
    have hchar : c = c' := by
      rw [isAsciiDigit_iff] at hc hc'
      rw [← Char.toNat_inj]
      omega
    rw [hchar, ih hrest hrest' (Nat.add_left_cancel hvalue)]

end Fixed

/-! ## Filling up with zeros -/

theorem zeroFill_ofNat (width n : Nat) :
    zeroFill width (ofNat n) =
      List.replicate (width - (ofNat n).length) ('0' : Char) ++ ofNat n := by
  obtain ⟨c, rest, hdigits⟩ := List.exists_cons_of_ne_nil (spelled_ofNat n).ne_nil
  have hc : isAsciiDigit c = true := isAsciiDigit_of_mem_ofNat c (hdigits ▸ List.mem_cons_self)
  unfold zeroFill
  rw [hdigits]
  split
  · next heq =>
    cases heq
    exact absurd hc (by decide)
  · next heq =>
    cases heq
    exact absurd hc (by decide)
  · rfl

theorem value_zeroFill (width n : Nat) : value (zeroFill width (ofNat n)) = n := by
  rw [zeroFill_ofNat, value_zeros, value_ofNat]

theorem isAsciiDigit_of_mem_zeroFill (width n : Nat) :
    ∀ c ∈ zeroFill width (ofNat n), isAsciiDigit c = true := by
  intro c hc
  rw [zeroFill_ofNat] at hc
  rcases List.mem_append.1 hc with hc | hc
  · rw [List.eq_of_mem_replicate hc]
    decide
  · exact isAsciiDigit_of_mem_ofNat c hc

theorem length_zeroFill (width n : Nat) :
    (zeroFill width (ofNat n)).length = max width (ofNat n).length := by
  rw [zeroFill_ofNat, List.length_append, List.length_replicate]
  omega

theorem fixed_zeroFill {width n : Nat} (hwidth : 0 < width) (hn : n < tenPow width) :
    Fixed width (zeroFill width (ofNat n)) where
  length := by
    rw [length_zeroFill]
    exact Nat.max_eq_left ((length_ofNat_le hwidth).2 hn)
  digit := isAsciiDigit_of_mem_zeroFill width n

/-- A number that has as many digits as a width, with leading zeros, is below that power of ten. -/
theorem lt_of_length_zeroFill {width n : Nat} (hwidth : 0 < width)
    (h : (zeroFill width (ofNat n)).length ≤ width) : n < tenPow width := by
  rw [length_zeroFill] at h
  exact (length_ofNat_le hwidth).1 (Nat.le_trans (Nat.le_max_right ..) h)

/-- Digits of a width are the number that they stand for, filled up with zeros. -/
theorem Fixed.zeroFill_value {width : Nat} {digits : List Char} (h : Fixed width digits)
    (hwidth : 0 < width) : zeroFill width (ofNat (value digits)) = digits :=
  (fixed_zeroFill hwidth h.value_lt).eq_of_value_eq h (value_zeroFill width _)

end CommandSequence.Decimal
