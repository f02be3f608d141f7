import CommandSequence.Document.ToText
import CommandSequence.Proofs.Number.Rounding
import CommandSequence.Proofs.Number.Spelling

/-!
# The notation that numbers are written in

The text of an integer and of every finite floating-point number is a `Spelling`
(`Number.exists_spelling`). Hence it is read back as the number, by the readers of whole numerals
and by the JSON reader.
-/

namespace CommandSequence

open Character
open Decimal (Scientific)

/-! ## Integers -/

namespace Spelling

/-- The notation of an integer. -/
def ofInt (n : Int) : Spelling :=
  ⟨decide (n < 0), Decimal.ofNat n.natAbs, [], none⟩

theorem text_ofInt (n : Int) : (ofInt n).text = Decimal.ofInt n := by
  simp only [text, sign, ofInt, pointed, marked, Decimal.ofInt, List.isEmpty_nil, if_true,
    List.append_nil, decide_eq_true_eq]
  split <;> rfl

theorem proper_ofInt (n : Int) : (ofInt n).Proper where
  whole := Decimal.spelled_ofNat n.natAbs
  fraction _ hc := by cases hc
  exponent _ _ h := by cases h

theorem readInt_ofInt {n : Int} (h : Decimal.writable n = true) :
    Number.readInt (Decimal.ofInt n) = .ok n := by
  have hsplit := splitSign_sign (proper_ofInt n) []
  rw [List.append_nil, show (ofInt n).sign ++ (ofInt n).whole = Decimal.ofInt n by
    simpa [text, pointed, marked, ofInt] using text_ofInt n] at hsplit
  have hsign : (if n < 0 then -(n.natAbs : Int) else n.natAbs) = n := by split <;> omega
  simp only [Number.readInt, hsplit]
  simp only [ofInt, Decimal.value?, Decimal.writable_iff.1 h, if_true, Decimal.value_ofNat,
    decide_eq_true_eq, hsign]

end Spelling

/-! ## Layouts of a decimal -/

/-- A notation without a sign for a decimal that is no integer's: it has a fraction or an exponent,
and its whole part is short. -/
structure Spelling.Spells (s : Spelling) (d : Scientific) : Prop where
  proper : s.Proper
  unsigned : s.negative = false
  isInteger : s.isInteger = false
  short : s.whole.length ≤ 16
  value : ∀ negative, { s with negative }.value =
    Binary64.ofDecimal negative d.digits d.exponent

/-- The digits of a number without the zeros at their end. -/
def significant (digits : Nat) : List Char :=
  ((Decimal.ofNat digits).reverse.dropWhile (· == ('0' : Char))).reverse

theorem exists_zeros (digits : Nat) :
    ∃ k, Decimal.ofNat digits = significant digits ++ List.replicate k ('0' : Char) := by
  refine ⟨((Decimal.ofNat digits).reverse.takeWhile (· == ('0' : Char))).length, ?_⟩
  have hzeros : (Decimal.ofNat digits).reverse.takeWhile (· == ('0' : Char)) =
      List.replicate ((Decimal.ofNat digits).reverse.takeWhile (· == ('0' : Char))).length
        ('0' : Char) :=
    List.eq_replicate_of_mem fun c hc => beq_iff_eq.1 (List.all_eq_true.1 List.all_takeWhile c hc)
  have hsplit := congrArg List.reverse
    (List.takeWhile_append_dropWhile (p := (· == ('0' : Char)))
      (l := (Decimal.ofNat digits).reverse))
  rw [List.reverse_append, List.reverse_reverse, hzeros, List.reverse_replicate] at hsplit
  exact hsplit.symm

section Layout

variable {d : Scientific}

theorem isAsciiDigit_of_mem_significant (digits : Nat) :
    ∀ c ∈ significant digits, isAsciiDigit c = true := by
  intro c hc
  obtain ⟨k, hk⟩ := exists_zeros digits
  exact Decimal.isAsciiDigit_of_mem_ofNat c (hk ▸ List.mem_append_left _ hc)

/-- The first significant digit is not zero. -/
theorem exists_significant (hd : d.digits ≠ 0) :
    ∃ c more, significant d.digits = c :: more ∧ c ≠ '0' := by
  obtain ⟨k, hk⟩ := exists_zeros d.digits
  have hhead := Decimal.head?_ofNat hd
  cases hsig : significant d.digits with
  | nil =>
    rw [hsig, List.nil_append] at hk
    cases k with
    | zero => exact absurd hk (Decimal.spelled_ofNat _).ne_nil
    | succ k => rw [hk] at hhead; exact absurd rfl hhead
  | cons c more =>
    rw [hk, hsig] at hhead
    exact ⟨c, more, rfl, fun hc => hhead (congrArg some hc)⟩

/-- The number of a decimal, from its significant digits and the exponent of the leading one. -/
theorem ofDecimal_significant (negative : Bool) :
    Binary64.ofDecimal negative (Decimal.value (significant d.digits))
        (d.exponent + ((Decimal.ofNat d.digits).length : Int) - (significant d.digits).length) =
      Binary64.ofDecimal negative d.digits d.exponent := by
  obtain ⟨k, hk⟩ := exists_zeros d.digits
  have hlength : (Decimal.ofNat d.digits).length = (significant d.digits).length + k := by
    rw [hk, List.length_append, List.length_replicate]
  have hvalue : d.digits = Decimal.value (significant d.digits) * tenPow k := by
    rw [← Decimal.value_append_zeros, ← hk, Decimal.value_ofNat]
  rw [hlength, ← Binary64.ofDecimal_scale negative _ k, ← hvalue]
  congr 1
  omega

theorem spelled_cons {c : Char} {more : List Char} (hc : c ≠ '0')
    (hdigits : ∀ x ∈ c :: more, isAsciiDigit x = true) : Decimal.Spelled (c :: more) where
  ne_nil := List.cons_ne_nil c more
  digit := hdigits
  leading h := absurd (Option.some.inj h) hc

/-- The value of a notation that has the significant digits of a decimal behind zeros. -/
theorem value_of_significant {s : Spelling} {j : Nat}
    (hdigits : s.whole ++ s.fraction = List.replicate j ('0' : Char) ++ significant d.digits)
    (hpower : s.power - s.fraction.length =
      d.exponent + ((Decimal.ofNat d.digits).length : Int) - (significant d.digits).length)
    (negative : Bool) :
    { s with negative }.value = Binary64.ofDecimal negative d.digits d.exponent := by
  have hsame : ({ s with negative } : Spelling).power = s.power := rfl
  simp only [Spelling.value, hdigits, Decimal.value_zeros, hsame, hpower, ofDecimal_significant]

theorem isAsciiDigit_of_mem_zeros {n : Nat} :
    ∀ c ∈ List.replicate n ('0' : Char), isAsciiDigit c = true := by
  intro c hc
  rw [List.eq_of_mem_replicate hc]
  rfl

/-- A number below one, with zeros behind the point. -/
theorem spells_below_one {top : Int}
    (htop : top = d.exponent + ((Decimal.ofNat d.digits).length : Int) - 1) (hneg : top < 0)
    (hd : d.digits ≠ 0) :
    Spelling.Spells
      ⟨false, ['0'], List.replicate (-top - 1).toNat ('0' : Char) ++ significant d.digits,
        none⟩ d where
  proper :=
    { whole := Decimal.spelled_ofNat 0
      fraction := List.forall_mem_append.2
        ⟨isAsciiDigit_of_mem_zeros, isAsciiDigit_of_mem_significant d.digits⟩
      exponent := fun _ _ h => by cases h }
  unsigned := rfl
  isInteger := by
    obtain ⟨c, more, hsig, -⟩ := exists_significant hd
    simp [Spelling.isInteger, hsig]
  short := by simp
  value := by
    refine value_of_significant (j := (-top - 1).toNat + 1) ?_ ?_
    · rw [List.replicate_succ]; rfl
    · simp only [Spelling.power, List.length_append, List.length_replicate]
      omega

/-- A number without a fraction, with zeros up to the point. -/
theorem spells_whole {top : Int}
    (htop : top = d.exponent + ((Decimal.ofNat d.digits).length : Int) - 1) (hlow : 0 ≤ top)
    (hhigh : top < 16) (hd : d.digits ≠ 0)
    (hle : (significant d.digits).length ≤ top.toNat + 1) :
    Spelling.Spells ⟨false, significant d.digits ++
      List.replicate (top.toNat + 1 - (significant d.digits).length) ('0' : Char), ['0'],
      none⟩ d where
  proper :=
    { whole := by
        obtain ⟨c, more, hsig, hc⟩ := exists_significant hd
        have hdigits : ∀ x ∈ significant d.digits ++
            List.replicate (top.toNat + 1 - (significant d.digits).length) ('0' : Char),
            isAsciiDigit x = true :=
          List.forall_mem_append.2 ⟨isAsciiDigit_of_mem_significant d.digits,
            isAsciiDigit_of_mem_zeros⟩
        rw [hsig] at hdigits ⊢
        exact spelled_cons hc hdigits
      fraction := fun c hc => isAsciiDigit_of_mem_zeros (n := 1) c hc
      exponent := fun _ _ h => by cases h }
  unsigned := rfl
  isInteger := rfl
  short := by
    rw [List.length_append, List.length_replicate]
    omega
  value negative := by
    have hzeros : List.replicate (top.toNat + 1 - (significant d.digits).length) ('0' : Char) ++
        [('0' : Char)] =
        List.replicate (top.toNat + 1 - (significant d.digits).length + 1) ('0' : Char) :=
      List.replicate_succ'.symm
    simp only [Spelling.value, Spelling.power]
    rw [List.append_assoc, hzeros, Decimal.value_append_zeros, ← ofDecimal_significant (d := d),
      ← Binary64.ofDecimal_scale negative (Decimal.value (significant d.digits))
        (top.toNat + 1 - (significant d.digits).length + 1)]
    congr 1
    simp only [List.length_cons, List.length_nil]
    omega

/-- A number whose point stands among its significant digits. -/
theorem spells_split {top : Int}
    (htop : top = d.exponent + ((Decimal.ofNat d.digits).length : Int) - 1) (hlow : 0 ≤ top)
    (hhigh : top < 16) (hd : d.digits ≠ 0)
    (hlt : top.toNat + 1 < (significant d.digits).length) :
    Spelling.Spells ⟨false, (significant d.digits).take (top.toNat + 1),
      (significant d.digits).drop (top.toNat + 1), none⟩ d where
  proper :=
    { whole := by
        obtain ⟨c, more, hsig, hc⟩ := exists_significant hd
        have hdigits : ∀ x ∈ (significant d.digits).take (top.toNat + 1), isAsciiDigit x = true :=
          fun x hx => isAsciiDigit_of_mem_significant d.digits x (List.mem_of_mem_take hx)
        rw [hsig, List.take_succ_cons] at hdigits ⊢
        exact spelled_cons hc hdigits
      fraction := fun c hc => isAsciiDigit_of_mem_significant d.digits c (List.mem_of_mem_drop hc)
      exponent := fun _ _ h => by cases h }
  unsigned := rfl
  isInteger := by
    have hne : (significant d.digits).drop (top.toNat + 1) ≠ [] := by
      rw [ne_eq, List.drop_eq_nil_iff]
      omega
    simp [Spelling.isInteger, hne]
  short := by
    rw [List.length_take]
    omega
  value := by
    refine value_of_significant (j := 0) ?_ ?_
    · rw [List.take_append_drop]; rfl
    · simp only [Spelling.power, List.length_drop]
      omega

theorem zeroFill_ofNat (n : Nat) : Decimal.zeroFill 2 (Decimal.ofNat n) =
    List.replicate (2 - (Decimal.ofNat n).length) ('0' : Char) ++ Decimal.ofNat n := by
  have hdigit := (Decimal.spelled_ofNat n).digit
  unfold Decimal.zeroFill
  split
  · next heq =>
    rw [heq] at hdigit
    exact absurd (hdigit '-' (List.mem_cons_self ..)) (by decide)
  · next heq =>
    rw [heq] at hdigit
    exact absurd (hdigit '+' (List.mem_cons_self ..)) (by decide)
  · rfl

/-- A number with an exponent. -/
theorem spells_exponent {top : Int} {c : Char} {more : List Char}
    (htop : top = d.exponent + ((Decimal.ofNat d.digits).length : Int) - 1)
    (hsig : significant d.digits = c :: more) (hc : c ≠ '0') :
    Spelling.Spells ⟨false, [c], more,
      some (Spelling.Mark.standard (decide (top < 0)),
        Decimal.zeroFill 2 (Decimal.ofNat top.natAbs))⟩ d where
  proper :=
    { whole := by
        refine spelled_cons hc fun x hx => isAsciiDigit_of_mem_significant d.digits x ?_
        rw [hsig, List.mem_singleton.1 hx]
        exact List.mem_cons_self ..
      fraction := fun x hx => isAsciiDigit_of_mem_significant d.digits x
        (hsig ▸ List.mem_cons_of_mem c hx)
      exponent := by
        rintro _ _ ⟨⟩
        rw [zeroFill_ofNat]
        exact ⟨List.append_ne_nil_of_right_ne_nil _ (Decimal.spelled_ofNat _).ne_nil,
          List.forall_mem_append.2
            ⟨isAsciiDigit_of_mem_zeros, (Decimal.spelled_ofNat _).digit⟩⟩ }
  unsigned := rfl
  isInteger := by simp [Spelling.isInteger]
  short := by simp
  value := by
    refine value_of_significant (j := 0) hsig.symm ?_
    have hpower : Decimal.value (Decimal.zeroFill 2 (Decimal.ofNat top.natAbs)) = top.natAbs := by
      rw [zeroFill_ofNat, Decimal.value_zeros, Decimal.value_ofNat]
    rw [hsig, List.length_cons]
    by_cases hneg : top < 0
    · simp only [Spelling.power, Spelling.Mark.below_standard, hneg, decide_true, if_true, hpower]
      omega
    · simp only [Spelling.power, Spelling.Mark.below_standard, hneg, decide_false, hpower,
        Bool.false_eq_true, if_false]
      omega

/-- Every decimal is laid out in a notation for it. -/
theorem exists_spells (hd : d.digits ≠ 0) :
    ∃ s : Spelling, s.text = Binary64.Layout.standard.write d ∧ s.Spells d := by
  obtain ⟨c, more, hsig, hc⟩ := exists_significant hd
  have hfold : ((Decimal.ofNat d.digits).reverse.dropWhile (· == ('0' : Char))).reverse =
      significant d.digits := rfl
  simp only [Binary64.Layout.write, Binary64.Layout.standard, hfold]
  generalize htop : d.exponent + ((Decimal.ofNat d.digits).length : Int) - 1 = top
  split
  · next hrange =>
    split
    · next hneg =>
      refine ⟨_, ?_, spells_below_one htop.symm hneg hd⟩
      simp [Spelling.text, Spelling.sign, Spelling.pointed, Spelling.marked, hsig]
    · next hneg =>
      split
      · next hle =>
        refine ⟨_, ?_, spells_whole htop.symm (by omega) hrange.2 hd hle⟩
        simp [Spelling.text, Spelling.sign, Spelling.pointed, Spelling.marked]
      · next hlt =>
        refine ⟨_, ?_, spells_split htop.symm (by omega) hrange.2 hd (by omega)⟩
        have hne : (significant d.digits).drop (top.toNat + 1) ≠ [] := by
          rw [ne_eq, List.drop_eq_nil_iff]
          omega
        simp [Spelling.text, Spelling.sign, Spelling.pointed, Spelling.marked, hne]
  · refine ⟨_, ?_, spells_exponent htop.symm hsig hc⟩
    rw [hsig]
    cases more with
    | nil => simp [Spelling.text, Spelling.sign, Spelling.pointed, Spelling.marked]
    | cons x more => simp [Spelling.text, Spelling.sign, Spelling.pointed, Spelling.marked]

end Layout

/-! ## The text of a number -/

/-- The text of a finite floating-point number is a notation of it. -/
theorem Binary64.exists_spelling {x : Binary64} (h : x.isFinite = true) :
    ∃ s : Spelling, s.text = x.write ∧ s.Proper ∧ s.value = x ∧ s.isInteger = false ∧
      s.whole.length ≤ 16 := by
  cases x with
  | infinite => cases h
  | nan => cases h
  | finite negative units hunits =>
    by_cases hzero : units = 0
    · subst hzero
      refine ⟨⟨negative, ['0'], ['0'], none⟩, ?_, ⟨Decimal.spelled_ofNat 0, ?_, ?_⟩, ?_, rfl, ?_⟩
      · cases negative <;> rfl
      · exact fun c hc => isAsciiDigit_of_mem_zeros (n := 1) c hc
      · intro _ _ h; cases h
      · have hvalue : Decimal.value ['0', '0'] = 0 := rfl
        simp only [Spelling.value, List.cons_append, List.nil_append, hvalue, ofDecimal, true_or,
          if_true, zero]
      · simp
    · obtain ⟨s, htext, hs⟩ := exists_spells (shortest_digits_ne_zero hzero hunits)
      refine ⟨{ s with negative }, ?_, ⟨hs.proper.whole, hs.proper.fraction, hs.proper.exponent⟩,
        ?_, hs.isInteger, hs.short⟩
      · have hunsigned : s.text = s.whole ++ (s.pointed ++ s.marked) := by
          simp [Spelling.text, Spelling.sign, hs.unsigned]
        simp only [write, hzero, if_false, ← htext, hunsigned]
        cases negative <;> rfl
      · rw [hs.value, ofDecimal_shortest negative hzero hunits]

namespace Number

/-- The text of a number is a notation of it, and is read back. -/
theorem exists_spelling {n : Number} {text : List Char} (h : n.literal = .ok text) :
    ∃ s : Spelling, s.text = text ∧ s.Proper ∧ read? text = .ok (some n) := by
  cases n with
  | int n =>
    simp only [literal] at h
    split at h
    · next hshort =>
      cases h
      refine ⟨Spelling.ofInt n, Spelling.text_ofInt n, Spelling.proper_ofInt n, ?_⟩
      rw [← Spelling.text_ofInt, Spelling.read?_text_of_isInteger (Spelling.proper_ofInt n) rfl,
        Spelling.text_ofInt, Spelling.readInt_ofInt hshort]
      rfl
    · cases h
  | float x =>
    simp only [literal] at h
    split at h
    · next hfinite =>
      cases h
      obtain ⟨s, htext, hs, hvalue, hint, -⟩ := Binary64.exists_spelling hfinite
      refine ⟨s, htext, hs, ?_⟩
      rw [← htext, Spelling.read?_text hs hint, hvalue]
    · cases h

/-- The text of a number is read back as the number. -/
theorem read?_literal {n : Number} {text : List Char} (h : n.literal = .ok text) :
    read? text = .ok (some n) := by
  obtain ⟨-, -, -, hread⟩ := exists_spelling h
  exact hread

/-- Whether an integer has few enough digits to be written and read; where `short` is set, its sign
counts as one. -/
def Fits (short : Bool) : Number → Prop
  | .int n => Decimal.writable n = true ∧
      (short = true → (Decimal.ofInt n).length ≤ Decimal.digitLimit)
  | .float _ => True

theorem Fits.mono {short : Bool} {n : Number} (h : n.Fits short) : n.Fits false := by
  cases n with
  | int n => exact ⟨h.1, fun hfalse => by cases hfalse⟩
  | float x => trivial

/-- A number can be written if it fits and is finite. -/
theorem isWritable_iff {n : Number} :
    n.isWritable = true ↔ n.Fits false ∧ n.isFinite = true := by
  cases n with
  | int n => exact ⟨fun h => ⟨⟨h, nofun⟩, rfl⟩, fun h => h.1.1⟩
  | float x => exact ⟨fun h => ⟨trivial, h⟩, fun h => h.2⟩

/-- An integer of few digits fits; if it is negative, one more is needed for the sign. -/
theorem fits_of_lt {n : Int} {k : Nat} {short : Bool} (hk : 0 < k) (hlt : n.natAbs < tenPow k)
    (hlimit : k ≤ Decimal.digitLimit)
    (hshort : short = true → n < 0 → k < Decimal.digitLimit) : (Number.int n).Fits short := by
  have hlength := (Decimal.length_ofNat_le hk).2 hlt
  refine ⟨Decimal.writable_iff.2 (Nat.le_trans hlength hlimit), fun hs => ?_⟩
  unfold Decimal.ofInt
  split
  · next hneg =>
    have := hshort hs hneg
    rw [List.length_cons]
    omega
  · omega

/-- A signed run of digits fits if it is short enough. -/
theorem fits_of_value {n : Int} {digits : List Char} {short : Bool}
    (hn : n.natAbs = Decimal.value digits) (hlimit : digits.length ≤ Decimal.digitLimit)
    (hshort : short = true → n < 0 → digits.length < Decimal.digitLimit) :
    (Number.int n).Fits short := by
  cases digits with
  | nil =>
    have hzero : n = 0 := Int.natAbs_eq_zero.1 hn
    exact fits_of_lt Nat.one_pos (by rw [hzero]; decide) (by decide) (by omega)
  | cons c digits =>
    exact fits_of_lt (Nat.zero_lt_succ _) (hn ▸ Decimal.value_lt _) hlimit hshort

/-- An integer that is read is short, and its sign and digits are no longer than the text. -/
theorem fits_of_readInt {text : List Char} {n : Int} (h : readInt text = .ok n) {short : Bool}
    (hshort : short = true → text.length ≤ Decimal.digitLimit) : (Number.int n).Fits short := by
  have hsplit : (splitSign text).1 = true → text.length = (splitSign text).2.length + 1 := by
    unfold splitSign
    split
    · intro _; rfl
    · intro hfalse; cases hfalse
    · intro hfalse; cases hfalse
  simp only [readInt] at h
  generalize splitSign text = parts at h hsplit
  obtain ⟨negative, digits⟩ := parts
  simp only [Decimal.value?] at h hsplit
  split at h
  · next value hvalue =>
    split at hvalue
    · next hdigits =>
      cases hvalue
      cases negative with
      | false =>
        cases h
        exact fits_of_value rfl hdigits fun _ hneg =>
          absurd hneg (Int.not_lt.2 (Int.natCast_nonneg _))
      | true =>
        cases h
        have hlength := hsplit rfl
        refine fits_of_value (Int.natAbs_neg _) hdigits fun hs _ => ?_
        have := hshort hs
        omega
    · cases hvalue
  · cases h

/-- A JSON reader takes the text of a number exactly. -/
theorem readNumber_writeNumber {d : Json.Demands} {n : Number} {rest : List Char}
    (h : n.Fits d.shortNumbers) (hfinite : n.isFinite = true) (hrest : EndsNumber rest) :
    Json.readNumber d (Json.writeNumber n ++ rest) = .ok (n, rest) := by
  cases n with
  | int n =>
    obtain ⟨hshort, hfits⟩ := h
    have htext : (Spelling.ofInt n).sign ++ (Spelling.ofInt n).whole = Decimal.ofInt n := by
      simpa [Spelling.text, Spelling.pointed, Spelling.marked, Spelling.ofInt] using
        Spelling.text_ofInt n
    rw [Json.writeNumber, ← Spelling.text_ofInt,
      Spelling.readNumber_text (Spelling.proper_ofInt n) hrest (by rwa [htext]),
      Spelling.text_ofInt, Spelling.readInt_ofInt hshort]
    rfl
  | float x =>
    obtain ⟨s, htext, hs, hvalue, hint, hwhole⟩ := Binary64.exists_spelling hfinite
    have hwrite : Json.writeFloat x = x.write := by
      cases x with
      | finite => rfl
      | infinite => cases hfinite
      | nan => cases hfinite
    have hsign : s.sign.length ≤ 1 := by unfold Spelling.sign; split <;> simp
    have hlimit : (s.sign ++ s.whole).length ≤ Decimal.digitLimit := by
      rw [List.length_append, Decimal.digitLimit]
      omega
    rw [Json.writeNumber, hwrite, ← htext, Spelling.readNumber_text hs hrest fun _ => hlimit]
    simp only [hint, Bool.false_eq_true, if_false, hvalue]

end Number

end CommandSequence
