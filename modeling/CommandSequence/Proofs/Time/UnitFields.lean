import CommandSequence.Proofs.Number.WholeNumbers
import CommandSequence.Proofs.Time.Anchoring

/-!
# Fields with unit suffixes

The fields of a duration are cut unambiguously: a field is read as one of its own unit and of no
other (`WrittenField.readField?_text`), as no field begins with the letter that tells milliseconds
from minutes. So the fields that are read are those that are written (`Duration.readFields_text`).
The count of a field without a fraction is the floating-point number nearest to its digits, and so
the number that is written exactly if that is a floating-point number (`Duration.ofFields?_counts`).
-/

namespace CommandSequence

open Character

/-- A field of a duration as it is written: blanks, a sign or none, digits, a fraction or none, and
the suffix of a unit. -/
structure WrittenField where
  unit : DurationUnit
  blanks : List Char
  sign : Option Char
  whole : List Char
  fraction : Option (List Char)

namespace WrittenField

/-- The fraction as written, with its point. -/
def pointed (f : WrittenField) : List Char :=
  f.fraction.elim [] ('.' :: ·)

/-- The number as written. -/
def number (f : WrittenField) : List Char :=
  f.sign.toList ++ (f.whole ++ f.pointed)

/-- The field as written. -/
def text (f : WrittenField) : List Char :=
  f.blanks ++ (f.number ++ f.unit.suffix)

/-- Whole part and fraction are digits, of any script, and there is at least one of them. -/
structure Proper (f : WrittenField) : Prop where
  blanks : ∀ c ∈ f.blanks, isBlank c = true
  sign : ∀ c ∈ f.sign, c = '+' ∨ c = '-'
  whole : f.whole ≠ [] ∧ ∀ c ∈ f.whole, isDigit c = true
  fraction : ∀ digits ∈ f.fraction, digits ≠ [] ∧ ∀ c ∈ digits, isDigit c = true

end WrittenField

/-- A duration in fields as it is written: a minus sign or none, and fields; a line feed may stand
at the end. -/
structure WrittenFields where
  minus : Bool
  fields : List WrittenField
  ending : List Char

namespace WrittenFields

/-- The fields as written. -/
def body (w : WrittenFields) : List Char :=
  w.fields.flatMap WrittenField.text ++ w.ending

/-- The duration as written. -/
def text (w : WrittenFields) : List Char :=
  if w.minus then '-' :: w.body else w.body

/-- The units come in order, each at most once. A minus sign that the text begins with is that of
the whole, not of the first field. -/
structure Proper (w : WrittenFields) : Prop where
  units : (w.fields.map WrittenField.unit).Sublist DurationUnit.all
  fields : ∀ f ∈ w.fields, f.Proper
  minus : w.body.head? = some ('-' : Char) → w.minus = true
  ending : Cut.atEnd w.ending = true

end WrittenFields

/-! ## One field -/

namespace Duration

/-- A suffix is told from the others by what follows it. -/
theorem afterSuffix?_suffix (u v : DurationUnit) {rest : List Char}
    (hrest : rest.head? ≠ some ('s' : Char)) :
    afterSuffix? u (v.suffix ++ rest) = if u = v then some rest else none := by
  cases rest with
  | nil => cases u <;> cases v <;> rfl
  | cons c more =>
    have hc : c ≠ 's' := fun heq => hrest (congrArg some heq)
    cases u <;> cases v <;> simp [afterSuffix?, DurationUnit.suffix, hc, Ne.symm hc]

theorem eq_append_of_afterSuffix? {u : DurationUnit} {text rest : List Char}
    (h : afterSuffix? u text = some rest) : text = u.suffix ++ rest := by
  unfold afterSuffix? at h
  split at h
  · next hprefix =>
    obtain ⟨more, rfl⟩ := List.isPrefixOf_iff_prefix.1 hprefix
    dsimp only at h
    split at h
    · cases h
    · cases h
      rw [List.drop_left]
  · cases h

/-- A text is the sign that is split off and what is left. -/
theorem exists_signed (text : List Char) :
    ∃ sign : Option Char, (∀ c ∈ sign, c = '+' ∨ c = '-') ∧
      (if TagGrammar.signed text then (text.take 1, text.drop 1) else ([], text)) =
        (sign.toList, TagGrammar.unsigned text) ∧
      text = sign.toList ++ TagGrammar.unsigned text := by
  obtain ⟨sign, hsign, htext⟩ := exists_sign text
  rw [splitSign_eq_unsigned] at htext
  refine ⟨sign, hsign, ?_, htext.symm⟩
  unfold TagGrammar.unsigned at htext ⊢
  split
  · next hsigned =>
    rw [if_pos hsigned] at htext
    rw [List.append_cancel_right (htext.trans (List.take_append_drop 1 text).symm)]
  · next hsigned =>
    rw [if_neg hsigned] at htext
    rw [List.append_cancel_right (htext.trans (List.nil_append text).symm)]

end Duration

namespace WrittenField

variable {f : WrittenField} {rest : List Char}

/-- A number begins with a sign or a digit. -/
theorem head?_number (h : f.Proper) : ∀ c, (f.number ++ rest).head? = some c →
    c = '+' ∨ c = '-' ∨ isDigit c = true := by
  intro c hc
  cases hsign : f.sign with
  | some _ =>
    rw [number, hsign] at hc
    cases hc
    rcases h.sign c hsign with hplus | hminus
    · exact .inl hplus
    · exact .inr (.inl hminus)
  | none =>
    obtain ⟨_, more, hwhole⟩ := List.exists_cons_of_ne_nil h.whole.1
    rw [number, hsign, hwhole] at hc
    cases hc
    exact .inr (.inr (h.whole.2 c (hwhole ▸ List.mem_cons_self)))

theorem dropWhile_text (h : f.Proper) :
    (f.text ++ rest).dropWhile isBlank = f.number ++ (f.unit.suffix ++ rest) := by
  rw [text, List.append_assoc, List.append_assoc]
  apply dropWhile_run h.blanks
  intro c hc
  rcases head?_number h c hc with rfl | rfl | hdigit
  · decide
  · decide
  · exact not_isBlank_of_isDigit hdigit

/-- The sign of a number is told from its digits. -/
theorem signed_number (h : f.Proper) :
    (if TagGrammar.signed (f.number ++ rest) then
      ((f.number ++ rest).take 1, (f.number ++ rest).drop 1) else ([], f.number ++ rest)) =
        (f.sign.toList, f.whole ++ (f.pointed ++ rest)) := by
  have hnumber : f.number ++ rest = f.sign.toList ++ (f.whole ++ (f.pointed ++ rest)) := by
    simp [number]
  obtain ⟨sign, -, hsplit, htext⟩ := Duration.exists_signed (f.number ++ rest)
  have hmagnitude : TagGrammar.unsigned (f.number ++ rest) = f.whole ++ (f.pointed ++ rest) := by
    rw [← Duration.splitSign_eq_unsigned, hnumber, Duration.splitSign_append h.sign h.whole]
  rw [hmagnitude] at hsplit htext
  rw [hsplit, List.append_cancel_right (htext.symm.trans hnumber)]

/-- What follows a number is no digit and no point. -/
theorem head?_suffix (u : DurationUnit) : ∀ c, (u.suffix ++ rest).head? = some c →
    isDigit c = false ∧ c ≠ '.' := by
  intro c hc
  cases u
  all_goals
    cases hc
    decide

/-- A field is read as one of its unit and of no other. -/
theorem readField?_text (h : f.Proper) (hrest : rest.head? ≠ some ('s' : Char)) (u : DurationUnit) :
    Duration.readField? u (f.text ++ rest) =
      if u = f.unit then some (f.number, rest) else none := by
  have hsuffix : ∀ c, (f.unit.suffix ++ rest).head? = some c → isDigit c = false ∧ c ≠ '.' :=
    head?_suffix f.unit
  have hpointed : ∀ c, (f.pointed ++ (f.unit.suffix ++ rest)).head? = some c → isDigit c = false :=
    Duration.head?_pointed fun c hc => (hsuffix c hc).1
  have hwhole := Duration.run?_of_digits h.whole.1 h.whole.2 hpointed
  have hfraction := Duration.cut_pointed h.fraction hsuffix
  have hafter := Duration.afterSuffix?_suffix u f.unit hrest
  have hnumber : f.sign.toList ++ f.whole ++ f.pointed = f.number := List.append_assoc ..
  simp only [Duration.readField?, dropWhile_text h, signed_number h]
  rw [pointed] at hnumber hwhole ⊢
  simp only [Option.bind_eq_bind, hwhole, hfraction, Option.bind_some]
  cases hfound : f.fraction with
  | none =>
    rw [hfound] at hnumber
    simp only [Option.map_none, Option.elim_none, List.nil_append, hafter]
    split
    · exact congrArg (fun value => some (value, rest)) hnumber
    · rfl
  | some digits =>
    rw [hfound] at hnumber
    simp only [Option.map_some, hafter]
    split
    · exact congrArg (fun value => some (value, rest)) hnumber
    · rfl

/-- What is read as a field of a unit is one that is written. -/
theorem exists_of_readField? {u : DurationUnit} {text value left : List Char}
    (h : Duration.readField? u text = some (value, left)) : ∃ f : WrittenField, f.Proper ∧
      f.unit = u ∧ f.number = value ∧ text = f.text ++ left := by
  obtain ⟨sign, hsign, hsplit, hunblanked⟩ := Duration.exists_signed (text.dropWhile isBlank)
  simp only [Duration.readField?, hsplit] at h
  obtain ⟨⟨whole, afterWhole⟩, hwhole, h⟩ := Option.bind_eq_some_iff.1 h
  obtain ⟨hmagnitude, hdigits⟩ := Cut.eq_append_of_run? hwhole
  obtain ⟨fraction, afterFraction, hfraction, hrest, hfound⟩ := Duration.exists_pointed afterWhole
  have hwritten (hvalue : sign.toList ++ whole ++ fraction.elim [] (('.' : Char) :: ·) = value)
      (hleft : Duration.afterSuffix? u afterFraction = some left) : ∃ f : WrittenField, f.Proper ∧
        f.unit = u ∧ f.number = value ∧ text = f.text ++ left := by
    refine ⟨⟨u, text.takeWhile isBlank, sign, whole, fraction⟩,
      ⟨fun c hc => List.mem_takeWhile_imp hc, hsign, hdigits, hfraction⟩, rfl,
      (List.append_assoc ..).symm.trans hvalue, ?_⟩
    rw [Duration.eq_append_of_afterSuffix? hleft] at hrest
    calc text = text.takeWhile isBlank ++ text.dropWhile isBlank :=
          List.takeWhile_append_dropWhile.symm
      _ = _ := by
        rw [hunblanked, hmagnitude, hrest]
        simp [WrittenField.text, number, pointed]
  cases fraction with
  | none =>
    obtain rfl : afterWhole = afterFraction := hrest
    simp only [hfound, Option.map_none] at h
    obtain ⟨rest, hsuffix, h⟩ := Option.bind_eq_some_iff.1 h
    cases h
    exact hwritten rfl hsuffix
  | some digits =>
    simp only [hfound, Option.map_some] at h
    obtain ⟨rest, hsuffix, h⟩ := Option.bind_eq_some_iff.1 h
    cases h
    exact hwritten rfl hsuffix

end WrittenField

/-! ## The fields in order -/

namespace Duration

theorem readField?_ending {ending : List Char} (h : Cut.atEnd ending = true) (u : DurationUnit) :
    readField? u ending = none := by
  rcases Cut.eq_of_atEnd h with rfl | rfl
  · rfl
  · rfl

/-- Neither a field nor the end of the text begins with the letter that tells milliseconds from
minutes. -/
theorem head?_fields {fields : List WrittenField} {ending : List Char}
    (h : ∀ f ∈ fields, f.Proper) (hend : Cut.atEnd ending = true) :
    (fields.flatMap WrittenField.text ++ ending).head? ≠ some ('s' : Char) := by
  cases fields with
  | nil =>
    rcases Cut.eq_of_atEnd hend with rfl | rfl
    · exact nofun
    · exact fun hhead => absurd (Option.some.inj hhead) (by decide)
  | cons f more =>
    have hf := h f List.mem_cons_self
    rw [List.flatMap_cons, List.append_assoc, WrittenField.text, List.append_assoc,
      List.append_assoc]
    intro hhead
    cases hblanks : f.blanks with
    | nil =>
      rw [hblanks] at hhead
      rcases WrittenField.head?_number hf 's' hhead with heq | heq | hdigit
      · cases heq
      · cases heq
      · exact absurd hdigit (by decide)
    | cons c blanks =>
      rw [hblanks] at hhead
      cases hhead
      exact absurd (hf.blanks 's' (hblanks ▸ List.mem_cons_self)) (by decide)

/-- The fields that are read are those that are written: in the order of the units each of them is
passed over by the readers of other units and taken by that of its own. -/
theorem readFields_text {units : List DurationUnit} {fields : List WrittenField}
    {ending : List Char}
    (hunits : (fields.map WrittenField.unit).Sublist units) (h : ∀ f ∈ fields, f.Proper)
    (hend : Cut.atEnd ending = true) :
    readFields units (fields.flatMap WrittenField.text ++ ending) =
      (fields.map fun f => (f.unit, f.number), ending) := by
  induction units generalizing fields with
  | nil =>
    obtain rfl := List.map_eq_nil_iff.1 (List.sublist_nil.1 hunits)
    rfl
  | cons u units ih =>
    cases fields with
    | nil =>
      rw [List.flatMap_nil, List.nil_append, readFields, readField?_ending hend]
      have hnone : (List.map WrittenField.unit []).Sublist units := List.nil_sublist units
      exact ih hnone (List.forall_mem_nil _)
    | cons f more =>
      obtain ⟨hf, hmore⟩ := List.forall_mem_cons.1 h
      have hfield := WrittenField.readField?_text hf (head?_fields hmore hend) u
      rw [← List.append_assoc, ← List.flatMap_cons] at hfield
      by_cases hunit : u = f.unit
      · rw [if_pos hunit] at hfield
        subst hunit
        have htail := ih (List.cons_sublist_cons.1 hunits) hmore
        simp only [readFields, hfield, htail, List.map_cons]
      · rw [if_neg hunit] at hfield
        have hlater : ((f :: more).map WrittenField.unit).Sublist units := by
          cases hunits with
          | cons _ hlater => exact hlater
          | cons_cons => exact absurd rfl hunit
        simp only [readFields, hfield, ih hlater h]

/-- What is read as fields is written in fields. -/
theorem exists_of_readFields {units : List DurationUnit} {text left : List Char}
    {found : List (DurationUnit × List Char)} (h : readFields units text = (found, left)) :
    ∃ fields : List WrittenField, (fields.map WrittenField.unit).Sublist units ∧
    (∀ f ∈ fields, f.Proper) ∧
      text = fields.flatMap WrittenField.text ++ left := by
  induction units generalizing text found with
  | nil =>
    cases h
    exact ⟨[], List.nil_sublist _, List.forall_mem_nil _, rfl⟩
  | cons u units ih =>
    rw [readFields] at h
    split at h
    · next value rest hfield =>
      cases hmore : readFields units rest with
      | mk more last =>
        rw [hmore] at h
        cases h
        obtain ⟨f, hf, rfl, -, rfl⟩ := WrittenField.exists_of_readField? hfield
        obtain ⟨fields, hunits, hfields, rfl⟩ := ih hmore
        refine ⟨f :: fields, hunits.cons_cons f.unit, List.forall_mem_cons.2 ⟨hf, hfields⟩, ?_⟩
        rw [List.flatMap_cons, List.append_assoc]
    · obtain ⟨fields, hunits, hfields, htext⟩ := ih h
      exact ⟨fields, hunits.cons u, hfields, htext⟩

/-! ## The counts and the sign -/

/-- The number of a field is what is read for its unit. -/
theorem lookup_number {fields : List WrittenField} (hunits : (fields.map WrittenField.unit).Nodup)
    {f : WrittenField} (hf : f ∈ fields) :
    (fields.map fun f => (f.unit, f.number)).lookup f.unit = some f.number := by
  induction fields with
  | nil => cases hf
  | cons g more ih =>
    rw [List.map_cons, List.nodup_cons] at hunits
    rcases List.mem_cons.1 hf with rfl | hmore
    · exact List.lookup_cons_self
    · have hother : f.unit ≠ g.unit := fun heq =>
        hunits.1 (heq ▸ List.mem_map_of_mem hmore)
      rw [List.map_cons, List.lookup_cons, beq_eq_false_iff_ne.2 hother]
      exact ih hunits.2 hmore

theorem lookup_eq_none {fields : List WrittenField} {u : DurationUnit}
    (hu : u ∉ fields.map WrittenField.unit) :
    (fields.map fun f => (f.unit, f.number)).lookup u = none := by
  rw [List.lookup_eq_none_iff]
  intro entry hentry
  obtain ⟨f, hf, rfl⟩ := List.mem_map.1 hentry
  have hother : u ≠ f.unit := fun heq => hu (heq ▸ List.mem_map_of_mem hf)
  exact bne_iff_ne.2 hother

theorem head?_number_eq_minus {f : WrittenField} (h : f.Proper) :
    f.number.head? = some ('-' : Char) ↔ f.sign = some ('-' : Char) := by
  rw [WrittenField.number]
  cases f.sign with
  | some c => exact Iff.rfl
  | none =>
    obtain ⟨c, more, hwhole⟩ := List.exists_cons_of_ne_nil h.whole.1
    have hc : c ≠ '-' := by
      rintro rfl
      exact absurd (h.whole.2 '-' (hwhole ▸ List.mem_cons_self)) (by decide)
    simp [hwhole, hc]

/-- A field without a fraction counts the number nearest to its digits. -/
theorem fieldValue_number {f : WrittenField} (h : f.Proper) (hwhole : f.fraction = none) :
    fieldValue f.number = (Number.float (Binary64.ofInt (Decimal.value f.whole))).normalize := by
  have hsign : Number.splitSign f.number = (f.sign == some ('-' : Char), f.whole) := by
    have hsplit := splitSign_append h.sign h.whole f.pointed
    rw [WrittenField.number]
    rwa [WrittenField.pointed, hwhole, Option.elim_none, List.append_nil] at hsplit ⊢
  rw [fieldValue, Number.abs_readFloat_digits hsign h.whole.2]

variable {w : WrittenFields}

theorem head?_text (h : w.Proper) : w.text.head? = some ('-' : Char) ↔ w.minus = true := by
  rw [WrittenFields.text]
  split
  · next hminus => exact iff_of_true rfl hminus
  · next hminus => exact iff_of_false (fun hhead => hminus (h.minus hhead)) hminus

/-- A duration in fields is read as the counts of its fields, and has a minus sign if one of them or
the whole has. -/
theorem ofFields?_text (h : w.Proper) : ∃ d, ofFields? w.text = some d ∧
    (∀ u, d.count u = (((w.fields.map fun f => (f.unit, f.number)).lookup u).map fieldValue).getD
      (.int 0)) ∧
    (d.negative = true ↔ w.text.head? = some ('-' : Char) ∨
      ∃ f ∈ w.fields, f.sign = some ('-' : Char)) := by
  have hfields := readFields_text h.units h.fields h.ending
  have hsign : (w.fields.map fun f => (f.unit, f.number)).any
      (fun entry => entry.2.head? == some ('-' : Char)) = true ↔
      ∃ f ∈ w.fields, f.sign = some ('-' : Char) := by
    simp only [List.any_map, List.any_eq_true, Function.comp_apply, beq_iff_eq]
    exact exists_congr fun f => and_congr_right fun hf => head?_number_eq_minus (h.fields f hf)
  have htext : w.text = if w.minus then ('-' : Char) :: w.body else w.body := rfl
  have hsplit := ofFields?_split htext h.minus
  rw [WrittenFields.body, hfields] at hsplit
  refine ⟨_, hsplit.trans (if_pos h.ending), count_ofCounts _ _, ?_⟩
  rw [head?_text h, ← hsign]
  exact Bool.or_eq_true_iff

/-- A duration that is read from fields is written in fields. -/
theorem exists_writtenFields {text : List Char} {d : Duration} (h : ofFields? text = some d) :
    ∃ w : WrittenFields, w.Proper ∧ w.text = text := by
  obtain ⟨minus, body, rfl, hminus⟩ := exists_minus text
  rw [ofFields?_split rfl hminus] at h
  cases hread : readFields DurationUnit.all body with
  | mk found left =>
    rw [hread] at h
    obtain ⟨fields, hunits, hfields, hbody⟩ := exists_of_readFields hread
    obtain ⟨hend, -⟩ := Option.ite_none_right_eq_some.1 h
    have hwritten : (⟨minus, fields, left⟩ : WrittenFields).body = body := hbody.symm
    refine ⟨⟨minus, fields, left⟩, ⟨hunits, hfields, ?_, hend⟩, ?_⟩
    · rwa [hwritten]
    · rw [WrittenFields.text, hwritten]

/-- Fields are read from the texts that are written in fields, and from no others. A count that is
not written is zero. One that is written without a fraction is the floating-point number nearest to
its digits, and the number of these exactly if that is a floating-point number itself. The duration
has a minus sign if the text begins with one or one of the fields has one. -/
theorem ofFields?_counts (text : List Char) :
    ((ofFields? text).isSome = true ↔ ∃ w : WrittenFields, w.Proper ∧ w.text = text) ∧
    ∀ d, ofFields? text = some d → ∀ w : WrittenFields, w.Proper → w.text = text →
      (∀ u, u ∉ w.fields.map WrittenField.unit → d.count u = .int 0) ∧
      (∀ f ∈ w.fields, f.fraction = none →
        d.count f.unit = (Number.float (Binary64.ofInt (Decimal.value f.whole))).normalize ∧
        (d.count f.unit = .int (Decimal.value f.whole) ↔
          ∃ x : Binary64, x.toInt? = some (Decimal.value f.whole : Int))) ∧
      (d.negative = true ↔ text.head? = some ('-' : Char) ∨
        ∃ f ∈ w.fields, f.sign = some ('-' : Char)) := by
  constructor
  · rw [Option.isSome_iff_exists]
    constructor
    · rintro ⟨d, hread⟩
      exact exists_writtenFields hread
    · rintro ⟨w, h, rfl⟩
      obtain ⟨d, hread, -⟩ := ofFields?_text h
      exact ⟨d, hread⟩
  · rintro d hread w h rfl
    obtain ⟨d', hread', hcount, hnegative⟩ := ofFields?_text h
    rw [hread] at hread'
    cases hread'
    refine ⟨?_, ?_, hnegative⟩
    · intro u hu
      rw [hcount, lookup_eq_none hu, Option.map_none, Option.getD_none]
    · intro f hf hwhole
      have hunits : (w.fields.map WrittenField.unit).Nodup := h.units.nodup (by decide)
      have hnearest : d.count f.unit =
          (Number.float (Binary64.ofInt (Decimal.value f.whole))).normalize := by
        rw [hcount, lookup_number hunits hf, Option.map_some, Option.getD_some,
          fieldValue_number (h.fields f hf) hwhole]
      refine ⟨hnearest, ?_⟩
      rw [hnearest]
      exact Number.normalize_ofInt_eq_iff _

/-- Days and milliseconds with signs of their own, a minus sign of the whole and a line feed. -/
theorem ofFields?_counts_signed :
    ∃ d, ofFields? (String.toList "-+1d -007ms\n") = some d ∧ d.days = .int 1 ∧
    d.milliseconds = .int 7 ∧
      d.minutes = .int 0 ∧ d.negative = true := by
  let days : WrittenField := ⟨.days, [], some '+', String.toList "1", none⟩
  let milliseconds : WrittenField :=
    ⟨.milliseconds, String.toList " ", some '-', String.toList "007", none⟩
  let w : WrittenFields := ⟨true, [days, milliseconds], String.toList "\n"⟩
  have hdays : days.Proper := {
    blanks := List.forall_mem_nil _
    sign := by rintro _ ⟨⟩; exact .inl rfl
    whole := ⟨by decide, List.all_eq_true.1 (by decide)⟩
    fraction := by rintro _ ⟨⟩ }
  have hmilliseconds : milliseconds.Proper := {
    blanks := List.all_eq_true.1 (by decide)
    sign := by rintro _ ⟨⟩; exact .inr rfl
    whole := ⟨by decide, List.all_eq_true.1 (by decide)⟩
    fraction := by rintro _ ⟨⟩ }
  have hproper : w.Proper := {
    units := by decide
    fields := List.forall_mem_cons.2 ⟨hdays, List.forall_mem_singleton.2 hmilliseconds⟩
    minus := fun _ => rfl
    ending := rfl }
  obtain ⟨hread, hcounts⟩ := ofFields?_counts (String.toList "-+1d -007ms\n")
  obtain ⟨d, hd⟩ := Option.isSome_iff_exists.1 (hread.2 ⟨w, hproper, rfl⟩)
  obtain ⟨habsent, hwhole, hsign⟩ := hcounts d hd w hproper rfl
  refine ⟨d, hd, ?_, ?_, habsent .minutes (by decide), hsign.2 (.inl rfl)⟩
  · exact (hwhole days List.mem_cons_self rfl).2.2 ⟨Binary64.ofInt 1, by decide +kernel⟩
  · exact (hwhole milliseconds (List.mem_cons_of_mem _ List.mem_cons_self) rfl).2.2
      ⟨Binary64.ofInt 7, by decide +kernel⟩

/-- The number after the 53rd power of two is written as a count, and one less is read. -/
theorem ofFields?_inexact : ∃ w : WrittenFields, w.Proper ∧ (∀ f ∈ w.fields, f.fraction = none) ∧
    w.text = String.toList "9007199254740993s" ∧
    ∀ d, ofFields? w.text = some d → d.seconds = .int 9007199254740992 := by
  let seconds : WrittenField := ⟨.seconds, [], none, String.toList "9007199254740993", none⟩
  have hseconds : seconds.Proper := {
    blanks := List.forall_mem_nil _
    sign := by rintro _ ⟨⟩
    whole := ⟨by decide, List.all_eq_true.1 (by decide)⟩
    fraction := by rintro _ ⟨⟩ }
  refine ⟨⟨false, [seconds], []⟩, ⟨by decide, List.forall_mem_singleton.2 hseconds, ?_, rfl⟩,
    List.forall_mem_singleton.2 rfl, rfl, ?_⟩
  · intro hhead
    cases hhead
  · have hread : (ofFields? (String.toList "9007199254740993s")).map Duration.seconds =
        some (.int 9007199254740992) := by decide +kernel
    intro d hd
    rw [show ofFields? (String.toList "9007199254740993s") = some d from hd] at hread
    exact Option.some.inj hread

end Duration

end CommandSequence
