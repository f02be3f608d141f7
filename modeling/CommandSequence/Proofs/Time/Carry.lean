import CommandSequence.Proofs.Number.Bounds
import CommandSequence.Proofs.Time.CalendarReading
import CommandSequence.Proofs.Time.ClockTag

/-!
# Bare numbers in normal form

A bare number is a count of one unit, and its fraction a count of the next finer one. One step of
the carry moves whole coarser units up and changes no total; so a run through the units from the
finest on keeps the total (`total_carry`), if each of them is followed by the next coarser one
(`Ascends`). What a step leaves below is a remainder, which later steps do not touch
(`lt_of_mem_carry`). The counts that come out are therefore the only ones in normal form that have
the total (`WholeCounts.Normal.eq_of_total_eq`).
-/

namespace CommandSequence

open Character

/-! ## Units -/

namespace DurationUnit

/-- The length of a unit in microseconds; a year has 365 days. -/
def length : DurationUnit → Nat
  | .years => 31536000000000
  | .days => 86400000000
  | .hours => 3600000000
  | .minutes => 60000000
  | .seconds => 1000000
  | .milliseconds => 1000
  | .microseconds => 1

/-- The length of the next finer unit; there is none for microseconds. -/
def finerLength (u : DurationUnit) : Nat :=
  u.finer?.elim 0 (·.1.length)

/-- The units that are carried are those that have a coarser one. -/
theorem perCoarser?_cases (u : DurationUnit) :
    (u.perCoarser? = none ∧ u.coarser? = none) ∨ ∃ coarser ratio, u.perCoarser? = some ratio ∧
      u.coarser? = some coarser ∧ coarser.length = ratio * u.length ∧ 0 < ratio := by
  cases u
  case years => exact .inl ⟨rfl, rfl⟩
  all_goals exact .inr ⟨_, _, rfl, rfl, rfl, by decide⟩

end DurationUnit

/-! ## The carry -/

namespace Duration

/-- The units of the counts go up from one unit to years, by one at a time. -/
inductive Ascends : Option DurationUnit → List (DurationUnit × Nat) → Prop
  | nil : Ascends none []
  | cons {u : DurationUnit} {rest : List (DurationUnit × Nat)} (n : Nat)
      (h : Ascends u.coarser? rest) : Ascends (some u) ((u, n) :: rest)

/-- The sum of the counts in microseconds. -/
def total : List (DurationUnit × Nat) → Nat
  | [] => 0
  | (u, n) :: rest => n * u.length + total rest

/-- What stays at a unit and what goes up to the next one are the whole count. -/
theorem carried_eq (n ratio length : Nat) :
    n % ratio * length + n / ratio * (ratio * length) = n * length := by
  rw [← Nat.mul_assoc, ← Nat.add_mul, Nat.mul_comm (n / ratio), Nat.mod_add_div]

/-- The carry keeps the total. -/
theorem total_carry {first : Option DurationUnit} {counts : List (DurationUnit × Nat)}
    (h : Ascends first counts) (carried : Nat) :
    total (carry counts carried) = total counts + carried * first.elim 0 (·.length) := by
  induction h generalizing carried with
  | nil => rfl
  | @cons u rest n h ih =>
    rcases u.perCoarser?_cases with ⟨hlast, hnone⟩ | ⟨coarser, ratio, hratio, hcoarser, hlength, -⟩
    · have hrest := ih 0
      rw [Nat.zero_mul, Nat.add_zero] at hrest
      simp only [carry, hlast, total, hrest, Option.elim_some]
      rw [Nat.add_mul, Nat.add_right_comm]
    · have hrest := ih ((n + carried) / ratio)
      rw [hcoarser, Option.elim_some, hlength] at hrest
      simp only [carry, hratio, total, hrest, Option.elim_some]
      have hcarried := carried_eq (n + carried) ratio u.length
      rw [Nat.add_mul] at hcarried
      omega

/-- Every count but that of the years is a remainder. -/
theorem lt_of_mem_carry {counts : List (DurationUnit × Nat)} {carried : Nat} {u : DurationUnit}
    {n ratio : Nat} (h : (u, n) ∈ carry counts carried) (hratio : u.perCoarser? = some ratio) :
    n < ratio := by
  induction counts generalizing carried with
  | nil => cases h
  | cons head rest ih =>
    obtain ⟨v, m⟩ := head
    rcases v.perCoarser?_cases with ⟨hlast, -⟩ | ⟨-, perCoarser, hper, -, -, hpos⟩
    · rw [carry, hlast] at h
      rcases List.mem_cons.1 h with heq | hrest
      · cases heq
        rw [hlast] at hratio
        cases hratio
      · exact ih hrest
    · rw [carry, hper] at h
      rcases List.mem_cons.1 h with heq | hrest
      · cases heq
        rw [hper] at hratio
        cases hratio
        exact Nat.mod_lt _ hpos
      · exact ih hrest

/-- The carry leaves the units in their places. -/
theorem units_carry (counts : List (DurationUnit × Nat)) (carried : Nat) :
    (carry counts carried).map Prod.fst = counts.map Prod.fst := by
  induction counts generalizing carried with
  | nil => rfl
  | cons head rest ih =>
    rw [carry]
    split
    · rw [List.map_cons, List.map_cons, ih]
    · rw [List.map_cons, List.map_cons, ih]

end Duration

/-! ## Whole counts -/

/-- The counts of a duration of whole numbers. -/
structure WholeCounts extends ClockCounts where
  years : Nat

namespace WholeCounts

/-- The duration of the counts. -/
def duration (c : WholeCounts) : Duration :=
  { c.toClockCounts.duration with years := .int c.years }

/-- The count of a unit. -/
def count (c : WholeCounts) : DurationUnit → Nat
  | .years => c.years
  | .days => c.days
  | .hours => c.hours
  | .minutes => c.minutes
  | .seconds => c.seconds
  | .milliseconds => c.milliseconds
  | .microseconds => c.microseconds

/-- The value of the counts in microseconds, without the sign; a year has 365 days. -/
def totalMicroseconds (c : WholeCounts) : Nat :=
  (((((c.years * 365 + c.days) * 24 + c.hours) * 60 + c.minutes) * 60 + c.seconds) * 1000
    + c.milliseconds) * 1000 + c.microseconds

/-- Every count but the years is less than the next coarser unit. -/
structure Normal (c : WholeCounts) : Prop where
  microseconds : c.microseconds < 1000
  milliseconds : c.milliseconds < 1000
  seconds : c.seconds < 60
  minutes : c.minutes < 60
  hours : c.hours < 24
  days : c.days < 365

variable {c c' : WholeCounts}

/-- The counts in normal form are determined by their total: each is a remainder of what is left
when the finer ones are taken off. -/
theorem Normal.eq_of_total_eq (h : c.Normal) (h' : c'.Normal)
    (htotal : c.totalMicroseconds = c'.totalMicroseconds) (hsign : c.negative = c'.negative) :
    c = c' := by
  have remainder {a b r r' n : Nat} (hr : r < n) (hr' : r' < n) (heq : a * n + r = b * n + r') :
      a = b ∧ r = r' := by
    have hpos : 0 < n := Nat.zero_lt_of_lt hr
    have hquotient : a = b := by
      have hdiv := congrArg (· / n) heq
      simpa only [Nat.mul_comm _ n, Nat.mul_add_div hpos, Nat.div_eq_of_lt hr,
        Nat.div_eq_of_lt hr', Nat.add_zero] using hdiv
    subst hquotient
    exact ⟨rfl, Nat.add_left_cancel heq⟩
  obtain ⟨hwhole, hmicroseconds⟩ := remainder h.microseconds h'.microseconds htotal
  obtain ⟨hwhole, hmilliseconds⟩ := remainder h.milliseconds h'.milliseconds hwhole
  obtain ⟨hwhole, hseconds⟩ := remainder h.seconds h'.seconds hwhole
  obtain ⟨hwhole, hminutes⟩ := remainder h.minutes h'.minutes hwhole
  obtain ⟨hwhole, hhours⟩ := remainder h.hours h'.hours hwhole
  obtain ⟨hyears, hdays⟩ := remainder h.days h'.days hwhole
  obtain ⟨⟨days, hours, minutes, seconds, milliseconds, microseconds, negative⟩, years⟩ := c
  obtain ⟨⟨days', hours', minutes', seconds', milliseconds', microseconds', negative'⟩,
    years'⟩ := c'
  subst hmicroseconds hmilliseconds hseconds hminutes hhours hdays hyears hsign
  rfl

end WholeCounts

namespace Duration

/-- The units of a duration from the finest on go up to years. -/
theorem ascends_all (count : DurationUnit → Nat) :
    Ascends (some .microseconds) (DurationUnit.all.reverse.map fun u => (u, count u)) :=
  .cons _ <| .cons _ <| .cons _ <| .cons _ <| .cons _ <| .cons _ <| .cons _ .nil

/-- A count of each unit, finest first, makes a duration of whole counts. -/
theorem exists_wholeCounts {counts : List (DurationUnit × Nat)}
    (h : counts.map Prod.fst = DurationUnit.all.reverse) (negative : Bool) :
    ∃ c : WholeCounts, ofCounts (fun u => .int ((counts.lookup u).getD 0)) negative = c.duration ∧
      c.totalMicroseconds = total counts ∧ c.negative = negative ∧
      ∀ u, (u, c.count u) ∈ counts := by
  simp only [DurationUnit.all, List.reverse_cons, List.reverse_nil, List.nil_append,
    List.cons_append, List.map_eq_cons_iff, List.map_eq_nil_iff] at h
  obtain ⟨⟨_, microseconds⟩, _, rfl, rfl, ⟨_, milliseconds⟩, _, rfl, rfl, ⟨_, seconds⟩, _, rfl, rfl,
    ⟨_, minutes⟩, _, rfl, rfl, ⟨_, hours⟩, _, rfl, rfl, ⟨_, days⟩, _, rfl, rfl, ⟨_, years⟩, _, rfl,
    rfl, rfl⟩ := h
  refine ⟨⟨⟨days, hours, minutes, seconds, milliseconds, microseconds, negative⟩, years⟩, rfl, ?_,
    rfl, ?_⟩
  · simp only [WholeCounts.totalMicroseconds, total, DurationUnit.length]
    omega
  · intro u
    cases u
    all_goals simp [WholeCounts.count]

/-- Carried counts are in normal form, and have the total of the counts. -/
theorem exists_normal (count : DurationUnit → Nat) (negative : Bool) :
    ∃ c : WholeCounts, ofCounts (fun u => .int
        (((carry (DurationUnit.all.reverse.map fun u => (u, count u)) 0).lookup u).getD 0))
          negative = c.duration ∧
      c.Normal ∧ c.totalMicroseconds = total (DurationUnit.all.reverse.map fun u => (u, count u)) ∧
      c.negative = negative := by
  have hunits := units_carry (DurationUnit.all.reverse.map fun u => (u, count u)) 0
  rw [List.map_map, show Prod.fst ∘ (fun u => (u, count u)) = id from rfl, List.map_id] at hunits
  obtain ⟨c, hduration, htotal, hnegative, hmem⟩ := exists_wholeCounts hunits negative
  rw [total_carry (ascends_all count), Nat.zero_mul, Nat.add_zero] at htotal
  have hlt {u : DurationUnit} {ratio : Nat} (hratio : u.perCoarser? = some ratio) :
      c.count u < ratio := lt_of_mem_carry (hmem u) hratio
  refine ⟨c, hduration, ?_, htotal, hnegative⟩
  exact {
    microseconds := hlt (u := .microseconds) rfl
    milliseconds := hlt (u := .milliseconds) rfl
    seconds := hlt (u := .seconds) rfl
    minutes := hlt (u := .minutes) rfl
    hours := hlt (u := .hours) rfl
    days := hlt (u := .days) rfl }

end Duration

/-! ## Bare numbers -/

/-- A bare number as it is written: a sign or none, digits, and a fraction or none; a line feed may
stand at the end. -/
structure BareNumber where
  sign : Option Char
  whole : List Char
  fraction : Option (List Char)
  ending : List Char

namespace BareNumber

/-- The fraction as written, with its point. -/
def pointed (n : BareNumber) : List Char :=
  n.fraction.elim [] ('.' :: ·)

/-- The number as written. -/
def text (n : BareNumber) : List Char :=
  n.sign.toList ++ (n.whole ++ (n.pointed ++ n.ending))

/-- Whole part and fraction are digits, of any script, and there is at least one of them. -/
structure Proper (n : BareNumber) : Prop where
  sign : ∀ c ∈ n.sign, c = '+' ∨ c = '-'
  whole : n.whole ≠ [] ∧ ∀ c ∈ n.whole, isDigit c = true
  fraction : ∀ digits ∈ n.fraction, digits ≠ [] ∧ ∀ c ∈ digits, isDigit c = true
  ending : Cut.atEnd n.ending = true

/-- A count of the next finer unit that the fraction of a number of a unit stands for: the product
of the fraction and the ratio of the two units, as floating-point numbers, rounded to an integer.
There is nothing to count without a fraction or without a finer unit. -/
structure Rounds (n : BareNumber) (unit : DurationUnit) (k : Nat) : Prop where
  rounded : ∀ digits ∈ n.fraction, ∀ finer ratio, unit.finer? = some (finer, ratio) →
    k ≤ ratio ∧ ∃ units h, (Number.readFloat ('.' :: digits)).mul (Binary64.ofInt ratio) =
      .finite false units h ∧ k = roundDiv units Binary64.one
  missing : n.fraction = none ∨ unit.finer? = none → k = 0

end BareNumber

namespace Duration

/-- The fraction of a unit counts at most the next finer units in one. -/
theorem fractionCount_le {digits : List Char} {ratio : Nat}
    (hdigits : ∀ c ∈ digits, isDigit c = true) (hratio : ratio ≤ twoPow 53) :
    fractionCount ('.' :: digits) ratio ≤ ratio ∧ ∃ units h,
      (Number.readFloat ('.' :: digits)).mul (Binary64.ofInt ratio) = .finite false units h ∧
        fractionCount ('.' :: digits) ratio = roundDiv units Binary64.one := by
  have hread : (Number.readFloat ('.' :: digits)).AtMost 1 := by
    rw [Timestamp.readFloat_point hdigits]
    exact Binary64.atMost_ofDecimal (Decimal.value_lt digits)
  obtain ⟨units, hunits, hproduct, hle⟩ := hread.mul hratio
  have hcount : fractionCount ('.' :: digits) ratio = roundDiv units Binary64.one := by
    simp only [fractionCount, hproduct]
  refine ⟨?_, units, hunits, hproduct, hcount⟩
  rw [hcount]
  exact roundDiv_le_of_le_mul Binary64.one_pos hle

/-- The count of the next finer unit that the fraction of a number stands for. -/
def fractionOf (n : BareNumber) (unit : DurationUnit) : Nat :=
  match n.fraction, unit.finer? with
  | some digits, some (_, ratio) => fractionCount ('.' :: digits) ratio
  | _, _ => 0

theorem ratio_le {u finer : DurationUnit} {ratio : Nat} (h : u.finer? = some (finer, ratio)) :
    ratio ≤ twoPow 53 := by
  cases u
  case microseconds => cases h
  all_goals
    cases h
    decide

theorem rounds_fractionOf {n : BareNumber} (h : n.Proper) (unit : DurationUnit) :
    n.Rounds unit (fractionOf n unit) := by
  constructor
  · intro digits hdigits finer ratio hfiner
    rw [fractionOf, Option.mem_def.1 hdigits, hfiner]
    exact fractionCount_le (h.fraction digits hdigits).2 (ratio_le hfiner)
  · rintro (hmissing | hmissing)
    · rw [fractionOf, hmissing]
    · rw [fractionOf, hmissing]
      cases n.fraction with
      | none => rfl
      | some digits => rfl

/-- The counts of a bare number: its whole part in its unit, and its fraction in the next finer
one. -/
def countsOf (n : BareNumber) (unit u : DurationUnit) : Nat :=
  if u = unit then Decimal.value n.whole
  else if unit.finer?.map (·.1) = some u then fractionOf n unit else 0

theorem total_countsOf (n : BareNumber) (unit : DurationUnit) :
    total (DurationUnit.all.reverse.map fun u => (u, countsOf n unit u)) =
      Decimal.value n.whole * unit.length + fractionOf n unit * unit.finerLength := by
  generalize hcount : fractionOf n unit = k
  cases unit
  all_goals
    simp [total, countsOf, hcount, DurationUnit.all, DurationUnit.finer?, DurationUnit.finerLength,
      Nat.add_comm]

/-! ## Reading -/

/-- A sign is told from the digits after it. -/
theorem splitSign_append {sign : Option Char} {whole : List Char}
    (hsign : ∀ c ∈ sign, c = '+' ∨ c = '-')
    (hwhole : whole ≠ [] ∧ ∀ c ∈ whole, isDigit c = true) (rest : List Char) :
    Number.splitSign (sign.toList ++ (whole ++ rest)) =
      (sign == some ('-' : Char), whole ++ rest) := by
  cases sign with
  | none =>
    obtain ⟨c, more, rfl⟩ := List.exists_cons_of_ne_nil hwhole.1
    have hc : isDigit c = true := hwhole.2 c List.mem_cons_self
    rw [Option.toList_none, List.nil_append, List.cons_append]
    unfold Number.splitSign
    split
    · next heq =>
      cases heq
      exact absurd hc (by decide)
    · next heq =>
      cases heq
      exact absurd hc (by decide)
    · rfl
  | some c =>
    rcases hsign c rfl with rfl | rfl
    · rfl
    · rfl

theorem run?_of_digits {digits rest : List Char} (hne : digits ≠ [])
    (hdigits : ∀ c ∈ digits, isDigit c = true)
    (hrest : ∀ c, rest.head? = some c → isDigit c = false) :
    Cut.run? isDigit (digits ++ rest) = some (digits, rest) := by
  rw [Cut.run?, takeWhile_run hdigits hrest, dropWhile_run hdigits hrest]
  cases digits with
  | nil => exact absurd rfl hne
  | cons c digits => rfl

theorem head?_ending {ending : List Char} (h : Cut.atEnd ending = true) :
    ∀ c, ending.head? = some c → isDigit c = false ∧ c ≠ '.' := by
  intro c hc
  rcases Cut.eq_of_atEnd h with rfl | rfl
  · cases hc
  · cases hc
    decide

section

variable {fraction : Option (List Char)} {rest : List Char}

theorem head?_pointed (hrest : ∀ c, rest.head? = some c → isDigit c = false) :
    ∀ c, (fraction.elim [] (('.' : Char) :: ·) ++ rest).head? = some c → isDigit c = false := by
  intro c hc
  cases fraction with
  | none => exact hrest c hc
  | some digits =>
    cases hc
    decide

/-- The fraction that is read after the whole part is the one that is written. -/
theorem cut_pointed
    (hfraction : ∀ digits ∈ fraction, digits ≠ [] ∧ ∀ c ∈ digits, isDigit c = true)
    (hrest : ∀ c, rest.head? = some c → isDigit c = false ∧ c ≠ '.') :
    (Cut.char? '.' (fraction.elim [] (('.' : Char) :: ·) ++ rest)).bind (Cut.run? isDigit) =
      fraction.map fun digits => (digits, rest) := by
  cases fraction with
  | none =>
    cases rest with
    | nil => rfl
    | cons c more =>
      exact congrArg (Option.bind · _) (Cut.char?_cons_of_ne (hrest c rfl).2 more)
  | some digits =>
    obtain ⟨hne, hdigits⟩ := hfraction digits rfl
    exact run?_of_digits hne hdigits fun c hc => (hrest c hc).1

/-- A text begins with the fraction that is read, or none is read. -/
theorem exists_pointed (text : List Char) : ∃ (fraction : Option (List Char)) (rest : List Char),
    (∀ digits ∈ fraction, digits ≠ [] ∧ ∀ c ∈ digits, isDigit c = true) ∧
      text = fraction.elim [] (('.' : Char) :: ·) ++ rest ∧
      (Cut.char? '.' text).bind (Cut.run? isDigit) = fraction.map fun digits => (digits, rest) := by
  cases hfound : (Cut.char? '.' text).bind (Cut.run? isDigit) with
  | none =>
    refine ⟨none, text, ?_, rfl, rfl⟩
    rintro _ ⟨⟩
  | some found =>
    obtain ⟨digits, rest⟩ := found
    obtain ⟨point, hpoint, hrun⟩ := Option.bind_eq_some_iff.1 hfound
    obtain ⟨rfl, hdigits⟩ := Cut.eq_append_of_run? hrun
    refine ⟨some digits, rest, ?_, Cut.eq_cons_of_char? hpoint, rfl⟩
    rintro _ ⟨⟩
    exact hdigits

end

/-- A bare number is read by its pieces, and its counts are carried. -/
theorem ofNumber?_text {n : BareNumber} (h : n.Proper)
    (hshort : n.whole.length ≤ Decimal.digitLimit) (unit : DurationUnit) :
    ofNumber? unit n.text = .ok (some (ofCounts (fun u => .int
      (((carry (DurationUnit.all.reverse.map fun u => (u, countsOf n unit u)) 0).lookup u).getD 0))
        (n.sign == some ('-' : Char)))) := by
  have hpointed : ∀ c, (n.pointed ++ n.ending).head? = some c → isDigit c = false :=
    head?_pointed fun c hc => (head?_ending h.ending c hc).1
  have hfraction : (Cut.char? '.' (n.pointed ++ n.ending)).bind (Cut.run? isDigit) =
      n.fraction.map fun digits => (digits, n.ending) :=
    cut_pointed h.fraction (head?_ending h.ending)
  have hvalue : Decimal.value? n.whole = some (Decimal.value n.whole) := if_pos hshort
  have hsign : Number.splitSign n.text =
      (n.sign == some ('-' : Char), n.whole ++ (n.pointed ++ n.ending)) :=
    splitSign_append h.sign h.whole _
  have hwhole := run?_of_digits h.whole.1 h.whole.2 hpointed
  have hleft : Cut.atEnd (((n.fraction.map fun digits => (digits, n.ending)).map (·.2)).getD
      (n.pointed ++ n.ending)) = true := by
    cases hfraction : n.fraction with
    | none =>
      rw [BareNumber.pointed, hfraction]
      exact h.ending
    | some digits => exact h.ending
  simp only [ofNumber?, hsign, hwhole, hfraction, hleft, hvalue, if_true]
  -- the two sides differ in the counts that are carried, unit by unit
  refine congrArg (fun count : DurationUnit → Nat => Except.ok (some (ofCounts (fun u => .int
    (((carry (DurationUnit.all.reverse.map fun u => (u, count u)) 0).lookup u).getD 0))
      (n.sign == some ('-' : Char))))) (funext fun u => ?_)
  unfold countsOf fractionOf
  cases n.fraction with
  | none => simp
  | some digits =>
    cases unit.finer? with
    | none => simp
    | some next => simp [eq_comm]

theorem splitSign_eq_unsigned (text : List Char) :
    (Number.splitSign text).2 = TagGrammar.unsigned text := by
  unfold Number.splitSign
  split
  · rfl
  · rfl
  · next hminus hplus =>
    cases text with
    | nil => rfl
    | cons c more =>
      have hdash : c ≠ '-' := fun heq => hminus more (heq ▸ rfl)
      have hcross : c ≠ '+' := fun heq => hplus more (heq ▸ rfl)
      rw [TagGrammar.unsigned, TagGrammar.signed_cons_of_ne hcross hdash]
      rfl

/-- A text begins with the sign that is split off. -/
theorem exists_sign (text : List Char) : ∃ sign : Option Char, (∀ c ∈ sign, c = '+' ∨ c = '-') ∧
    sign.toList ++ (Number.splitSign text).2 = text := by
  unfold Number.splitSign
  split
  · refine ⟨some '-', ?_, rfl⟩
    rintro _ ⟨⟩
    exact .inr rfl
  · refine ⟨some '+', ?_, rfl⟩
    rintro _ ⟨⟩
    exact .inl rfl
  · refine ⟨none, ?_, rfl⟩
    intro c hc
    cases hc

/-- Nothing but a bare number is read as one. -/
theorem exists_bareNumber {unit : DurationUnit} {text : List Char} {d : Duration}
    (h : ofNumber? unit text = .ok (some d)) :
    ∃ n : BareNumber, n.Proper ∧ n.whole.length ≤ Decimal.digitLimit ∧ n.text = text := by
  obtain ⟨sign, hsign, htext⟩ := exists_sign text
  unfold ofNumber? at h
  dsimp only at h
  split at h
  · cases h
  · next whole rest hwhole =>
    obtain ⟨hmagnitude, hdigits⟩ := Cut.eq_append_of_run? hwhole
    split at h
    · next hend =>
      split at h
      · cases h
      · next value hvalue =>
        have hshort : whole.length ≤ Decimal.digitLimit := by
          by_contra hlong
          rw [Decimal.value?, if_neg hlong] at hvalue
          cases hvalue
        rw [← htext, hmagnitude]
        obtain ⟨fraction, ending, hfraction, rfl, hfound⟩ := exists_pointed rest
        have hending : ((fraction.map fun digits => (digits, ending)).map (·.2)).getD
            (fraction.elim [] (('.' : Char) :: ·) ++ ending) = ending := by
          cases fraction with
          | none => rfl
          | some digits => rfl
        rw [hfound, hending] at hend
        exact ⟨⟨sign, whole, fraction, ending⟩, ⟨hsign, hdigits, hfraction, hend⟩, hshort, rfl⟩
    · cases h

/-- What a bare number is read as is in normal form. -/
theorem exists_normal_of_ofNumber? {unit : DurationUnit} {text : List Char} {d : Duration}
    (h : ofNumber? unit text = .ok (some d)) : ∃ c : WholeCounts, c.Normal ∧ d = c.duration := by
  obtain ⟨n, hn, hshort, rfl⟩ := exists_bareNumber h
  obtain ⟨c, hduration, hnormal, -⟩ := exists_normal (countsOf n unit) (n.sign == some ('-' : Char))
  rw [ofNumber?_text hn hshort, hduration] at h
  cases h
  exact ⟨c, hnormal, rfl⟩

/-- A bare number of a unit is read as the counts in normal form that have its value: its whole part
in that unit, and in the next finer unit its fraction, rounded. Nothing else is read as one. -/
theorem ofNumber?_normal (unit : DurationUnit) :
    (∀ n : BareNumber, n.Proper → n.whole.length ≤ Decimal.digitLimit →
      ∃ (c : WholeCounts) (k : Nat), ofNumber? unit n.text = .ok (some c.duration) ∧ c.Normal ∧
        n.Rounds unit k ∧ c.totalMicroseconds =
          Decimal.value n.whole * unit.length + k * unit.finerLength ∧
        (c.negative = true ↔ n.sign = some ('-' : Char)) ∧
        ∀ c' : WholeCounts, c'.Normal → c'.totalMicroseconds = c.totalMicroseconds →
          c'.negative = c.negative → c' = c) ∧
      ∀ text d, ofNumber? unit text = .ok (some d) →
        ∃ n : BareNumber, n.Proper ∧ n.whole.length ≤ Decimal.digitLimit ∧ n.text = text := by
  refine ⟨fun n hn hshort => ?_, fun text d => exists_bareNumber⟩
  obtain ⟨c, hduration, hnormal, htotal, hnegative⟩ :=
    exists_normal (countsOf n unit) (n.sign == some ('-' : Char))
  refine ⟨c, fractionOf n unit, ?_, hnormal, rounds_fractionOf hn unit,
    htotal.trans (total_countsOf n unit), ?_, ?_⟩
  · rw [ofNumber?_text hn hshort, hduration]
  · rw [hnegative, beq_iff_eq]
  · intro c' hnormal' htotal' hnegative'
    exact hnormal'.eq_of_total_eq hnormal htotal' hnegative'

/-- A fraction that is rounded up to a whole day carries into the second day of the third year; a
sign, a fraction and a line feed make a bare number. -/
theorem ofNumber?_normal_roundedUp :
    (∃ c : WholeCounts, ofNumber? .days (String.toList "-731.99999999999999999999") =
      .ok (some c.duration) ∧
      c.Normal ∧ c.totalMicroseconds = 732 * 86400000000 ∧ c.negative = true) ∧
      ∃ n : BareNumber, n.Proper ∧ n.whole.length ≤ Decimal.digitLimit ∧
        n.text = String.toList "+90.5\n" := by
  constructor
  · let digits := String.toList "99999999999999999999"
    let n : BareNumber := ⟨some '-', String.toList "731", some digits, []⟩
    have hproper : n.Proper := {
      sign := by rintro _ ⟨⟩; exact .inr rfl
      whole := ⟨by decide, List.all_eq_true.1 (by decide)⟩
      fraction := by
        rintro _ ⟨⟩
        exact ⟨by decide, List.all_eq_true.1 (by decide)⟩
      ending := rfl }
    obtain ⟨c, k, hread, hnormal, hk, htotal, hnegative, -⟩ :=
      (ofNumber?_normal .days).1 n hproper (by decide)
    obtain ⟨-, units, h, hproduct, hround⟩ := hk.rounded digits rfl .hours 24 rfl
    have hwhole : (Number.readFloat ('.' :: digits)).mul (Binary64.ofInt 24) =
        .finite false (24 * Binary64.one) (Binary64.representable_mul_one (by decide)) := by
      decide +kernel
    obtain ⟨-, hunits⟩ := Binary64.finite.inj (hproduct.symm.trans hwhole)
    have hsum : Decimal.value (String.toList "731") * DurationUnit.days.length +
        24 * DurationUnit.days.finerLength = 732 * 86400000000 := by decide +kernel
    rw [hround, hunits, roundDiv_mul_self Binary64.one_pos] at htotal
    exact ⟨c, hread, hnormal, htotal.trans hsum, hnegative.2 rfl⟩
  · exact (ofNumber?_normal .seconds).2 _
      (WholeCounts.duration ⟨⟨0, 0, 1, 30, 500, 0, false⟩, 0⟩) (by decide +kernel)

end Duration

end CommandSequence
