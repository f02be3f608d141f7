import CommandSequence.Proofs.Time.Rebalancing

/-!
# Rebalancing under two limits on fraction digits

The limit counts for a rebalancing only where the timestamp in between is read back. A timestamp is
written with three fraction digits or with none, so every limit from three to the greatest one gives
the same outcome. A lower limit refuses a tag whose milliseconds are not zero, and a limit beyond
the greatest one refuses every tag (`balance_eq_of_limit`).
-/

namespace CommandSequence

open Decimal (Fixed)

/-- The milliseconds that a tag ends in. -/
theorem WholeTag.suffix_text {w : WholeTag} (h : w.Digits) {n : Nat} (hn : n < 1000) :
    ('.' : Char) :: padded 3 n <:+ w.text ↔ Decimal.value w.milliseconds = n := by
  have hend : ('.' : Char) :: w.milliseconds <:+ w.text := by
    have hclock : ('.' : Char) :: w.milliseconds <:+
        w.hours ++ (':' : Char) ::
          (w.minutes ++ (':' : Char) :: (w.seconds ++ ('.' : Char) :: w.milliseconds)) :=
      ⟨w.hours ++ (':' : Char) :: (w.minutes ++ (':' : Char) :: w.seconds), by simp⟩
    rw [text, unsigned]
    exact hclock.trans ((List.suffix_append _ _).trans (List.suffix_append _ _))
  have hlength : (('.' : Char) :: padded 3 n).length = (('.' : Char) :: w.milliseconds).length := by
    have hpadded : (padded 3 n).length = 3 := (fixed_padded (by decide) hn).length
    rw [List.length_cons, List.length_cons, hpadded, h.milliseconds.length]
  constructor
  · intro hsuffix
    have hsame := List.suffix_of_suffix_length_le hsuffix hend (Nat.le_of_eq hlength)
    have hpieces := List.cons.inj (hsame.eq_of_length hlength)
    rw [← hpieces.2, value_padded]
  · intro hvalue
    rw [← hvalue, padded_value h.milliseconds (by decide)]
    exact hend

namespace Duration

variable {places places' : Int} {text : List Char} {d : Duration}

/-- A limit below three digits refuses the tags that do not end in zero milliseconds. -/
theorem rebalanced_eq_of_limit (hthree : 3 ≤ places') (places : Int) (d : Duration) :
    d.rebalanced places = do
      let tag ← d.rebalanced places'
      if places < 3 ∧ ¬ (String.toList ".000") <:+ tag then throw .timestampUnread
      else return tag := by
  unfold rebalanced
  cases hinstant : d.anchoredInstant with
  | error e => rfl
  | ok i =>
    have hrange := inRange_of_anchoredInstant hinstant
    have hmillisecond : i.millisecond < 1000 := (Instant.inRange_numbers hrange).milliseconds
    have hzero : (String.toList ".000") <:+ (d.retagged i).text ↔ i.millisecond = 0 := by
      have hvalue : Decimal.value (d.retagged i).milliseconds = i.millisecond :=
        value_padded 3 i.millisecond
      rw [← hvalue]
      exact WholeTag.suffix_text (n := 0) (digits_retagged hrange) (by decide)
    have hpositive : (¬ (String.toList ".000") <:+ (d.retagged i).text) ↔ 0 < i.millisecond := by
      rw [hzero]
      omega
    have hmany : ¬ (places' < 3 ∧ 0 < i.millisecond) := by omega
    rw [ok_bind, ok_bind]
    by_cases hyear : i.year ≤ 1
    · rw [if_pos hyear, if_pos hyear]
      rfl
    · rw [if_neg hyear, if_neg hyear, if_neg hmany]
      simp only [pure, Except.pure, ok_bind, hpositive]

/-- A limit beyond the greatest one refuses the tags of every duration that is read at all. -/
theorem balance_of_read_beyond (hplaces : maxPlaces < places) (hthree : 3 ≤ places')
    (h : Duration.read places "seconds" text = .ok d) : (balance places text).result =
      d.rebalanced places' >>= fun _ => .error .instantOutOfRange := by
  unfold rebalanced
  cases hinstant : d.anchoredInstant with
  | error e => exact balance_of_error h hinstant
  | ok i =>
    rw [ok_bind]
    by_cases hyear : i.year ≤ 1
    · rw [if_pos hyear]
      refine balance_of_unread h hinstant ?_
      rw [timestamp_of_first_year hyear]
      rfl
    · have hmany : ¬ (places' < 3 ∧ 0 < i.millisecond) := by omega
      rw [if_neg hyear, if_neg hmany]
      refine balance_of_unread h hinstant ?_
      rw [Instant.timestamp_eq (Nat.lt_of_not_le hyear), ok_bind]
      exact readTime_of_maxPlaces_lt hplaces _

end Duration

/-- A tag is written only under a limit that is not beyond the greatest one. -/
theorem limit_of_balance {places : Int} {text tag : List Char}
    (h : (balance places text).result = .ok tag) : places ≤ maxPlaces := by
  by_contra hplaces
  have hbeyond : maxPlaces < places := Int.lt_of_not_ge hplaces
  cases hfields : Duration.ofFields? text with
  | none =>
    rw [balance_of_ofFields?_eq_none hbeyond hfields] at h
    cases h
  | some d =>
    have hread : Duration.read places "seconds" text = .ok d := by
      rw [Duration.read, hfields]
    rw [Duration.balance_of_read_beyond hbeyond (Int.le_refl 3) hread] at h
    obtain ⟨_, -, herror⟩ := bind_eq_ok.1 h
    cases herror

/-- The outcome of a rebalancing under any limit follows from that under a limit between three and
the greatest one. It is the same outcome for every such limit. A limit of one or two digits does not
read back the timestamp of a tag with milliseconds, and one beyond the greatest compiles to no
pattern, neither for the text, unless that has unit suffixes, nor for the timestamp. -/
theorem balance_eq_of_limit {places places' : Int} (hleast : 1 ≤ places) (hthree : 3 ≤ places')
    (hgreatest : places' ≤ maxPlaces) (text : List Char) :
    (balance places text).result =
      if maxPlaces < places ∧ Duration.ofFields? text = none then .error .instantOutOfRange
      else do
        let tag ← (balance places' text).result
        if maxPlaces < places then throw .instantOutOfRange
        else if places < 3 ∧ ¬ (String.toList ".000") <:+ tag then throw .timestampUnread
        else return tag := by
  rw [balance_eq_rebalanced (by omega) hgreatest]
  by_cases hplaces : maxPlaces < places
  · cases hfields : Duration.ofFields? text with
    | none =>
      rw [if_pos ⟨hplaces, rfl⟩]
      exact balance_of_ofFields?_eq_none hplaces hfields
    | some d =>
      have hread (limit : Int) : Duration.read limit "seconds" text = .ok d := by
        rw [Duration.read, hfields]
      rw [if_neg (by simp), hread, Duration.balance_of_read_beyond hplaces hthree (hread places)]
      simp only [hplaces, if_true]
      rfl
  · rw [if_neg (fun h => hplaces h.1), balance_eq_rebalanced hleast (by omega),
      Duration.read_congr hleast (by omega) (by omega) hgreatest]
    cases hread : Duration.read places' "seconds" text with
    | error e => rfl
    | ok d =>
      simp only [hplaces, if_false]
      exact Duration.rebalanced_eq_of_limit hthree places d

/-- One digit is enough for a tag without milliseconds. -/
theorem balance_eq_of_limit_oneDigit : (1 : Int) ≤ 1 ∧ (3 : Int) ≤ 6 ∧ 6 ≤ maxPlaces ∧
    (balance 1 (String.toList "001T23:90:00")).result = .ok (String.toList "002T00:30:00.000") := by
  have hsix : (balance 6 (String.toList "001T23:90:00")).result =
      .ok (String.toList "002T00:30:00.000") := by
    decide +kernel
  have hbounds : (1 : Int) ≤ 1 ∧ (3 : Int) ≤ 6 ∧ 6 ≤ maxPlaces := by decide
  refine ⟨hbounds.1, hbounds.2.1, hbounds.2.2, ?_⟩
  rw [balance_eq_of_limit hbounds.1 hbounds.2.1 hbounds.2.2, hsix]
  decide +kernel

/-- Two digits are too few for the timestamp of a tag with milliseconds, though not for the tag. -/
theorem balance_ne_of_limit : (1 : Int) ≤ 2 ∧ (1 : Int) ≤ 3 ∧
    (balance 2 (String.toList "00:00:00.125")).result = .error .timestampUnread ∧
    (balance 3 (String.toList "00:00:00.125")).result = .ok (String.toList "00:00:00.125") := by
  decide +kernel

end CommandSequence
