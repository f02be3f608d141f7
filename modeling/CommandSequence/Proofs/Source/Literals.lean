import CommandSequence.Document.OfOutline
import CommandSequence.Proofs.Json.RoundTrip
import CommandSequence.Proofs.Number.LongRuns
import CommandSequence.Proofs.Source.Lexing

/-!
# String and number literals

A quoted string holds no control character, is cut off the front of every text as it was written
and is read back as the string (`Quoted.encode_delimits`). A number keeps its value and its kind
through its text (`Number.literal_delimits`): what is written is a numeral, and what cannot continue
a numeral or a word ends it.

A text on one line is a numeral exactly if it spells a number, but for the length of integers. The
automaton that accepts numerals and the one that cuts them run through the same stages, so a text
is accepted if and only if the whole of it is cut (`Numeral.cut?_eq_iff`).
-/

namespace CommandSequence

open Character
open Source (Cursor Terminal Begins Line)

/-! ## Strings -/

namespace Character

theorem space_le_hexDigit : ∀ n < 16, ' '.toNat ≤ (hexDigit n).toNat := by
  decide

end Character

namespace Quoted

theorem space_le_of_mem_letters : ∀ pair ∈ letters, ' '.toNat ≤ pair.1.toNat := by
  decide

/-- No character is written with a control character. -/
theorem space_le_of_mem_escape {c x : Char} (hx : x ∈ escape c) : ' '.toNat ≤ x.toNat := by
  have hslash : ' '.toNat ≤ '\\'.toNat := by decide
  have hu : ' '.toNat ≤ 'u'.toNat := by decide
  rcases escape_cases c with ⟨letter, hc, hletter⟩ | ⟨hc, -⟩ | ⟨hc, hhigh, -⟩
  · rw [hc] at hx
    simp only [List.mem_cons, List.not_mem_nil, or_false] at hx
    rcases hx with rfl | rfl
    · exact hslash
    · exact space_le_of_mem_letters _ hletter
  · have hdigit (n : Nat) : ' '.toNat ≤ (hexDigit (n % 16)).toNat :=
      space_le_hexDigit _ (Nat.mod_lt n (by decide))
    rw [hc, hexDigits_four] at hx
    simp only [List.mem_cons, List.not_mem_nil, or_false] at hx
    rcases hx with rfl | rfl | rfl | rfl | rfl | rfl
    · exact hslash
    · exact hu
    all_goals apply hdigit
  · rw [hc] at hx
    rw [List.mem_singleton.1 hx]
    exact hhigh

/-- A quoted string holds no control character. -/
theorem space_le_of_mem_encode {s : List Char} {x : Char} (hx : x ∈ encode s) :
    ' '.toNat ≤ x.toNat := by
  have hquote : ' '.toNat ≤ '"'.toNat := by decide
  simp only [encode, List.mem_cons, List.mem_append, List.mem_flatMap, List.not_mem_nil,
    or_false] at hx
  rcases hx with rfl | ⟨c, -, hc⟩ | rfl
  · exact hquote
  · exact space_le_of_mem_escape hc
  · exact hquote

/-- The JSON reader of single tokens, too, reads a quoted string back. -/
theorem read_encode (s : List Char) :
    Json.read .token (encode s) = .ok (.string (String.ofList s)) := by
  have hsound : Json.Value.Sound (Number.Fits Json.Demands.token.shortNumbers)
      (.string (String.ofList s)) := .string _
  have hread : Json.read .token (Json.Value.write none (.string (String.ofList s))) =
      .ok (.string (String.ofList s)) := Json.read_write hsound (Nat.zero_le _) (.inl rfl)
  rwa [Json.Value.write, Json.Value.writeAt, String.toList_ofList] at hread

/-- A quoted string is delimited by itself and read back: wherever strings are looked for it is cut
off exactly, whatever follows and whatever else is looked for, none of its characters is a control
character, and each reader gives the string that was quoted. -/
theorem encode_delimits (s rest : List Char) :
    Terminal.cut? .string (encode s ++ rest) = some (encode s, rest) ∧
    (∀ kinds, .string ∈ kinds →
      Cursor.firstCut? kinds (encode s ++ rest) = some (.string, encode s, rest)) ∧
    (∀ c ∈ encode s, ' '.toNat ≤ c.toNat) ∧
    decode? (encode s) = some s ∧
    Json.read .token (encode s) = .ok (.string (String.ofList s)) ∧
    ∀ position, OfOutline.string ⟨.string, encode s, position⟩ = .ok (String.ofList s) := by
  have hbegins := Begins.string s rest
  refine ⟨hbegins.cut, ?_, ?_, decode?_encode s, read_encode s, ?_⟩
  · intro kinds hkind
    exact Cursor.firstCut?_eq hkind hbegins.cut fun rival hrival _ => hbegins.rivals rival hrival
  · intro c hc
    exact space_le_of_mem_encode hc
  · intro position
    simp only [OfOutline.string, decode?_encode]

end Quoted

/-! ## Numerals -/

namespace Numeral

variable {stage : Stage} {text : List Char}

/-- What completes a numeral is taken as a whole. -/
theorem Stage.cut?_of_accepts (h : stage.accepts text = true) :
    stage.cut? text = some (text, []) := by
  induction text generalizing stage with
  | nil =>
    have hfinal : stage.isFinal = true := h
    rw [Stage.cut?, if_pos hfinal]
  | cons c text ih =>
    unfold Stage.accepts at h
    split at h
    · next next hnext => exact Stage.cut?_cons hnext (ih h)
    · cases h

/-- A text is a numeral exactly if the whole of it is cut as one. -/
theorem cut?_eq_iff : Terminal.cut? .number text = some (text, []) ↔ accepts text = true :=
  ⟨Stage.accepts_of_cut?, Stage.cut?_of_accepts⟩

/-- Where a whole part may begin, digits are one. -/
theorem Stage.accepts_digits (hstage : ∀ c, isDigit c = true → stage.next? c = some .whole)
    (hne : text ≠ []) (h : ∀ c ∈ text, isDigit c = true) : stage.accepts text = true := by
  obtain ⟨c, digits, rfl⟩ := List.exists_cons_of_ne_nil hne
  obtain ⟨hc, hdigits⟩ := List.forall_mem_cons.1 h
  have hcut := Stage.cut?_digits (fun _ => Stage.next?_whole) hdigits
    (Stage.cut?_end rfl endsNumber_nil)
  rw [List.append_nil] at hcut
  exact Stage.accepts_of_cut? (Stage.cut?_cons (hstage c hc) hcut)

/-- A sign and digits are a numeral. -/
theorem accepts_of_isIntegerNumeral (h : Number.isIntegerNumeral text = true) :
    accepts text = true := by
  simp only [Number.isIntegerNumeral, Bool.and_eq_true, Bool.not_eq_true', List.all_eq_true,
    List.isEmpty_eq_false_iff] at h
  have hsigned {digits : List Char}
      (h : digits ≠ [] ∧ ∀ c ∈ digits, isDigit c = true) : Stage.signed.accepts digits = true :=
    Stage.accepts_digits (fun _ => Stage.next?_signed) h.1 h.2
  unfold Number.splitSign at h
  split at h
  · exact hsigned h
  · exact hsigned h
  · exact Stage.accepts_digits (fun _ => Stage.next?_start) h.1 h.2

end Numeral

namespace Number

variable {text : List Char}

/-- An integer is read if it is short enough. -/
theorem readInt_eq_ok_iff : (∃ n, readInt text = .ok n) ↔
    (splitSign text).2.length ≤ Decimal.digitLimit := by
  simp only [readInt, Decimal.value?]
  by_cases h : (splitSign text).2.length ≤ Decimal.digitLimit
  · simp [h]
  · simp [h]

/-- A text on one line spells a number exactly if it is a numeral, and short if it is that of an
integer. -/
theorem read?_eq_some_iff (h : ('\n' : Char) ∉ text) : (∃ n, read? text = .ok (some n)) ↔
    Numeral.accepts text = true ∧
      (isIntegerNumeral text = true → (splitSign text).2.length ≤ Decimal.digitLimit) := by
  simp only [read?, dropFinalNewline_of_notMem h]
  by_cases hint : isIntegerNumeral text = true
  · rw [if_pos hint, ← readInt_eq_ok_iff]
    simp only [Numeral.accepts_of_isIntegerNumeral hint, hint, true_and, forall_const]
    cases readInt text <;> simp [Except.map]
  · rw [if_neg hint]
    by_cases haccepts : Numeral.accepts text = true
    · simp [haccepts, hint]
    · simp [haccepts]

/-- A text on one line that is no numeral spells nothing, and every other such text something. -/
theorem read?_eq_none_iff (h : ('\n' : Char) ∉ text) :
    read? text = .ok none ↔ Numeral.accepts text = false := by
  constructor
  · intro hread
    cases haccepts : Numeral.accepts text with
    | false => rfl
    | true => exact absurd hread (read?_ne_none haccepts)
  · intro haccepts
    have hint : isIntegerNumeral text = false := by
      cases hint : isIntegerNumeral text with
      | false => rfl
      | true =>
        rw [Numeral.accepts_of_isIntegerNumeral hint] at haccepts
        cases haccepts
    simp only [read?, dropFinalNewline_of_notMem h, hint, haccepts, Bool.false_eq_true, if_false]

/-- A number that is finite and no longer than integers may be has a text. -/
theorem exists_literal {v : Number} (hfinite : v.isFinite = true)
    (hshort : ∀ n, v = .int n → (Decimal.ofNat n.natAbs).length ≤ Decimal.digitLimit) :
    ∃ text, v.literal = .ok text := by
  cases v with
  | int n =>
    have hwritable : Decimal.writable n = true := Decimal.writable_iff.2 (hshort n rfl)
    exact ⟨Decimal.ofInt n, by simp only [literal, hwritable, if_true]⟩
  | float x =>
    have hx : x.isFinite = true := hfinite
    exact ⟨x.write, by simp only [literal, hx, if_true]⟩

/-- A number keeps its value and kind through its text, which is delimited by whatever continues
neither a numeral nor a word: wherever numbers are looked for, the places of arguments among them,
the text is cut off exactly. A text on one line is a numeral exactly if it spells a number, except
that an integer may have too many digits to be read. -/
theorem literal_delimits (v : Number) (line : List Char) :
    (v.isFinite = true →
      (∀ n, v = .int n → (Decimal.ofNat n.natAbs).length ≤ Decimal.digitLimit) →
      ∃ text, v.literal = .ok text ∧ read? text = .ok (some v) ∧
        ∀ rest, EndsNumber rest →
          Terminal.cut? .number (text ++ rest) = some (text, rest) ∧
          ∀ kinds, .number ∈ kinds →
            Cursor.firstCut? kinds (text ++ rest) = some (.number, text, rest)) ∧
    (('\n' : Char) ∉ line →
      (read? line = .ok none ↔ Terminal.cut? .number line ≠ some (line, [])) ∧
      ((∃ n, read? line = .ok (some n)) ↔ Terminal.cut? .number line = some (line, []) ∧
        (isIntegerNumeral line = true → (splitSign line).2.length ≤ Decimal.digitLimit))) := by
  constructor
  · intro hfinite hshort
    obtain ⟨text, hwrite⟩ := exists_literal hfinite hshort
    obtain ⟨s, rfl, hs, hread⟩ := exists_spelling hwrite
    refine ⟨_, hwrite, hread, ?_⟩
    intro rest hrest
    have hbegins := Begins.number hs hrest
    refine ⟨hbegins.cut, ?_⟩
    intro kinds hkind
    exact Cursor.firstCut?_eq hkind hbegins.cut fun rival hrival _ => hbegins.rivals rival hrival
  · intro hline
    rw [ne_eq, Numeral.cut?_eq_iff, Bool.not_eq_true]
    exact ⟨read?_eq_none_iff hline, read?_eq_some_iff hline⟩

/-- Negative zero keeps its sign and its kind, at the end of a group of arguments; a fraction alone
is a number. -/
theorem literal_delimits_minusZero :
    (∃ text, Number.literal (.float (.zero true)) = .ok text ∧
      read? text = .ok (some (.float (.zero true))) ∧
      Cursor.firstCut? Line.itemLevel.admits (text ++ [(']' : Char)]) =
        some (.number, text, [(']' : Char)])) ∧
    ∃ v, read? ['.', '5'] = .ok (some v) := by
  obtain ⟨hwritten, hspelt⟩ := literal_delimits (.float (.zero true)) ['.', '5']
  constructor
  · obtain ⟨text, hwrite, hread, hcut⟩ := hwritten rfl fun _ h => by cases h
    have hends : EndsNumber [']'] := endsNumber_cons (by decide) (by decide) (by decide)
    exact ⟨text, hwrite, hread, (hcut _ hends).2 _ (by decide)⟩
  · have hwhole : Terminal.cut? .number ['.', '5'] = some ([('.' : Char), '5'], []) := by decide
    exact (hspelt (by decide)).2.2 ⟨hwhole, fun hint => by cases hint⟩

/-- An integer of one digit more than are read is a numeral all the same, but spells no number. -/
theorem read?_overlong :
    ('\n' : Char) ∉ List.replicate 4301 ('1' : Char) ∧
    Terminal.cut? .number (List.replicate 4301 ('1' : Char)) =
      some (List.replicate 4301 ('1' : Char), []) ∧
    ¬∃ v, read? (List.replicate 4301 ('1' : Char)) = .ok (some v) := by
  have hone : isDigit '1' = true := by decide
  have hnewline : isDigit '\n' = false := by decide
  have hlength : (List.replicate 4301 ('1' : Char)).length = 4301 := List.length_replicate
  have hlong : Decimal.digitLimit < (List.replicate 4301 ('1' : Char)).length := by
    rw [hlength, Decimal.digitLimit]
    omega
  have hdigits : ∀ c ∈ List.replicate 4301 ('1' : Char), isDigit c = true := by
    intro c hc
    rw [List.eq_of_mem_replicate hc]
    exact hone
  generalize List.replicate 4301 ('1' : Char) = ones at hlong hdigits
  have hne : ones ≠ [] := by
    rintro rfl
    cases hlong
  refine ⟨?_, ?_, ?_⟩
  · intro hmem
    rw [hdigits _ hmem] at hnewline
    cases hnewline
  · exact Numeral.cut?_eq_iff.2
      (Numeral.Stage.accepts_digits (fun _ => Numeral.Stage.next?_start) hne hdigits)
  · rintro ⟨v, hread⟩
    rw [read?_of_digits hdigits hlong] at hread
    cases hread

end Number

end CommandSequence
