import CommandSequence.Source.Terminal
import CommandSequence.Text.Quoted
import Mathlib.Tactic.SplitIfs

/-!
# Reading quoted strings back

Encoding a string is undone by decoding (`decodeTail?_encode`, `decode?_encode`), whatever the
reader thinks of control characters, for encoding leaves none. An encoded string stays on its line
and ends at its closing quote, so the terminal of strings takes it exactly (`cutString?_encode`).

`Denotes` is the notation of the JSON standard for strings. It is decoded as it denotes
(`Denotes.decode?`) and taken exactly (`Denotes.isBody`), and encoding uses a part of it
(`denotes_encode`).
-/

namespace CommandSequence

open Character

namespace Character

theorem hexValue?_hexDigit : ∀ n < 16, hexValue? (hexDigit n) = some n := by
  decide

/-- No hexadecimal digit has a meaning of its own in a quoted string. -/
theorem hexDigit_plain : ∀ n < 16, hexDigit n ≠ '\\' ∧ hexDigit n ≠ '"' ∧ hexDigit n ≠ '\n' ∧
    hexDigit n ≠ '\r' := by
  decide

theorem hexDigits_plain (width n : Nat) :
    ∀ c ∈ hexDigits width n, c ≠ '\\' ∧ c ≠ '"' ∧ c ≠ '\n' ∧ c ≠ '\r' := by
  induction width generalizing n with
  | zero => intro c hc; cases hc
  | succ width ih =>
    intro c hc
    rcases List.mem_append.1 hc with hc | hc
    · exact ih _ c hc
    · rw [List.mem_singleton.1 hc]
      exact hexDigit_plain _ (Nat.mod_lt n (by decide))

theorem hexDigits_four (n : Nat) : hexDigits 4 n =
    [hexDigit (n / 16 / 16 / 16 % 16), hexDigit (n / 16 / 16 % 16), hexDigit (n / 16 % 16),
      hexDigit (n % 16)] :=
  rfl

end Character

namespace Quoted

/-- Whether a character stands for itself between quotes, whatever it is otherwise. -/
def IsPlain (c : Char) : Prop :=
  c ≠ '\\' ∧ c ≠ '"' ∧ c ≠ '\n' ∧ c ≠ '\r'

instance (c : Char) : Decidable (IsPlain c) :=
  inferInstanceAs (Decidable (_ ∧ _))

/-- The letters of the escape sequences, and the characters that they stand for. -/
def letters : List (Char × Char) :=
  [('"', '"'), ('\\', '\\'), ('/', '/'), ('b', '\x08'), ('f', '\x0c'), ('n', '\n'), ('r', '\r'),
    ('t', '\t')]

theorem ofLetter?_of_mem : ∀ pair ∈ letters,
    ofLetter? pair.1 = some pair.2 ∧ pair.1 ≠ 'u' ∧ pair.1 ≠ '\n' ∧ pair.1 ≠ '\r' := by
  decide

/-- How a character is written between quotes: by an escape letter, as itself, or by its code. -/
theorem escape_cases (c : Char) :
    (∃ letter : Char, escape c = [('\\' : Char), letter] ∧ (letter, c) ∈ letters) ∨
    (escape c = ('\\' : Char) :: ('u' : Char) :: hexDigits 4 c.toNat ∧ c.toNat < 0x20) ∨
    (escape c = [c] ∧ 0x20 ≤ c.toNat ∧ c ≠ '"' ∧ c ≠ '\\' ∧ c ≠ '\n' ∧ c ≠ '\r') := by
  unfold escape
  cases hletter : escapeLetter? c with
  | some letter =>
    refine .inl ⟨letter, rfl, ?_⟩
    unfold escapeLetter? at hletter
    split_ifs at hletter with h1 h2 h3 h4 h5 h6 h7
    all_goals cases hletter
    · rw [beq_iff_eq.1 h1]; decide
    · rw [beq_iff_eq.1 h2]; decide
    · rw [beq_iff_eq.1 h3]; decide
    · rw [beq_iff_eq.1 h4]; decide
    · rw [beq_iff_eq.1 h5]; decide
    · rw [beq_iff_eq.1 h6]; decide
    · rw [beq_iff_eq.1 h7]; decide
  | none =>
    by_cases hlow : c.toNat < 0x20
    · exact .inr (.inl ⟨if_pos hlow, hlow⟩)
    · refine .inr (.inr ⟨if_neg hlow, by omega, ?_, ?_, ?_, ?_⟩)
      all_goals rintro rfl; cases hletter

/-! ## Decoding -/

theorem unit?_hexDigits {n : Nat} (h : n < 0x10000) :
    unit? (hexDigit (n / 16 / 16 / 16 % 16)) (hexDigit (n / 16 / 16 % 16))
      (hexDigit (n / 16 % 16)) (hexDigit (n % 16)) = some n := by
  have hmod (m : Nat) : m % 16 < 16 := Nat.mod_lt m (by decide)
  have hsum : n / 16 / 16 / 16 % 16 * 4096 + n / 16 / 16 % 16 * 256 + n / 16 % 16 * 16 + n % 16 =
      n := by omega
  simp [unit?, hexValue?_hexDigit _ (hmod _), hsum]

section Steps

variable {controls : Bool} {leading : Option Nat} {text s left : List Char}

theorem decodeTail?_plain {c : Char} (hc : c ≠ '\\' ∧ c ≠ '"')
    (hcontrol : controls = true ∨ 0x20 ≤ c.toNat)
    (h : decodeTail? controls none text = some (s, left)) :
    decodeTail? controls leading (c :: text) = some (alone leading ++ c :: s, left) := by
  have hadmitted : (!controls && decide (c.toNat < 0x20)) = false := by
    rcases hcontrol with rfl | hhigh
    · rfl
    · rw [decide_eq_false (by omega), Bool.and_false]
  unfold decodeTail?
  split
  · next heq => cases heq
  · next heq => cases heq; exact absurd rfl hc.1
  · next heq => cases heq; exact absurd rfl hc.1
  · next heq =>
    cases heq
    simp [beq_eq_false_iff_ne.2 hc.1, beq_eq_false_iff_ne.2 hc.2, hadmitted, h, prepend]

theorem decodeTail?_letter {letter c : Char} (hu : letter ≠ 'u')
    (hletter : ofLetter? letter = some c)
    (h : decodeTail? controls none text = some (s, left)) :
    decodeTail? controls leading ('\\' :: letter :: text) =
      some (alone leading ++ c :: s, left) := by
  unfold decodeTail?
  split
  · next heq => cases heq
  · next heq => cases heq; exact absurd rfl hu
  · next heq => cases heq; simp [hletter, h, prepend]
  · next hnot heq => cases heq; exact (hnot _ _ rfl rfl).elim

/-- The code of the first half of a pair leaves the pair open. -/
theorem decodeTail?_leading {a b c d : Char} {unit : Nat} (hcode : unit? a b c d = some unit)
    (hlead : isLeading unit = true)
    (h : decodeTail? controls (some unit) text = some (s, left)) :
    decodeTail? controls leading ('\\' :: 'u' :: a :: b :: c :: d :: text) =
      some (alone leading ++ s, left) := by
  simp [decodeTail?, hcode, hlead, h, prepend]

/-- Any other code is a character of its own, unless it closes an open pair. -/
theorem decodeTail?_code {a b c d ch : Char} (hcode : unit? a b c d = some ch.toNat)
    (hlead : isLeading ch.toNat = false) (hopen : leading = none ∨ isTrailing ch.toNat = false)
    (h : decodeTail? controls none text = some (s, left)) :
    decodeTail? controls leading ('\\' :: 'u' :: a :: b :: c :: d :: text) =
      some (alone leading ++ ch :: s, left) := by
  have hresolve : resolve leading ch.toNat = alone leading ++ [ch] := by
    rcases leading with - | first
    · simp [resolve, alone]
    · simp [resolve, alone, hopen.resolve_left (Option.some_ne_none first)]
  simp [decodeTail?, hcode, hlead, h, prepend, hresolve]

/-- The codes of a pair are one character. -/
theorem decodeTail?_pair {a b c d a' b' c' d' : Char} {first second : Nat}
    (hfirst : unit? a b c d = some first) (hsecond : unit? a' b' c' d' = some second)
    (hlead : isLeading first = true) (htrail : isTrailing second = true)
    (h : decodeTail? controls none text = some (s, left)) :
    decodeTail? controls leading
        ('\\' :: 'u' :: a :: b :: c :: d :: '\\' :: 'u' :: a' :: b' :: c' :: d' :: text) =
      some (alone leading ++ ofPair first second :: s, left) := by
  have hnot : isLeading second = false := by
    simp only [isLeading, isTrailing, Bool.and_eq_true, decide_eq_true_eq, Bool.and_eq_false_iff,
      decide_eq_false_iff_not] at htrail ⊢
    omega
  refine decodeTail?_leading hfirst hlead ?_
  simp [decodeTail?, hsecond, hnot, htrail, h, prepend, resolve]

end Steps

/-- Plain characters are decoded as they stand. -/
theorem decodeTail?_run {run text s left : List Char} (hrun : ∀ c ∈ run, IsPlain c)
    (h : decodeTail? true none text = some (s, left)) :
    decodeTail? true none (run ++ text) = some (run ++ s, left) := by
  induction run with
  | nil => exact h
  | cons c run ih =>
    obtain ⟨hc, hrest⟩ := List.forall_mem_cons.1 hrun
    exact decodeTail?_plain ⟨hc.1, hc.2.1⟩ (.inl rfl) (ih hrest)

theorem decodeTail?_nil {controls : Bool} {leading : Option Nat} (rest : List Char) :
    decodeTail? controls leading (('"' : Char) :: rest) = some (alone leading, rest) := by
  simp [decodeTail?]

theorem decode?_plain {s : List Char} (hs : ∀ c ∈ s, IsPlain c) :
    decode? (('"' : Char) :: (s ++ [('"' : Char)])) = some s := by
  have h := decodeTail?_run hs (decodeTail?_nil [])
  simp [decode?, h, alone]

/-! ## The terminal of strings -/

open Source.Terminal (cutStringTail? cutString?)

theorem cutStringTail?_plain {c : Char} {text body left : List Char} (hc : IsPlain c)
    (h : cutStringTail? text = some (body, left)) :
    cutStringTail? (c :: text) = some (c :: body, left) := by
  obtain ⟨hb, hq, hn, hr⟩ := hc
  unfold cutStringTail?
  split
  · next heq => cases heq
  · next heq => cases heq; exact absurd rfl hb
  · next heq => cases heq; exact absurd rfl hb
  · next heq => cases heq; simp [hq, hn, hr, h]

theorem cutStringTail?_run {run text body left : List Char} (hrun : ∀ c ∈ run, IsPlain c)
    (h : cutStringTail? text = some (body, left)) :
    cutStringTail? (run ++ text) = some (run ++ body, left) := by
  induction run with
  | nil => exact h
  | cons c run ih =>
    exact cutStringTail?_plain (hrun c (List.mem_cons_self ..))
      (ih fun d hd => hrun d (List.mem_cons_of_mem c hd))

/-- The characters between quotes are up to the quote that ends a token. -/
def IsBody (s : List Char) : Prop :=
  ∀ rest, cutStringTail? (s ++ ('"' : Char) :: rest) = some (s ++ [('"' : Char)], rest)

theorem isBody_nil : IsBody [] := by
  intro rest
  simp [cutStringTail?]

theorem IsBody.append {run s : List Char} (hrun : ∀ c ∈ run, IsPlain c) (hs : IsBody s) :
    IsBody (run ++ s) := by
  intro rest
  rw [List.append_assoc, List.append_assoc]
  exact cutStringTail?_run hrun (hs rest)

theorem IsBody.escaped {c : Char} {s : List Char} (hs : IsBody s) (hc : c ≠ '\n') :
    IsBody ('\\' :: c :: s) := by
  intro rest
  simp [cutStringTail?, hc, hs rest]

theorem isBody_of_plain {s : List Char} (hs : ∀ c ∈ s, IsPlain c) : IsBody s := by
  simpa using isBody_nil.append hs

/-! ## The notation of strings -/

/-- Whether what stands between quotes begins with the code of the second half of a surrogate
pair. -/
def beginsTrailing : List Char → Bool
  | '\\' :: 'u' :: a :: b :: c :: d :: _ => (unit? a b c d).any isTrailing
  | _ => false

/-- What stands between quotes denotes a string: character by character as itself, by an escape
letter, by its code, or by the two codes of a surrogate pair. The code of half a pair denotes the
half, as long as the other half does not make a pair of the two. -/
inductive Denotes : List Char → List Char → Prop
  | nil : Denotes [] []
  | plain {c : Char} {body s : List Char} (hc : 0x20 ≤ c.toNat ∧ c ≠ '"' ∧ c ≠ '\\')
    (h : Denotes body s) : Denotes (c :: body) (c :: s)
  | letter {letter c : Char} {body s : List Char} (hletter : (letter, c) ∈ letters)
    (h : Denotes body s) : Denotes ('\\' :: letter :: body) (c :: s)
  | code {a b c d ch : Char} {body s : List Char} (hcode : unit? a b c d = some ch.toNat)
    (hopen : isLeading ch.toNat = true → beginsTrailing body = false)
    (h : Denotes body s) : Denotes ('\\' :: 'u' :: a :: b :: c :: d :: body) (ch :: s)
  | pair {a b c d a' b' c' d' ch : Char} {first second : Nat} {body s : List Char}
    (hfirst : unit? a b c d = some (0xD800 + first)) (hlow : first < 0x400)
    (hsecond : unit? a' b' c' d' = some (0xDC00 + second)) (hlow' : second < 0x400)
    (hch : ch.toNat = 0x10000 + first * 0x400 + second) (h : Denotes body s) :
    Denotes ('\\' :: 'u' :: a :: b :: c :: d :: '\\' :: 'u' :: a' :: b' :: c' :: d' :: body)
      (ch :: s)

namespace Denotes

variable {body s : List Char}

/-- What denotes a string is decoded as it, up to the closing quote, after an open pair that it does
not close. -/
theorem decodeTail?_after (h : Denotes body s) (controls : Bool) {leading : Option Nat}
    (hopen : leading = none ∨ beginsTrailing body = false) (rest : List Char) :
    Quoted.decodeTail? controls leading (body ++ ('"' : Char) :: rest) =
      some (alone leading ++ s, rest) := by
  induction h generalizing leading with
  | nil => rw [List.append_nil]; exact decodeTail?_nil rest
  | plain hc _ ih => exact decodeTail?_plain ⟨hc.2.2, hc.2.1⟩ (.inr hc.1) (ih (.inl rfl))
  | letter hletter _ ih =>
    obtain ⟨hof, hu, -⟩ := ofLetter?_of_mem _ hletter
    exact decodeTail?_letter hu hof (ih (.inl rfl))
  | @code _ _ _ _ ch _ _ hcode halone _ ih =>
    cases hlead : isLeading ch.toNat with
    | true =>
      have hrest := @ih (some ch.toNat) (.inr (halone hlead))
      rw [alone, Option.map_some, Char.ofNat_toNat] at hrest
      exact decodeTail?_leading hcode hlead hrest
    | false =>
      refine decodeTail?_code hcode hlead (hopen.imp_right fun htrail => ?_) (ih (.inl rfl))
      simpa [beginsTrailing, hcode] using htrail
  | @pair _ _ _ _ _ _ _ _ ch first second _ _ hfirst hlow hsecond hlow' hch _ ih =>
    have hlead : isLeading (0xD800 + first) = true := by
      simp only [isLeading, Bool.and_eq_true, decide_eq_true_eq]
      omega
    have htrail : isTrailing (0xDC00 + second) = true := by
      simp only [isTrailing, Bool.and_eq_true, decide_eq_true_eq]
      omega
    have hpair : ofPair (0xD800 + first) (0xDC00 + second) = ch := by
      rw [ofPair, Nat.add_sub_cancel_left, Nat.add_sub_cancel_left, ← hch, Char.ofNat_toNat]
    rw [← hpair]
    exact decodeTail?_pair hfirst hsecond hlead htrail (ih (.inl rfl))

/-- What denotes a string is decoded as it, up to the closing quote. -/
theorem decodeTail? (h : Denotes body s) (controls : Bool) (rest : List Char) :
    Quoted.decodeTail? controls none (body ++ ('"' : Char) :: rest) = some (s, rest) :=
  h.decodeTail?_after controls (.inl rfl) rest

theorem decode? (h : Denotes body s) : decode? ('"' :: (body ++ [('"' : Char)])) = some s := by
  simp only [Quoted.decode?, h.decodeTail?]

theorem isPlain_of_hexValue? {c : Char} (h : (hexValue? c).isSome = true) : IsPlain c := by
  have hnone : ∀ c ∈ [('\\' : Char), '"', '\n', '\r'], (hexValue? c).isNone = true :=
    List.all_eq_true.1 (by decide)
  refine ⟨?_, ?_, ?_, ?_⟩
  all_goals rintro rfl; rw [Option.isNone_iff_eq_none.1 (hnone _ (by decide))] at h; cases h

/-- The digits of a code stand for themselves. -/
theorem isPlain_of_unit? {a b c d : Char} {n : Nat} (h : unit? a b c d = some n) :
    ∀ x ∈ [a, b, c, d], IsPlain x := by
  simp only [unit?, Option.bind_eq_bind, Option.bind_eq_some_iff] at h
  obtain ⟨_, ha, _, hb, _, hc, _, hd, -⟩ := h
  have hplain {x : Char} {m : Nat} (hx : hexValue? x = some m) : IsPlain x :=
    isPlain_of_hexValue? (by rw [hx]; rfl)
  simp [hplain ha, hplain hb, hplain hc, hplain hd]

/-- What denotes a string stays on its line and is up to the closing quote. -/
theorem isBody (h : Denotes body s) : IsBody body := by
  induction h with
  | nil => exact isBody_nil
  | @plain c _ _ hc _ ih =>
    have hplain : IsPlain c := by
      refine ⟨hc.2.2, hc.2.1, ?_, ?_⟩ <;> rintro rfl <;> exact absurd hc.1 (by decide)
    exact ih.append (List.forall_mem_singleton.2 hplain)
  | letter hletter _ ih => exact ih.escaped (ofLetter?_of_mem _ hletter).2.2.1
  | code hcode _ _ ih => exact (ih.append (isPlain_of_unit? hcode)).escaped (by decide)
  | pair hfirst _ hsecond _ _ _ ih =>
    exact (((ih.append (isPlain_of_unit? hsecond)).escaped (by decide)).append
      (isPlain_of_unit? hfirst)).escaped (by decide)

end Denotes

/-- An encoded string denotes the string. -/
theorem denotes_encode (text : List Char) : Denotes (text.flatMap escape) text := by
  induction text with
  | nil => exact .nil
  | cons c text ih =>
    rw [List.flatMap_cons]
    rcases escape_cases c with ⟨letter, hc, hletter⟩ | ⟨hc, hlow⟩ | ⟨hc, hhigh, hq, hb, -⟩
    · rw [hc]
      exact ih.letter hletter
    · rw [hc, hexDigits_four]
      have hlead : isLeading c.toNat = false := by
        rw [isLeading, decide_eq_false (by omega), Bool.false_and]
      exact ih.code (unit?_hexDigits (Nat.lt_trans hlow (by decide)))
        fun h => by simp [hlead] at h
    · rw [hc]
      exact ih.plain ⟨hhigh, hq, hb⟩

/-- An encoded string is decoded up to its closing quote. -/
theorem decodeTail?_encode (controls : Bool) (text rest : List Char) :
    decodeTail? controls none (text.flatMap escape ++ ('"' : Char) :: rest) = some (text, rest) :=
  (denotes_encode text).decodeTail? controls rest

/-- Decoding undoes encoding. -/
theorem decode?_encode (text : List Char) : decode? (encode text) = some text :=
  (denotes_encode text).decode?

/-- The terminal of strings takes an encoded string exactly. -/
theorem cutString?_encode (text rest : List Char) :
    cutString? (encode text ++ rest) = some (encode text, rest) := by
  simp [encode, cutString?, (denotes_encode text).isBody rest]

end Quoted

end CommandSequence
