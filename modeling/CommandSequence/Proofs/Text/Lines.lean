import CommandSequence.Character.Basic
import CommandSequence.Text.Lines

/-!
# Texts that a file keeps

A file takes a text if UTF-8 has bytes for every character, and gives it back if there is no
carriage return in it besides, for it is read with universal line ends (`universal_eq`). `Kept` says
the one or the other, so that what holds of both is said once. The rest says of a text put together
from others that a file keeps it if it keeps them.
-/

namespace CommandSequence.Lines

/-- A file keeps the character: it takes it, and gives it `back` if that is asked for. -/
def Keeps (back : Bool) (c : Char) : Prop :=
  c.isScalar = true ∧ (back = true → c ≠ '\r')

instance (back : Bool) (c : Char) : Decidable (Keeps back c) :=
  inferInstanceAs (Decidable (_ ∧ _))

/-- A file keeps every character of the text. -/
def Kept (back : Bool) (text : List Char) : Prop :=
  ∀ c ∈ text, Keeps back c

instance (back : Bool) (text : List Char) : Decidable (Kept back text) :=
  inferInstanceAs (Decidable (∀ _ ∈ text, _))

variable {back : Bool} {c : Char} {text text' : List Char}

@[simp] theorem keeps_scalar (c : Scalar) : Keeps back (.scalar c) ↔ (back = true → c ≠ '\r') := by
  simp [Keeps]

theorem Keeps.of_ne (h : c.isScalar = true) (hc : c ≠ '\r') : Keeps back c :=
  ⟨h, fun _ => hc⟩

@[simp] theorem kept_nil : Kept back [] :=
  List.forall_mem_nil _

@[simp] theorem kept_cons : Kept back (c :: text) ↔ Keeps back c ∧ Kept back text :=
  List.forall_mem_cons

@[simp] theorem kept_append : Kept back (text ++ text') ↔ Kept back text ∧ Kept back text' :=
  List.forall_mem_append

theorem kept_flatten {texts : List (List Char)} (h : ∀ t ∈ texts, Kept back t) :
    Kept back texts.flatten := by
  intro c hmem
  obtain ⟨t, ht, hmem⟩ := List.mem_flatten.1 hmem
  exact h t ht c hmem

theorem kept_intercalate {separator : List Char} {texts : List (List Char)}
    (hseparator : Kept back separator) (h : ∀ t ∈ texts, Kept back t) :
    Kept back (separator.intercalate texts) := by
  unfold List.intercalate
  induction texts with
  | nil => exact kept_nil
  | cons t texts ih =>
    obtain ⟨ht, htexts⟩ := List.forall_mem_cons.1 h
    cases texts with
    | nil => simpa using ht
    | cons t' texts =>
      simpa [ht, hseparator] using ih htexts

/-- A text that a file gives back is one that it takes. -/
theorem Kept.of_back (h : Kept true text) : Kept back text :=
  fun c hc => .of_ne (h c hc).1 ((h c hc).2 rfl)

/-- A file takes a string that UTF-8 has bytes for, and gives it back if it has no carriage
return. -/
theorem kept_string {s : String} (h : s.isEncodable = true)
    (hback : back = true → ('\r' : Char) ∉ s.toList) : Kept back s.toList := by
  refine fun c hc => ⟨List.all_eq_true.1 h c hc, ?_⟩
  rintro hb rfl
  exact hback hb hc

/-- A file takes a text exactly if UTF-8 has bytes for it. -/
theorem kept_iff_isEncodable : Kept false text ↔ (String.ofList text).isEncodable = true := by
  rw [String.isEncodable, List.all_eq_true]
  exact forall₂_congr fun c _ => and_iff_left fun h => absurd h Bool.false_ne_true

/-- Without carriage returns, universal line ends change nothing. -/
theorem universal_eq (h : Kept true text) : universal text = text := by
  induction text with
  | nil => rfl
  | cons c text ih =>
    obtain ⟨hc, htext⟩ := kept_cons.1 h
    have hne := hc.2 rfl
    unfold universal
    split
    · cases ‹_›
    · next heq => exact absurd (List.cons.inj heq).1 hne
    · next heq =>
      obtain ⟨rfl, rfl⟩ := List.cons.inj heq
      rw [ih htext, if_neg (by simpa using hne)]

end CommandSequence.Lines
