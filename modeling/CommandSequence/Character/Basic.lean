/-!
# Characters and strings

A text is a list of characters. Its characters are the Unicode scalar values and, besides them, the
halves of surrogate pairs: a quoted string may escape one half without the other, and the half then
stands in the string as a character of its own. Lean's own characters are the scalar values alone,
so characters and strings are types of this library here; a literal is written as in Lean and stands
for its scalar values.
-/

namespace CommandSequence

/-- A Unicode scalar value. -/
abbrev Scalar : Type := Char

/-- A string of Unicode scalar values. -/
abbrev Literal : Type := String

/-- The scalar value of a number, if it has one. -/
def Scalar.ofNat (n : Nat) : Scalar := Char.ofNat n

theorem Scalar.ofNat_toNat (c : Scalar) : Scalar.ofNat c.toNat = c := Char.ofNat_toNat c

theorem Scalar.toNat_ofNat {n : Nat} (h : n.isValidChar) : (Scalar.ofNat n).toNat = n := by
  rw [Scalar.ofNat, Char.ofNat, dif_pos h]
  rfl

/-- The string of a list of scalar values. -/
def Literal.ofList (text : List Scalar) : Literal := String.ofList text

theorem Literal.toList_ofList (text : List Scalar) : (Literal.ofList text).toList = text :=
  String.toList_ofList

theorem Literal.toList_inj {s t : Literal} (h : s.toList = t.toList) : s = t :=
  String.toList_inj.1 h

/-- A character: a scalar value, or half of a surrogate pair, which is numbered from the first one
on. -/
inductive Char where
  | scalar (c : Scalar)
  | half (index : Fin 0x800)
deriving DecidableEq, Repr

namespace Char

instance : Inhabited Char := ⟨.scalar default⟩

instance : Coe Scalar Char := ⟨scalar⟩

/-- The code point of a character. -/
def toNat : Char → Nat
  | scalar c => c.toNat
  | half index => 0xD800 + index

/-- The character of a code point. -/
def ofNat (n : Nat) : Char :=
  if h : 0xD800 ≤ n ∧ n < 0xE000 then half ⟨n - 0xD800, by omega⟩ else scalar (Scalar.ofNat n)

instance : LE Char := ⟨fun c d => c.toNat ≤ d.toNat⟩

instance (c d : Char) : Decidable (c ≤ d) := inferInstanceAs (Decidable (c.toNat ≤ d.toNat))

/-- The size of a character in bytes of UTF-8. A half stands in the name of a file for a byte that
is no UTF-8. -/
def utf8Size : Char → Nat
  | scalar c => c.utf8Size
  | half _ => 1

/-- The lower case of an ASCII letter; any other character stays itself. -/
def toLower : Char → Char
  | scalar c => scalar c.toLower
  | half index => half index

/-- The scalar value that a character is. -/
def scalar? : Char → Option Scalar
  | scalar c => some c
  | half _ => none

/-- Whether a character is a scalar value. -/
def isScalar (c : Char) : Bool := c.scalar?.isSome

@[simp] theorem toNat_scalar (c : Scalar) : (scalar c).toNat = c.toNat := rfl

@[simp] theorem isScalar_scalar (c : Scalar) : (scalar c).isScalar = true := rfl

@[simp] theorem isScalar_half (index : Fin 0x800) : (half index).isScalar = false := rfl

theorem toNat_half (index : Fin 0x800) :
    0xD800 ≤ (half index).toNat ∧ (half index).toNat < 0xE000 :=
  ⟨Nat.le_add_right .., by have := index.isLt; simp only [toNat]; omega⟩

/-- No scalar value has the number of a half. -/
theorem toNat_scalar_ne_half (c : Scalar) : ¬ (0xD800 ≤ c.toNat ∧ c.toNat < 0xE000) := by
  obtain h | h := c.valid
  · exact fun hin => absurd (show c.toNat < 0xD800 from h) (by omega)
  · exact fun hin => absurd (show 0xDFFF < c.toNat from h.1) (by omega)

theorem isScalar_iff (c : Char) : c.isScalar = true ↔ ¬ (0xD800 ≤ c.toNat ∧ c.toNat < 0xE000) := by
  cases c with
  | scalar c => simp [toNat_scalar_ne_half c]
  | half index => simp only [isScalar_half, toNat_half index, and_self, not_true, reduceCtorEq]

@[simp] theorem ofNat_toNat (c : Char) : ofNat c.toNat = c := by
  cases c with
  | scalar c =>
    rw [ofNat, toNat_scalar, dif_neg (toNat_scalar_ne_half c)]
    exact congrArg scalar (Scalar.ofNat_toNat c)
  | half index =>
    rw [ofNat, dif_pos (toNat_half index)]
    exact congrArg half (Fin.ext (Nat.add_sub_cancel_left ..))

theorem toNat_inj {c d : Char} : c.toNat = d.toNat ↔ c = d :=
  ⟨fun h => by rw [← ofNat_toNat c, h, ofNat_toNat], congrArg toNat⟩

theorem toNat_ofNat {n : Nat} (h : n < 0x110000) : (ofNat n).toNat = n := by
  unfold ofNat
  split
  · rename_i hhalf
    exact Nat.add_sub_of_le hhalf.1
  · exact Scalar.toNat_ofNat (by omega)

end Char

/-- A string of characters. -/
structure String where
  ofList ::
  /-- the characters of the string -/
  toList : List Char
deriving DecidableEq, Repr

namespace String

/-- The string that a literal stands for. -/
def literal (s : Literal) : String := ofList (s.toList.map .scalar)

instance : Coe Literal String := ⟨literal⟩

instance : Inhabited String := ⟨ofList []⟩

instance : Append String := ⟨fun s t => ofList (s.toList ++ t.toList)⟩

/-- Whether the string has no characters. -/
def isEmpty (s : String) : Bool := s.toList.isEmpty

/-- Strings one after the other. -/
def join (parts : List String) : String :=
  ofList (parts.flatMap toList)

/-- Strings joined by a separator. -/
def intercalate (separator : String) (parts : List String) : String :=
  ofList (separator.toList.intercalate (parts.map toList))

/-- Whether UTF-8 has bytes for the string: it holds no half of a surrogate pair. -/
def isEncodable (s : String) : Bool := s.toList.all Char.isScalar

/-- The literal that a string is, if it holds no half of a surrogate pair. -/
def toLiteral? (s : String) : Option Literal := (s.toList.mapM Char.scalar?).map Literal.ofList

@[simp] theorem toList_ofList (text : List Char) : (ofList text).toList = text := rfl

@[simp] theorem ofList_nil : ofList [] = "" := rfl

@[simp] theorem ofList_toList (s : String) : ofList s.toList = s := rfl

@[simp] theorem toList_literal (s : Literal) : (literal s).toList = s.toList.map .scalar := rfl

@[simp] theorem toList_append (s t : String) : (s ++ t).toList = s.toList ++ t.toList := rfl

theorem toList_inj {s t : String} : s.toList = t.toList ↔ s = t :=
  ⟨fun h => congrArg ofList h, congrArg toList⟩

@[simp] theorem literal_inj {s t : Literal} : literal s = literal t ↔ s = t := by
  refine ⟨fun h => Literal.toList_inj ?_, congrArg literal⟩
  have hmap : s.toList.map Char.scalar = t.toList.map Char.scalar := congrArg toList h
  exact (List.map_inj_right fun _ _ => Char.scalar.inj).1 hmap

@[simp] theorem isEncodable_literal (s : Literal) : (literal s).isEncodable = true := by
  simp [isEncodable]

theorem toList_eq_nil_iff {s : String} : s.toList = [] ↔ s = "" :=
  toList_inj (t := ofList [])

@[simp] theorem isEmpty_iff {s : String} : s.isEmpty = true ↔ s = "" :=
  List.isEmpty_iff.trans toList_eq_nil_iff

@[simp] theorem isEmpty_eq_false_iff {s : String} : s.isEmpty = false ↔ s ≠ "" := by
  rw [← Bool.not_eq_true, isEmpty_iff]

end String

end CommandSequence
