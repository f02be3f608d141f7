import CommandSequence.Proofs.Document.TextRoundTrip

/-!
# Metadata values in any notation

A metadata value is JSON as the standard has it. Whatever denotes a JSON value gives the value where
it stands as a metadata value, in every layout, with every way to write its strings and numbers
(`ofText_entering`). Two kinds of notation are excepted: an integer of more digits than are read,
and a line end beside a colon. The second is refused although line ends may stand beside every
other mark (`ofText_entering_lineEnd`).
-/

namespace CommandSequence.Document

open Json (Denotes IsSpacing IsBlanks)
open ReadBack (ReadsLines GivesParts InHeader readsLine_headerEntry)

variable {json ws : List Char} {v : Json.Value}

/-- The text of a document with an identifier and a metadata entry whose value stands as given. -/
def entering (id key : String) (json : List Char) : List Char :=
  ToText.fixed "@ID " ++ (ToText.quoted id ++ [('\n' : Char)]) ++
    (ToText.fixed "@METADATA " ++ (ToText.quoted key ++ (' ' : Char) :: (json ++ [('\n' : Char)])))

/-- The lines of the text are read as the identifier and the entry. -/
theorem readsLines_entering (id key : String) (validate : Bool)
    (h : Denotes IsBlanks Spelling.IsShort json (.value v)) (hws : IsSpacing ws) :
    ReadsLines Source.Place.start (entering id key (json ++ ws)) [] InHeader
      (GivesParts validate [.id id, .metadata key v]) := by
  refine ReadsLines.append_parts (readsLines_id _) fun p hp => ?_
  have hplace : p.Opens .metadata := hp ▸ Source.Place.opens_of_single rfl
  have htail : p.tail = .closed := by rw [hp]
  rw [List.append_assoc]
  refine ReadsLines.line (readsLine_headerEntry hplace htail h hws) ⟨rfl, .inl rfl⟩ ?_
  rintro _ ⟨entry, rfl, hentry⟩
  have hpart : OfOutline.part validate (.metadata entry) = .ok (.metadata key v) := by
    rw [OfOutline.part, hentry]
    rfl
  exact .single rfl hpart

/-- Every text that denotes a JSON value, with no line end beside a colon and with short integers,
gives the value where it stands as a metadata value. -/
theorem ofText_entering (id key : String) (validate : Bool)
    (h : Denotes IsBlanks Spelling.IsShort json (.value v)) (hws : IsSpacing ws) :
    ofText validate (entering id key (json ++ ws)) =
      .ok ⟨id, [(key, v)], [], [], [], [], [], []⟩ := by
  have hlast : (entering id key (json ++ ws)).getLast? = some ('\n' : Char) := by
    simp [entering, List.getLast?_append, List.getLast?_cons]
  have hend : Lines.terminate (entering id key (json ++ ws)) =
      entering id key (json ++ ws) ++ [] := by
    simp [Lines.terminate, hlast]
  have hfront : Source.nextLine (entering id key (json ++ ws) ++ []) =
      entering id key (json ++ ws) ++ [] := by
    simp only [entering, List.append_assoc]
    exact Source.nextLine_cons (by decide) _
  have hlines : ReadsLines Source.Place.start (entering id key (json ++ ws)) []
      (ReadBack.Anywhere ReadBack.requestOpeners)
      (GivesParts validate [.id id, .metadata key v]) :=
    (readsLines_entering id key validate h hws).mono
      (fun p hp => ⟨false, hp.between.mono (by decide)⟩) fun _ hgives => hgives
  obtain ⟨outline, houtline, hparts⟩ := read_of_readsLines hend rfl hfront hlines
  rw [ofText, houtline]
  simp only [ofOutline, hparts, Bind.bind, Except.bind]
  rfl

/-- A value spread over lines, with a key that is written again, and a string that ends in half of a
surrogate pair. -/
def spreadJson : List Char :=
  String.toList
    "\x7b\"a\" :\t[1E2,\n\n  -20 ,\"\\ud83d\\ude00\\/\\ud83d\"],\n\"b\":null\n,\"b\": true \x7d"

/-- What the value is. -/
def spreadValue : Json.Value :=
  .object [("a", .array [.number (.float (Binary64.ofDecimal false 1 2)), .number (.int (-20)),
    .string (.ofList ['😀', '/', Char.ofNat 0xD83D])]), ("b", .boolean true)]

theorem denotes_spreadJson :
    Denotes IsBlanks Spelling.IsShort spreadJson (.value spreadValue) := by
  have hnumber : Denotes IsBlanks Spelling.IsShort ['1', 'E', '2']
      (.value (.number (.float (Binary64.ofDecimal false 1 2)))) := by
    have hs : Spelling.Proper ⟨false, ['1'], [], some (⟨true, none⟩, ['2'])⟩ :=
      ⟨⟨nofun, List.all_eq_true.1 (by decide), nofun⟩, List.forall_mem_nil _, by
        rintro _ _ ⟨⟩
        exact ⟨nofun, List.all_eq_true.1 (by decide)⟩⟩
    exact .number hs fun hint => nomatch hint
  have hinteger : Denotes IsBlanks Spelling.IsShort ['-', '2', '0']
      (.value (.number (.int (-20)))) := by
    have hs : Spelling.Proper ⟨true, ['2', '0'], [], none⟩ :=
      ⟨⟨nofun, List.all_eq_true.1 (by decide), by decide⟩, List.forall_mem_nil _, nofun⟩
    exact .number hs fun _ => by decide
  have hface : Denotes IsBlanks Spelling.IsShort (('"' : Char) :: ([('\\' : Char), 'u', 'd',
      '8', '3', 'd', '\\', 'u', 'd', 'e', '0', '0', '\\', '/', '\\', 'u', 'd', '8', '3', 'd'] ++
      [('"' : Char)])) (.value (.string (.ofList ['😀', '/', Char.ofNat 0xD83D]))) := by
    have hfirst : Quoted.unit? 'd' '8' '3' 'd' = some (0xD800 + 0x3D) := by decide
    have hsecond : Quoted.unit? 'd' 'e' '0' '0' = some (0xDC00 + 0x200) := by decide
    have hhalf : Quoted.Denotes ['\\', 'u', 'd', '8', '3', 'd'] [Char.ofNat 0xD83D] :=
      .code hfirst (fun _ => rfl) .nil
    have hslash : Quoted.Denotes ('\\' :: '/' :: _) ('/' :: _) := .letter (by decide) hhalf
    have hch : ('😀' : Char).toNat = 0x10000 + 0x3D * 0x400 + 0x200 := by decide
    exact .string (.pair hfirst (by decide) hsecond (by decide) hch hslash)
  have hitems : Denotes IsBlanks Spelling.IsShort _ (.items _) :=
    .moreItems hnumber Json.isSpacing_nil (show IsSpacing ['\n', '\n', ' ', ' '] by decide)
      (.moreItems hinteger (show IsSpacing [' '] by decide) Json.isSpacing_nil
        (.lastItem hface Json.isSpacing_nil))
  have hkey (c : Char) (hc : 0x20 ≤ c.toNat ∧ c ≠ '"' ∧ c ≠ '\\') : Quoted.Denotes [c] [c] :=
    .plain hc .nil
  have hmember : Denotes IsBlanks Spelling.IsShort _ (.member ("a", _)) :=
    .member (hkey 'a' (by decide)) (show IsBlanks [' '] by decide) (show IsBlanks ['\t'] by decide)
      (.array Json.isSpacing_nil hitems)
  have hnull : Denotes IsBlanks Spelling.IsShort _ (.member ("b", _)) :=
    .member (hkey 'b' (by decide)) (List.forall_mem_nil _) (List.forall_mem_nil _) .null
  have htrue : Denotes IsBlanks Spelling.IsShort _ (.member ("b", _)) :=
    .member (hkey 'b' (by decide)) (List.forall_mem_nil _) (show IsBlanks [' '] by decide)
      (.boolean true)
  have hmembers : Denotes IsBlanks Spelling.IsShort _ (.members _) :=
    .moreMembers hmember Json.isSpacing_nil (show IsSpacing ['\n'] by decide)
      (.moreMembers hnull (show IsSpacing ['\n'] by decide) Json.isSpacing_nil
        (.lastMember htrue (show IsSpacing [' '] by decide)))
  exact .object Json.isSpacing_nil hmembers

theorem ofText_entering_spread : Denotes IsBlanks Spelling.IsShort spreadJson (.value spreadValue) ∧
    IsSpacing ['\t', '\n'] ∧ ofText true (entering "x" "k" (spreadJson ++ [('\t' : Char), '\n'])) =
      .ok ⟨"x", [("k", spreadValue)], [], [], [], [], [], []⟩ :=
  ⟨denotes_spreadJson, by decide, ofText_entering "x" "k" true denotes_spreadJson (by decide)⟩

/-- A value with a line end after a colon. -/
def brokenJson : List Char :=
  String.toList "\x7b\"a\":\n1\x7d"

/-- No document is read from a text with a line end after a colon, although it denotes a value. -/
theorem ofText_entering_lineEnd :
    Denotes IsSpacing (fun _ => True) brokenJson (.value (.object [("a", .number (.int 1))])) ∧
      ∀ d, ofText true (entering "x" "k" brokenJson) ≠ .ok d := by
  constructor
  · have hnumber : Denotes IsSpacing (fun _ => True) ['1'] (.value (.number (.int 1))) := by
      have hs : Spelling.Proper ⟨false, ['1'], [], none⟩ :=
        ⟨⟨nofun, List.all_eq_true.1 (by decide), by decide⟩, List.forall_mem_nil _, nofun⟩
      exact .number hs trivial
    have hkey : Quoted.Denotes ['a'] ['a'] := .plain (by decide) .nil
    have hmember : Denotes IsSpacing (fun _ => True) _ (.member ("a", _)) :=
      .member hkey Json.isSpacing_nil (show IsSpacing ['\n'] by decide) hnumber
    exact .object Json.isSpacing_nil (.lastMember hmember Json.isSpacing_nil)
  · have hnone : (ofText true (entering "x" "k" brokenJson)).toOption.isNone = true := by
      decide +kernel
    intro d hd
    rw [hd] at hnone
    cases hnone

end CommandSequence.Document
