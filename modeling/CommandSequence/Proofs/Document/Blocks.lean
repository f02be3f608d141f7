import CommandSequence.Proofs.Document.Canon
import CommandSequence.Proofs.Document.TextRoundTrip

/-!
# Declarations alone

A block of declarations that can be written reads back, after an identifier, as that block
(`Document.ofText_writeBlock`). Every combination of type, enumeration, ranges and values comes back
as it was but one: where there is no type, an enumeration that is named like a type comes back as
the type, so a block is the same again only if each of its declarations is unambiguous
(`Declaration.reread_eq_iff`).
-/

namespace CommandSequence

open ReadBack (blockName)

/-- A number that can be written is short enough to be read. -/
theorem Number.fits_of_literal {n : Number} {text : List Char} (h : n.literal = .ok text) :
    n.Fits false := by
  cases n with
  | int n =>
    by_cases hwritable : Decimal.writable n = true
    · exact ⟨hwritable, fun hfalse => by cases hfalse⟩
    · rw [literal, if_neg hwritable] at h
      cases h
  | float x => trivial

namespace Declaration

variable {p : Declaration}

/-- What a declaration names has the form of a name. -/
structure IsNamed (p : Declaration) : Prop where
  name : isIdentifier p.name.toList = true
  enumName : ∀ name, p.enumName = some name → isIdentifier name.toList = true

/-- A declaration that can be written lacks nothing but the form of its names. -/
theorem valid_of_write {text : List Char} (h : p.IsNamed) (hwrite : p.write = .ok text) :
    p.Valid := by
  obtain ⟨ranges, hranges, hwrite⟩ := bind_eq_ok.1 hwrite
  obtain ⟨values, hvalues, -⟩ := bind_eq_ok.1 hwrite
  refine ⟨h.name, h.enumName, fun r hr => ?_, fun v hv => ?_⟩
  · obtain ⟨piece, hpiece⟩ := exists_of_mapM hranges r hr
    obtain ⟨min, hmin, hpiece⟩ := bind_eq_ok.1 hpiece
    obtain ⟨max, hmax, -⟩ := bind_eq_ok.1 hpiece
    exact ⟨Number.fits_of_literal hmin, Number.fits_of_literal hmax⟩
  · obtain ⟨piece, hpiece⟩ := exists_of_mapM hvalues v hv
    cases v with
    | number n => exact Number.fits_of_literal hpiece
    | text => trivial

theorem reread_eq_iff : p.reread = p ↔ p.Unambiguous := by
  refine ⟨fun h htype name hname => ?_, reread_eq⟩
  cases hword : VariableType.ofKeyword? name with
  | none => rfl
  | some type =>
    have hreread : p.reread = { p with type := some type, enumName := none } := by
      simp only [reread, htype, hname, Option.bind_some, hword]
    rw [hreread] at h
    have htype' := congrArg Declaration.type h
    rw [htype] at htype'
    cases htype'

theorem map_reread_eq_iff {declarations : List Declaration} :
    declarations.map reread = declarations ↔ ∀ p ∈ declarations, p.Unambiguous := by
  induction declarations with
  | nil => simp
  | cons p declarations ih =>
    rw [List.map_cons, List.cons_eq_cons, List.forall_mem_cons, reread_eq_iff, ih]

end Declaration

namespace Document

variable {block : Source.Block} {declarations : List Declaration} {text : List Char}

/-- The document of an identifier and one block of declarations. -/
def ofBlock (id : String) (block : Source.Block) (declarations : List Declaration) : Document where
  id
  metadata := []
  parameters := if block = .parameters then declarations else []
  locals := if block = .locals then declarations else []
  steps := []
  immediateCommands := []
  hardwareCommands := []
  requests := []

theorem write_ofBlock (id : String)
    (h : Declaration.writeBlock (blockName block) declarations = .ok text) :
    (ofBlock id block declarations).write none =
      .ok (ToText.fixed "@ID " ++ ToText.quoted id ++ ('\n' : Char) :: text) := by
  have hempty (name : String) : Declaration.writeBlock name [] = .ok [] := rfl
  have hload : (ofBlock id block declarations).loadAndGo = false := rfl
  unfold Document.write
  rw [hload]
  cases block with
  | parameters =>
    replace h : Declaration.writeBlock "INPUT_PARAMS" declarations = .ok text := h
    simp [ofBlock, hempty, h, Bind.bind, Except.bind, pure, Except.pure, Metadata.write,
      Document.writePart]
  | locals =>
    replace h : Declaration.writeBlock "LOCALS" declarations = .ok text := h
    simp [ofBlock, hempty, h, Bind.bind, Except.bind, pure, Except.pure, Metadata.write,
      Document.writePart]

theorem reread_ofBlock (id : String) :
    (ofBlock id block declarations).reread =
      ofBlock id block (declarations.map Declaration.reread) := by
  cases block <;> rfl

theorem valid_ofBlock (id : String) (h : ∀ p ∈ declarations, p.Valid) :
    (ofBlock id block declarations).Valid := by
  have hmetadata : Metadata.Valid [] :=
    .object (by simp [Dictionary.Distinct]) (List.forall_mem_nil _)
  have hblock (b : Source.Block) : ∀ p ∈ (if block = b then declarations else []), p.Valid := by
    split
    · exact h
    · exact List.forall_mem_nil _
  exact ⟨hmetadata, hblock _, hblock _, List.forall_mem_nil _, List.forall_mem_nil _,
    List.forall_mem_nil _, List.forall_mem_nil _⟩

/-- A block that can be written reads back, after an identifier, as what its declarations are read
as. -/
theorem ofText_block {validate : Bool} (id : String) (hnamed : ∀ p ∈ declarations, p.IsNamed)
    (hwrite : Declaration.writeBlock (blockName block) declarations = .ok text) :
    ofText validate (ToText.fixed "@ID " ++ ToText.quoted id ++ ('\n' : Char) :: text) =
      .ok (ofBlock id block (declarations.map Declaration.reread)) := by
  obtain ⟨lines, hlines, -⟩ := bind_eq_ok.1 hwrite
  have hvalid : ∀ p ∈ declarations, p.Valid := fun p hp => by
    obtain ⟨line, hline⟩ := exists_of_mapM hlines p hp
    exact Declaration.valid_of_write (hnamed p hp) hline
  have htags : (ofBlock id block declarations).Tagged (TagReadable validate) :=
    ⟨List.forall_mem_nil _, List.forall_mem_nil _⟩
  rw [ofText_write (valid_ofBlock id hvalid) htags (write_ofBlock id hwrite), reread_ofBlock]

theorem ofBlock_inj {id : String} {declarations' : List Declaration} :
    ofBlock id block declarations = ofBlock id block declarations' ↔
      declarations = declarations' := by
  refine ⟨fun h => ?_, fun h => h ▸ rfl⟩
  cases block with
  | parameters => exact congrArg Document.parameters h
  | locals => exact congrArg Document.locals h

/-- A text of an identifier and a written block of declarations describes these, apart from
enumerations that are named like types and come back as the types. So it describes exactly what was
written if and only if each of the declarations is unambiguous. -/
theorem ofText_writeBlock {validate : Bool} (id : String) (hnamed : ∀ p ∈ declarations, p.IsNamed)
    (hwrite : Declaration.writeBlock (blockName block) declarations = .ok text) :
    ofText validate (ToText.fixed "@ID " ++ ToText.quoted id ++ ('\n' : Char) :: text) =
        .ok (ofBlock id block (declarations.map Declaration.reread)) ∧
      (ofText validate (ToText.fixed "@ID " ++ ToText.quoted id ++ ('\n' : Char) :: text) =
          .ok (ofBlock id block declarations) ↔
        ∀ p ∈ declarations, p.Unambiguous) := by
  have hread := @ofText_block block declarations text validate id hnamed hwrite
  refine ⟨hread, ?_⟩
  rw [hread, Except.ok.injEq, ofBlock_inj, Declaration.map_reread_eq_iff]

/-- A type with a range, and an enumeration with texts, an empty one among them, and a number. -/
theorem ofText_writeBlock_ranged :
    let declarations : List Declaration :=
      [⟨"X", some .int, none, [⟨.int 1, .int 5⟩], []⟩,
        ⟨"Y", none, some "Mode", [], [.text "a b", .text "", .number (.int 2)]⟩]
    let text :=
      String.toList "@LOCALS_BEGIN\nX INT \"1...5\"\nY Mode \"\" \"a b,,2\"\n@LOCALS_END\n"
    (∀ p ∈ declarations, p.IsNamed) ∧
      Declaration.writeBlock (blockName .locals) declarations = .ok text ∧
      ofText true (ToText.fixed "@ID " ++ ToText.quoted "demo" ++ ('\n' : Char) :: text) =
        .ok (ofBlock "demo" .locals declarations) := by
  intro declarations text
  have hnamed : ∀ p ∈ declarations, p.IsNamed := by
    refine List.forall_mem_cons.2 ⟨⟨by decide, nofun⟩, List.forall_mem_singleton.2 ⟨by decide, ?_⟩⟩
    rintro _ ⟨⟩
    decide
  have hunambiguous : ∀ p ∈ declarations, p.Unambiguous := by
    refine List.forall_mem_cons.2 ⟨nofun, List.forall_mem_singleton.2 ?_⟩
    rintro - _ ⟨⟩
    decide
  have hwrite : (Declaration.writeBlock (blockName .locals) declarations).toOption = some text := by
    decide +kernel
  rw [toOption_eq_some] at hwrite
  exact ⟨hnamed, hwrite, (ofText_writeBlock "demo" hnamed hwrite).2.2 hunambiguous⟩

/-- An enumeration may be named like a type; its declaration is written without an error, and comes
back with that type. -/
theorem ofText_writeBlock_ne :
    let declarations : List Declaration := [⟨"X", none, some "INT", [], []⟩]
    let text := String.toList "@INPUT_PARAMS_BEGIN\nX INT\n@INPUT_PARAMS_END\n"
    (∀ p ∈ declarations, p.IsNamed) ∧
      Declaration.writeBlock (blockName .parameters) declarations = .ok text ∧
      ∀ d, ofText true (ToText.fixed "@ID " ++ ToText.quoted "demo" ++ ('\n' : Char) :: text) =
        .ok d → d.parameters = [⟨"X", some .int, none, [], []⟩] ∧ d.parameters ≠ declarations := by
  intro declarations text
  have hnamed : ∀ p ∈ declarations, p.IsNamed := by
    refine List.forall_mem_singleton.2 ⟨by decide, ?_⟩
    rintro _ ⟨⟩
    decide
  have hwrite : Declaration.writeBlock (blockName .parameters) declarations = .ok text := rfl
  refine ⟨hnamed, hwrite, fun d h => ?_⟩
  rw [ofText_block "demo" hnamed hwrite] at h
  cases h
  exact ⟨rfl, by decide⟩

end Document

end CommandSequence
