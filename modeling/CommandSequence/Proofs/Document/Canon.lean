import CommandSequence.Document.OfOutline
import CommandSequence.Document.ToText
import CommandSequence.Proofs.Dictionary

/-!
# What sequence text keeps of a document

The text of a document does not carry everything: argument names, the division of a repetition into
sets, empty descriptions and a ground epoch beside a time are lost, and of the key `lgo` only the
flag is left. `Document.canon` is the document without them. `Document.reread` is what reading the
text gives, to the letter: the flag stands last in the metadata, and an enumeration that is named
like a type, where the type is missing, is one. The two documents have the same text as the one they
come from (`write_reread`) and the same metadata under every key (`get?_reread`).
-/

namespace CommandSequence

open OfOutline (nonEmpty)

namespace BaseArgument

/-- The argument without its name. -/
def unnamed : BaseArgument → BaseArgument
  | .string s _ => .string s none
  | .number n _ => .number n none
  | .boolean b _ => .boolean b none
  | .symbol s _ => .symbol s none
  | .hex s _ => .hex s none

theorem write_unnamed (a : BaseArgument) : a.unnamed.write = a.write := by
  cases a <;> rfl

end BaseArgument

namespace Argument

/-- The argument without its name, the sets of a repetition taken together. -/
def canon : Argument → Argument
  | .base a => .base a.unnamed
  | .repetition sets _ =>
    let set := sets.flatten.map BaseArgument.unnamed
    .repetition (if set.isEmpty then [] else [set]) none

theorem write_canon (a : Argument) : a.canon.write = a.write := by
  cases a with
  | base a => exact a.write_unnamed
  | repetition sets name =>
    have hflat (set : List BaseArgument) : (if set.isEmpty then [] else [set]).flatten = set := by
      cases set <;> simp
    have hsets : (sets.flatten.map BaseArgument.unnamed).mapM BaseArgument.write =
        sets.flatten.mapM BaseArgument.write := by
      rw [List.mapM_map]
      exact congrArg (fun f => sets.flatten.mapM f) (funext BaseArgument.write_unnamed)
    simp only [canon, write, hflat, hsets]

theorem writeAll_canon (arguments : List Argument) :
    writeAll (arguments.map canon) = writeAll arguments := by
  have hsame : (arguments.map canon).mapM write = arguments.mapM write := by
    rw [List.mapM_map]
    exact congrArg (fun f => arguments.mapM f) (funext write_canon)
  simp only [writeAll, hsame]

end Argument

/-- An empty description counts as none. -/
theorem ToText.ending_nonEmpty (description : Option String) :
    ending (description.bind nonEmpty) = ending description := by
  cases description with
  | none => rfl
  | some s =>
    by_cases h : s.isEmpty = true
    · simp [nonEmpty, ending, h]
    · simp [nonEmpty, ending, h]

namespace Step

/-- What sequence text keeps of a step. -/
def canon (s : Step) : Step :=
  { s with
    arguments := s.arguments.map Argument.canon
    description := s.description.bind nonEmpty }

theorem write_canon (indent : Json.Indent) (s : Step) : s.canon.write indent = s.write indent := by
  simp only [write, canon, Argument.writeAll_canon, ToText.ending_nonEmpty]

end Step

namespace Request

/-- What sequence text keeps of a request. -/
def canon (r : Request) : Request :=
  { r with
    steps := r.steps.map Step.canon
    groundEpoch := if r.time.isSome then none else r.groundEpoch
    description := r.description.bind nonEmpty }

theorem write_canon (indent : Json.Indent) (r : Request) :
    r.canon.write indent = r.write indent := by
  have htiming : r.canon.writeTiming = r.writeTiming := by
    cases htime : r.time with
    | none => simp [writeTiming, canon, htime]
    | some t => simp [writeTiming, canon, htime]
  have hsteps : r.canon.steps.mapM (Step.write indent) = r.steps.mapM (Step.write indent) := by
    simp only [canon, List.mapM_map]
    exact congrArg (fun f => r.steps.mapM f) (funext (Step.write_canon indent))
  simp only [write, htiming, hsteps]
  simp only [canon, ToText.ending_nonEmpty]

end Request

namespace ImmediateCommand

/-- What sequence text keeps of an immediate command. -/
def canon (c : ImmediateCommand) : ImmediateCommand :=
  { c with
    arguments := c.arguments.map Argument.canon
    description := c.description.bind nonEmpty }

theorem write_canon (indent : Json.Indent) (c : ImmediateCommand) :
    c.canon.write indent = c.write indent := by
  simp only [write, canon, Argument.writeAll_canon, ToText.ending_nonEmpty]

end ImmediateCommand

namespace HardwareCommand

/-- What sequence text keeps of a hardware command. -/
def canon (c : HardwareCommand) : HardwareCommand :=
  { c with description := c.description.bind nonEmpty }

theorem write_canon (indent : Json.Indent) (c : HardwareCommand) :
    c.canon.write indent = c.write indent := by
  simp only [write, canon, ToText.ending_nonEmpty]

end HardwareCommand

namespace Declaration

/-- The enumeration of a declaration without a type is not named like a type. -/
def Unambiguous (d : Declaration) : Prop :=
  d.type = none → ∀ name, d.enumName = some name → VariableType.ofKeyword? name = none

/-- The declaration that is read back: a single word that is a type is one. -/
def reread (d : Declaration) : Declaration :=
  match d.type, d.enumName.bind VariableType.ofKeyword? with
  | none, some type => { d with type := some type, enumName := none }
  | _, _ => d

theorem reread_eq {d : Declaration} (h : d.Unambiguous) : d.reread = d := by
  cases htype : d.type with
  | some type => simp only [reread, htype]
  | none =>
    cases hname : d.enumName with
    | none => simp only [reread, htype, hname, Option.bind_none]
    | some name => simp only [reread, htype, hname, Option.bind_some, h htype name hname]

theorem keyword_of_ofKeyword? {word : String} {type : VariableType}
    (h : VariableType.ofKeyword? word = some type) : type.keyword = word := by
  unfold VariableType.ofKeyword? at h
  have hfound := List.find?_some h
  exact beq_iff_eq.1 hfound

theorem write_reread (d : Declaration) : d.reread.write = d.write := by
  unfold reread
  split
  · next htype hword =>
    obtain ⟨name, hname, htyped⟩ := Option.bind_eq_some_iff.1 hword
    simp only [write, htype, hname, keyword_of_ofKeyword? htyped, List.append_nil]
  · rfl

theorem writeBlock_reread (block : String) (declarations : List Declaration) :
    writeBlock block (declarations.map reread) = writeBlock block declarations := by
  have hsame : (declarations.map reread).mapM write = declarations.mapM write := by
    rw [List.mapM_map]
    exact congrArg (fun f => declarations.mapM f) (funext write_reread)
  simp only [writeBlock, hsame]

end Declaration

namespace Document

/-- The document with the load-and-go flag as plain truth in its place, or without it. -/
def flagged (m : Metadata) : Metadata :=
  m.filterMap fun (key, value) =>
    if key = loadAndGoKey then if value.truthy then some (key, .boolean true) else none
    else some (key, value)

/-- What sequence text keeps of a document. -/
def canon (d : Document) : Document :=
  { d with
    metadata := flagged d.metadata
    steps := d.steps.map Step.canon
    immediateCommands := d.immediateCommands.map ImmediateCommand.canon
    hardwareCommands := d.hardwareCommands.map HardwareCommand.canon
    requests := d.requests.map Request.canon }

/-- The metadata that are read back: those that are written, and the load-and-go flag. -/
def rereadMetadata (d : Document) : Metadata :=
  d.metadata.filter (·.1 != loadAndGoKey)
    ++ if d.loadAndGo then [(loadAndGoKey, .boolean true)] else []

/-- The document that is read back. -/
def reread (d : Document) : Document :=
  { d.canon with
    metadata := d.rereadMetadata
    parameters := d.parameters.map Declaration.reread
    locals := d.locals.map Declaration.reread }

/-- The documents are the same, their metadata taken as maps from keys to values. -/
structure Alike (d e : Document) : Prop where
  metadata : ∀ key, Dictionary.get? key d.metadata = Dictionary.get? key e.metadata
  rest : { d with metadata := [] } = { e with metadata := [] }

/-! ## The load-and-go flag -/

theorem get?_rereadMetadata (d : Document) (key : String) :
    Dictionary.get? key d.rereadMetadata =
      if key = loadAndGoKey then if d.loadAndGo then some (.boolean true) else none
      else Dictionary.get? key d.metadata := by
  have hfilter := Dictionary.get?_filter (· != loadAndGoKey) key d.metadata
  rw [rereadMetadata, Dictionary.get?_append, hfilter]
  have hnil : Dictionary.get? key ([] : Metadata) = none := rfl
  by_cases h : key = loadAndGoKey
  · cases d.loadAndGo <;> simp [h, Dictionary.get?]
  · cases d.loadAndGo <;> simp [h, Dictionary.get?_cons, hnil]

theorem get?_flagged {m : Metadata} (h : Dictionary.Distinct m) (key : String) :
    Dictionary.get? key (flagged m) =
      if key = loadAndGoKey then
        if (Dictionary.get? key m).any Json.Value.truthy then some (.boolean true) else none
      else Dictionary.get? key m := by
  induction m with
  | nil => simp [flagged, Dictionary.get?]
  | cons entry m ih =>
    obtain ⟨k, v⟩ := entry
    obtain ⟨hk, hm⟩ := List.nodup_cons.1 h
    have hrest := ih hm
    by_cases hflag : k = loadAndGoKey
    · subst hflag
      have hnone : Dictionary.get? loadAndGoKey m = none := Dictionary.get?_of_notMem hk
      by_cases hkey : key = loadAndGoKey
      · subst hkey
        rw [hnone] at hrest
        cases hv : v.truthy with
        | true => simp [flagged, hv, Dictionary.get?_cons]
        | false =>
          have hcons : flagged ((loadAndGoKey, v) :: m) = flagged m := by simp [flagged, hv]
          simp [hcons, hrest, hv, Dictionary.get?_cons]
      · rw [if_neg hkey] at hrest
        cases hv : v.truthy with
        | true =>
          have hcons : flagged ((loadAndGoKey, v) :: m) =
              (loadAndGoKey, .boolean true) :: flagged m := by simp [flagged, hv]
          simp [hcons, hrest, hkey, Dictionary.get?_cons]
        | false =>
          have hcons : flagged ((loadAndGoKey, v) :: m) = flagged m := by simp [flagged, hv]
          simp [hcons, hrest, hkey, Dictionary.get?_cons]
    · have hcons : flagged ((k, v) :: m) = (k, v) :: flagged m := by
        simp [flagged, hflag]
      rw [hcons, Dictionary.get?_cons, Dictionary.get?_cons, hrest]
      by_cases hkey : key = k
      · subst hkey
        simp [hflag]
      · simp [hkey]

/-- Rereading keeps the flag. -/
theorem loadAndGo_reread (d : Document) : d.reread.loadAndGo = d.loadAndGo := by
  have hget : Dictionary.get? loadAndGoKey d.reread.metadata = _ :=
    get?_rereadMetadata d loadAndGoKey
  rw [loadAndGo, hget, if_pos rfl]
  cases d.loadAndGo <;> rfl

/-- A document and its rereading have the same metadata under every key. -/
theorem get?_reread {d : Document} (h : Dictionary.Distinct d.metadata) (key : String) :
    Dictionary.get? key d.reread.metadata = Dictionary.get? key d.canon.metadata := by
  change Dictionary.get? key d.rereadMetadata = Dictionary.get? key (flagged d.metadata)
  rw [get?_rereadMetadata, get?_flagged h]
  by_cases hkey : key = loadAndGoKey
  · subst hkey
    rfl
  · rw [if_neg hkey, if_neg hkey]

/-- If no enumeration is named like a type, rereading gives what sequence text keeps. -/
theorem alike_reread {d : Document} (hkeys : Dictionary.Distinct d.metadata)
    (hnames : ∀ p ∈ d.parameters ++ d.locals, p.Unambiguous) : d.reread.Alike d.canon := by
  obtain ⟨hparameters, hlocals⟩ := List.forall_mem_append.1 hnames
  have hsame {declarations : List Declaration} (h : ∀ p ∈ declarations, p.Unambiguous) :
      declarations.map Declaration.reread = declarations := by
    rw [List.map_congr_left fun p hp => Declaration.reread_eq (h p hp), List.map_id']
  refine ⟨get?_reread hkeys, ?_⟩
  simp only [reread, hsame hparameters, hsame hlocals]
  rfl

/-- Rereading leaves the text as it is. -/
theorem write_reread (indent : Json.Indent) (d : Document) :
    d.reread.write indent = d.write indent := by
  have hmetadata : d.reread.metadata.filter (·.1 != loadAndGoKey) =
      d.metadata.filter (·.1 != loadAndGoKey) := by
    change d.rereadMetadata.filter (·.1 != loadAndGoKey) = _
    rw [rereadMetadata, List.filter_append, List.filter_filter]
    cases d.loadAndGo <;> simp
  have hmap {α : Type} {canon : α → α} {write : α → Except WriteError (List Char)}
      (h : ∀ a, write (canon a) = write a) (items : List α) :
      (items.map canon).mapM write = items.mapM write := by
    rw [List.mapM_map]
    exact congrArg (fun f => items.mapM f) (funext h)
  simp only [write, loadAndGo_reread, hmetadata]
  simp only [reread, canon, Declaration.writeBlock_reread, hmap (Step.write_canon indent),
    hmap (ImmediateCommand.write_canon indent), hmap (HardwareCommand.write_canon indent),
    hmap (Request.write_canon indent)]

end Document

end CommandSequence
