import CommandSequence.Proofs.LooseArgument.LeftOut

/-!
# Arguments of the right types

A checked argument is one of those that have not been checked (`Argument.loose`), and it is written
as it is in a document, without warnings (`writeAll_loose`). Where the single arguments that remain
have values of their types (`IsArgument`), an argument is written unless an integer is too long or
the value of a repetition is no array (`IsArgument.write_cases`, `write_notArray`).
-/

namespace CommandSequence

/-! ## Checked arguments -/

namespace BaseArgument

/-- The kind of a single argument. -/
def looseKind : BaseArgument → ArgumentKind
  | .string .. => .string
  | .number .. => .number
  | .boolean .. => .boolean
  | .symbol .. => .symbol
  | .hex .. => .hex

/-- The value of a single argument, without the guarantee of its type. -/
def looseValue : BaseArgument → LooseArgument
  | .string s _ | .symbol s _ | .hex s _ => .text s
  | .number n _ => .number n
  | .boolean b _ => .boolean b

/-- A single argument, without the guarantee of its type. -/
def loose (b : BaseArgument) : LooseArgument :=
  .argument b.looseKind b.looseValue

/-- The number of the argument, if it has one, is finite. -/
def IsFinite : BaseArgument → Prop
  | .number n _ => n.isFinite = true
  | _ => True

variable {b : BaseArgument}

@[simp] theorem single?_loose (b : BaseArgument) :
    b.loose.single? = some (b.looseKind, b.looseValue) := by
  cases b <;> rfl

theorem writeSingle_loose (b : BaseArgument) :
    LooseArgument.writeSingle b.looseKind b.looseValue = b.write.map some := by
  cases b <;> rfl

/-- A finite argument can be written unless it is an integer that is too long. -/
theorem decides_write_loose (h : b.IsFinite) :
    Decides (· = .integerTooLong) b.write (b.loose.showable = true) := by
  cases b with
  | number n name =>
    cases n with
    | int n =>
      have hshowable : (loose (.number (.int n) name)).showable = Decimal.writable n := by
        rw [loose, looseValue, LooseArgument.showable, LooseArgument.showable]
      rw [hshowable, BaseArgument.write, Number.literal]
      by_cases hn : Decimal.writable n = true
      · rw [if_pos hn]
        exact (Decides.ok _ _).congr (iff_of_true trivial hn)
      · rw [if_neg hn]
        exact ⟨fun h => absurd h hn, fun _ => ⟨_, rfl, rfl⟩⟩
    | float x =>
      have hwrite : BaseArgument.write (.number (.float x) name) = .ok x.write := if_pos h
      rw [hwrite]
      exact (Decides.ok _ _).congr (iff_of_true trivial rfl)
  | _ => exact (Decides.ok _ _).congr (iff_of_true trivial rfl)

end BaseArgument

/-- An argument, without the guarantee of its type. -/
def Argument.loose : Argument → LooseArgument
  | .base b => b.loose
  | .repetition sets _ =>
    .argument .repetition (.array (sets.map fun set => .array (set.map BaseArgument.loose)))

namespace LooseArgument

variable {a item : LooseArgument} {items sets : List LooseArgument}

/-- Pieces that are text are joined. -/
theorem bind_joinPieces {α : Type} (texts : Except WriteError (List (List Char)))
    (f : List Char → α) :
    ((texts.map (List.map some)).bind fun pieces => (joinPieces pieces).map f) =
      texts.map fun texts => f (ToText.joined [' '] texts) := by
  cases texts with
  | error e => rfl
  | ok texts =>
    have hmapM : (texts.map some).mapM id = some texts := by
      induction texts with
      | nil => rfl
      | cons text texts ih => simp [List.mapM_cons, ih]
    simp only [Except.map, Except.bind, joinPieces, hmapM]

/-- A blank before the first of some texts and between them is one before each. -/
theorem cons_joined {texts : List (List Char)} (h : texts ≠ []) :
    (' ' : Char) :: ToText.joined [' '] texts = (texts.map ((' ' : Char) :: ·)).flatten := by
  induction texts with
  | nil => exact absurd rfl h
  | cons text texts ih =>
    cases texts with
    | nil => simp [ToText.joined, List.intercalate]
    | cons text' texts =>
      have hrest := ih (List.cons_ne_nil _ _)
      rw [List.map_cons, List.flatten_cons, ← hrest]
      simp [ToText.joined, List.intercalate]

theorem remaining_loose (sets : List (List BaseArgument)) :
    remaining (sets.map fun set => .array (set.map BaseArgument.loose)) =
      sets.flatten.map BaseArgument.loose := by
  induction sets with
  | nil => rfl
  | cons set sets ih => simp [remaining, isSingle, ih, List.filter_eq_self]

theorem leftOut_loose (argument : Argument) : argument.loose.leftOut = [] := by
  cases argument with
  | base b => cases b <;> rfl
  | repetition sets name =>
    simp [Argument.loose, leftOut, setWarnings, isSingle]

/-- Single arguments are written alike in a group. -/
theorem mapM_loose (bases : List BaseArgument) :
    ((bases.map BaseArgument.loose).filterMap single?).mapM
      (fun found => writeSingle found.1 found.2) =
        (bases.mapM BaseArgument.write).map (List.map some) := by
  have hfound : (bases.map BaseArgument.loose).filterMap single? =
      bases.map fun b => (b.looseKind, b.looseValue) := by
    rw [List.filterMap_map]
    simp [List.filterMap_eq_map']
  rw [hfound]
  exact mapM_map_eq fun b _ => b.writeSingle_loose

theorem write_loose (argument : Argument) :
    argument.loose.write.result = argument.write.map some := by
  cases argument with
  | base b =>
    rw [Argument.write, ← b.writeSingle_loose]
    cases b <;> rfl
  | repetition sets name =>
    have hshown : Shown (Argument.loose (.repetition sets name)).leftOut :=
      leftOut_loose (.repetition sets name) ▸ List.forall_mem_nil _
    rw [Argument.loose, (write_repetition_gives hshown).result, remaining_loose, group, mapM_loose,
      bind_joinPieces, Argument.write]
    cases sets.flatten.mapM BaseArgument.write <;> rfl

/-- Checked arguments are written as in a document, without warnings. -/
theorem writeAll_loose (arguments : List Argument) :
    writeAll (arguments.map Argument.loose) = ⟨[], Argument.writeAll arguments⟩ := by
  have hnone : (arguments.map Argument.loose).flatMap leftOut = [] := by
    simp [List.flatMap_map, leftOut_loose]
  have hpieces : pieces (arguments.map Argument.loose) =
      (arguments.mapM Argument.write).map (List.map some) :=
    mapM_map_eq fun argument _ => write_loose argument
  rw [writeAll_eq hnone, line, hpieces, List.isEmpty_map, Argument.writeAll]
  cases arguments with
  | nil => rfl
  | cons argument arguments =>
    rw [List.isEmpty_cons, if_neg Bool.false_ne_true, bind_joinPieces]
    cases hwrite : (argument :: arguments).mapM Argument.write with
    | error e => rfl
    | ok texts =>
      have hfilled : texts ≠ [] := by
        rintro rfl
        cases mapM_eq_ok.1 hwrite
      rw [ok_bind, ← cons_joined hfilled]
      rfl

/-! ## Arguments of the right types -/

/-- A single argument with a value of its type, a number being finite. -/
def IsBase (a : LooseArgument) : Prop :=
  ∃ b : BaseArgument, b.IsFinite ∧ b.loose = a

/-- An argument of one of the kinds. The single arguments have values of their types; a repetition
can have any value, and in an array any members and items besides these. -/
inductive IsArgument : LooseArgument → Prop
  | single {a : LooseArgument} (h : a.IsBase) : IsArgument a
  | repetition {value : LooseArgument}
    (h : ∀ sets, value = .array sets → ∀ item ∈ remaining sets, item.IsBase) :
    IsArgument (.argument .repetition value)

/-- The value of a repetition is an array. -/
def HoldsArray : LooseArgument → Prop
  | .argument .repetition (.array _) => True
  | .argument .repetition _ => False
  | _ => True

theorem showableAll_iff : showableAll items = true ↔ ∀ item ∈ items, item.showable = true := by
  induction items with
  | nil => simp [showableAll]
  | cons item items ih => simp [showableAll, ih]

/-- The value that an item of a repetition is made of. -/
def origin : Warning ⊕ (ArgumentKind × LooseArgument) → LooseArgument
  | .inl warning => warning.value
  | .inr (kind, value) => .argument kind value

theorem eq_of_single? {found : ArgumentKind × LooseArgument} (h : item.single? = some found) :
    item = .argument found.1 found.2 := by
  unfold single? at h
  split at h <;> cases h
  rfl

theorem origin_sorted (item : LooseArgument) : origin (sorted item) = item := by
  unfold sorted
  cases hitem : item.single? with
  | none => rfl
  | some found => exact (eq_of_single? hitem).symm

/-- The integers of a repetition are those of its items. -/
theorem showable_repeated (sets : List LooseArgument) :
    showableAll sets = true ↔ ∀ entry ∈ repeated sets, (origin entry).showable = true := by
  induction sets with
  | nil => simp [showableAll, repeated]
  | cons set sets ih =>
    rw [showableAll, Bool.and_eq_true, ih]
    cases set with
    | array items =>
      rw [repeated, List.forall_mem_append, List.forall_mem_map, showable, showableAll_iff]
      simp only [origin_sorted]
    | _ => simp [repeated, origin, Warning.value]

/-- The warnings about a repetition can be shown if its integers are short. -/
theorem shown_setWarnings (h : showableAll sets = true) : Shown (sets.flatMap setWarnings) := by
  rw [← (repeated_parts sets).1]
  intro w hw
  obtain ⟨entry, hentry, hleft⟩ := List.mem_filterMap.1 hw
  have hshowable := (showable_repeated sets).1 h entry hentry
  rw [Sum.getLeft?_eq_some_iff.1 hleft] at hshowable
  exact hshowable

theorem shown_leftOut (h : a.showable = true) : Shown a.leftOut := by
  unfold leftOut
  split
  · next sets =>
    rw [showable, showable] at h
    exact shown_setWarnings h
  · exact List.forall_mem_nil _

/-- Items of the right types are written up to the first integer that is too long. -/
theorem writeItems_long {entries : List (Warning ⊕ (ArgumentKind × LooseArgument))}
    (h : ∀ found, .inr found ∈ entries → (origin (.inr found)).IsBase)
    (hlong : ∃ entry ∈ entries, (origin entry).showable = false) :
    (writeItems entries).result = .error .integerTooLong := by
  induction entries with
  | nil => simp at hlong
  | cons entry entries ih =>
    have hrest := ih fun found hfound => h found (List.mem_cons_of_mem _ hfound)
    -- if the first item is written, the integer that is too long is in a later one
    have hlater (hentry : (origin entry).showable = true) :
        (writeItems entries).result = .error .integerTooLong := by
      obtain ⟨entry', hmem, hentry'⟩ := hlong
      rcases List.mem_cons.1 hmem with rfl | hmem
      · rw [hentry] at hentry'
        cases hentry'
      · exact hrest ⟨entry', hmem, hentry'⟩
    cases entry with
    | inl warning =>
      rw [writeItems]
      split
      · next hwarning => exact hlater hwarning
      · rfl
    | inr found =>
      obtain ⟨b, hfinite, hb⟩ := h found List.mem_cons_self
      have hsingle : writeSingle found.1 found.2 = b.write.map some := by
        obtain ⟨hkind, hvalue⟩ := LooseArgument.argument.inj hb
        rw [← hkind, ← hvalue, b.writeSingle_loose]
      have hdecides := BaseArgument.decides_write_loose hfinite
      rw [hb] at hdecides
      rw [writeItems, hsingle]
      by_cases hshowable : (origin (.inr found)).showable = true
      · obtain ⟨text, htext⟩ := hdecides.result hshowable
        rw [htext]
        dsimp only [Except.map]
        rw [hlater hshowable]
      · obtain ⟨e, he, rfl⟩ := hdecides.error hshowable
        rw [he]
        rfl

/-- Single arguments of the right types among the items that remain are a group. -/
theorem group_ok (h : ∀ item ∈ items, item.IsBase ∧ item.showable = true) :
    ∃ text, group items = .ok (some text) := by
  have hbases : ∃ bases : List BaseArgument, bases.map BaseArgument.loose = items ∧
      ∀ b ∈ bases, b.IsFinite ∧ b.loose.showable = true := by
    induction items with
    | nil => exact ⟨[], rfl, List.forall_mem_nil _⟩
    | cons item items ih =>
      obtain ⟨⟨⟨b, hfinite, rfl⟩, hshowable⟩, hrest⟩ := List.forall_mem_cons.1 h
      obtain ⟨bases, rfl, hall⟩ := ih hrest
      exact ⟨b :: bases, rfl, List.forall_mem_cons.2 ⟨⟨hfinite, hshowable⟩, hall⟩⟩
  obtain ⟨bases, rfl, hall⟩ := hbases
  obtain ⟨texts, htexts⟩ := (Decides.mapM fun b hb =>
    BaseArgument.decides_write_loose (hall b hb).1).result fun b hb => (hall b hb).2
  refine ⟨bracketed (ToText.joined [' '] texts), ?_⟩
  rw [group, mapM_loose, bind_joinPieces, htexts]
  rfl

theorem mem_remaining {found : ArgumentKind × LooseArgument} (h : .inr found ∈ repeated sets) :
    origin (.inr found) ∈ remaining sets := by
  have hfound : found ∈ (repeated sets).filterMap Sum.getRight? :=
    List.mem_filterMap.2 ⟨.inr found, h, rfl⟩
  rw [(repeated_parts sets).2] at hfound
  obtain ⟨item, hitem, hsingle⟩ := List.mem_filterMap.1 hfound
  rw [eq_of_single? hsingle] at hitem
  exact hitem

theorem showable_remaining (h : showableAll sets = true) :
    ∀ item ∈ remaining sets, item.showable = true := by
  induction sets with
  | nil => exact List.forall_mem_nil _
  | cons set sets ih =>
    rw [showableAll, Bool.and_eq_true] at h
    cases set with
    | array items =>
      refine List.forall_mem_append.2 ⟨fun item hitem => ?_, ih h.2⟩
      rw [showable] at h
      exact showableAll_iff.1 h.1 item (List.mem_filter.1 hitem).1
    | _ => exact ih h.2

/-- An argument of the right types, and a repetition of an array, is written unless an integer is
too long. -/
theorem IsArgument.write_cases (h : a.IsArgument) (harray : a.HoldsArray) :
    (a.showable = true → ∃ text, a.write.result = .ok (some text)) ∧
      (¬a.showable = true → a.write.result = .error .integerTooLong) := by
  cases h with
  | single h =>
    obtain ⟨b, hfinite, rfl⟩ := h
    have hdecides := BaseArgument.decides_write_loose hfinite
    have hwrite : b.loose.write.result = b.write.map some := write_loose (.base b)
    rw [hwrite]
    refine ⟨fun hshow => ?_, fun hlong => ?_⟩
    · obtain ⟨text, htext⟩ := hdecides.result hshow
      exact ⟨text, by rw [htext]; rfl⟩
    · obtain ⟨e, he, rfl⟩ := hdecides.error hlong
      rw [he]
      rfl
  | @repetition value h =>
    have hsets : ∃ sets, value = .array sets := by
      unfold HoldsArray at harray
      split at harray
      · next heq => cases heq; exact ⟨_, rfl⟩
      · exact harray.elim
      · next hother => exact absurd rfl (hother value)
    obtain ⟨sets, rfl⟩ := hsets
    have hremaining := h sets rfl
    have hshowable : (argument .repetition (.array sets)).showable = showableAll sets := by
      rw [showable, showable]
    rw [hshowable]
    refine ⟨fun hshow => ?_, fun hlong => ?_⟩
    · rw [(write_repetition_gives (shown_setWarnings hshow)).result]
      exact group_ok fun item hitem => ⟨hremaining item hitem, showable_remaining hshow item hitem⟩
    · -- no warning can be relied on here: the items are followed up to the one that fails
      rw [showable_repeated, not_forall] at hlong
      obtain ⟨entry, hentry⟩ := hlong
      rw [Classical.not_imp, Bool.not_eq_true] at hentry
      have hitems := writeItems_long (fun found hfound => hremaining _ (mem_remaining hfound))
        ⟨entry, hentry⟩
      rw [write]
      dsimp only
      rw [hitems]
      rfl

/-- A repetition of what is no array is an error that shows it. -/
theorem write_notArray (h : ¬a.HoldsArray) (hshow : a.showable = true) :
    ∃ value, a = .argument .repetition value ∧ a.write.result = .error (.notArray value.shown) := by
  unfold HoldsArray at h
  split at h
  · exact absurd trivial h
  · next value hother =>
    refine ⟨value, rfl, ?_⟩
    rw [showable] at hshow
    unfold write
    split
    · next heq => cases heq; exact (hother _ rfl).elim
    · next heq => cases heq; rw [if_pos hshow]
    · next hkind heq => cases heq; exact (hkind rfl).elim
    · next hother => exact absurd rfl (hother .repetition value)
  · exact absurd trivial h

/-- Pieces of text make up a line. -/
theorem line_ok (h : ∀ a ∈ items, ∃ text, a.write.result = .ok (some text)) :
    ∃ text, line items = .ok text := by
  have hpieces : ∃ texts, pieces items = (Except.ok texts).map (List.map some) := by
    induction items with
    | nil => exact ⟨[], rfl⟩
    | cons a items ih =>
      obtain ⟨⟨text, htext⟩, hrest⟩ := List.forall_mem_cons.1 h
      obtain ⟨texts, htexts⟩ := ih hrest
      rw [pieces] at htexts
      exact ⟨text :: texts, by rw [pieces, List.mapM_cons, htext, htexts]; rfl⟩
  obtain ⟨texts, htexts⟩ := hpieces
  unfold line
  split
  · exact ⟨[], rfl⟩
  · rw [htexts, bind_joinPieces]
    exact ⟨_, rfl⟩

theorem line_error {e : WriteError} (h : pieces items = .error e) : line items = .error e := by
  cases items with
  | nil => cases h
  | cons a items =>
    rw [line, h]
    rfl

/-- Arguments of the six kinds, with values of their types and with finite numbers, are written like
what remains of them, with one warning for each thing that is left out, in order; or an integer is
too long. If the value of a repetition is no array, that is the error. Arguments that have been
checked are written as they are, without warnings, and a group depends only on what remains of its
sets, one after the other. -/
theorem writeAll_drops (items : List LooseArgument) (hitems : ∀ a ∈ items, a.IsArgument) :
    ((∀ a ∈ items, a.HoldsArray) →
      (showableAll items = true → ∃ text, writeAll items = ⟨items.flatMap leftOut, .ok text⟩ ∧
        writeAll (items.map pruned) = ⟨[], .ok text⟩) ∧
      (showableAll items = false → (writeAll items).result = .error .integerTooLong)) ∧
    ((∃ a ∈ items, ¬a.HoldsArray) → showableAll items = true → ∃ value,
      .argument .repetition value ∈ items ∧ ¬(argument .repetition value).HoldsArray ∧
        (writeAll items).result = .error (.notArray value.shown)) ∧
    (∀ arguments : List Argument,
      writeAll (arguments.map Argument.loose) = ⟨[], Argument.writeAll arguments⟩) ∧
    ∀ sets sets', remaining sets = remaining sets' → showableAll sets = true →
      showableAll sets' = true → (write (.argument .repetition (.array sets))).result =
        (write (.argument .repetition (.array sets'))).result := by
  refine ⟨fun harrays => ⟨fun hshow => ?_, fun hlong => ?_⟩, fun hother hshow => ?_, writeAll_loose,
    fun sets sets' hsame hshow hshow' => ?_⟩
  · have hshow := showableAll_iff.1 hshow
    obtain ⟨text, htext⟩ :=
      line_ok fun a ha => ((hitems a ha).write_cases (harrays a ha)).1 (hshow a ha)
    have hshown : Shown (items.flatMap leftOut) := fun w hw => by
      obtain ⟨a, ha, hw⟩ := List.mem_flatMap.1 hw
      exact shown_leftOut (hshow a ha) w hw
    have hgives := writeAll_gives hshown
    refine ⟨text, ?_, htext ▸ writeAll_pruned hshown⟩
    exact congrArg₂ Written.mk (hgives.all text htext) (hgives.result.trans htext)
  · have hdecides : Decides (· = .integerTooLong) (pieces items) (∀ a ∈ items, a.showable = true) :=
      .mapM fun a ha => by
        obtain ⟨hshort, hlong⟩ := (hitems a ha).write_cases (harrays a ha)
        exact ⟨fun hshow => (hshort hshow).imp' some fun _ => id, fun hnot => ⟨_, hlong hnot, rfl⟩⟩
    obtain ⟨e, he, rfl⟩ := hdecides.error fun hall => by
      rw [showableAll_iff.2 hall] at hlong
      cases hlong
    rw [result_writeAll]
    exact line_error he
  · have hshow := showableAll_iff.1 hshow
    rw [result_writeAll]
    cases hpieces : pieces items with
    | ok found =>
      obtain ⟨a, ha, harray⟩ := hother
      obtain ⟨piece, hpiece⟩ := exists_of_mapM hpieces a ha
      obtain ⟨value, -, herror⟩ := write_notArray harray (hshow a ha)
      rw [hpiece] at herror
      cases herror
    | error e =>
      obtain ⟨a, ha, herror⟩ := exists_of_mapM_error hpieces
      by_cases harray : a.HoldsArray
      · obtain ⟨text, htext⟩ := ((hitems a ha).write_cases harray).1 (hshow a ha)
        rw [htext] at herror
        cases herror
      · obtain ⟨value, rfl, hwrite⟩ := write_notArray harray (hshow a ha)
        rw [hwrite] at herror
        cases herror
        exact ⟨value, ha, harray, line_error hpieces⟩
  · rw [(write_repetition_gives (shown_setWarnings hshow)).result,
      (write_repetition_gives (shown_setWarnings hshow')).result, hsame]

/-- A repetition with a text among its sets and a repetition among the items of the last. -/
def mixed : List LooseArgument :=
  [.argument .repetition (.array [.array [.argument .number (.number (.int 1))], .text "junk",
    .array [.argument .repetition (.array []), .argument .number (.number (.int 2))]])]

theorem isArgument_mixed : ∀ a ∈ mixed, a.IsArgument := by
  refine List.forall_mem_singleton.2 (.repetition fun sets hsets => ?_)
  cases hsets
  exact List.forall_mem_cons.2 ⟨⟨.number (.int 1) none, rfl, rfl⟩,
    List.forall_mem_singleton.2 ⟨.number (.int 2) none, rfl, rfl⟩⟩

theorem writeAll_drops_mixed :
    (writeAll mixed).result = .ok (String.toList " [1 2]") ∧
    (∃ text, writeAll mixed =
        ⟨[.notSet (.text "junk"), .notSingle (.argument .repetition (.array []))], .ok text⟩ ∧
      writeAll (mixed.map pruned) = ⟨[], .ok text⟩) ∧
    ∃ value, (writeAll [.argument .repetition (.text "oops")]).result =
      .error (.notArray value) := by
  have hoops : ∀ a ∈ [LooseArgument.argument .repetition (.text "oops")], a.IsArgument :=
    List.forall_mem_singleton.2 (.repetition fun sets hsets => nomatch hsets)
  refine ⟨by decide +kernel, ?_, ?_⟩
  · exact ((writeAll_drops mixed isArgument_mixed).1 (List.forall_mem_singleton.2 trivial)).1
      (by decide +kernel)
  · obtain ⟨value, -, -, hresult⟩ := (writeAll_drops _ hoops).2.1
      ⟨_, List.mem_singleton_self _, id⟩ (by decide +kernel)
    exact ⟨_, hresult⟩

/-- A repetition of which a member is an integer that is too long to be shown. -/
def overlong : List LooseArgument :=
  [.argument .repetition (.array [.number (.int (.ofNat (tenPow Decimal.digitLimit)))])]

/-- A warning that cannot be shown fails, though what it is about would be left out. -/
theorem writeAll_fails_overlong : (∀ a ∈ overlong, a.IsArgument ∧ a.HoldsArray) ∧
    writeAll (overlong.map pruned) = ⟨[], .ok (String.toList " []")⟩ ∧
    writeAll overlong = ⟨[], .error .integerTooLong⟩ := by
  refine ⟨List.forall_mem_singleton.2 ⟨.repetition fun sets hsets => ?_, trivial⟩, rfl, ?_⟩
  · cases hsets
    exact List.forall_mem_nil _
  · have hlong : (number (.int (.ofNat (tenPow Decimal.digitLimit)))).showable = false := by
      decide +kernel
    simp only [overlong, writeAll, writePieces, write, repeated, writeItems, Warning.value, hlong]
    rfl

end LooseArgument

end CommandSequence
