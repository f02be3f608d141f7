import CommandSequence.LooseArgument
import CommandSequence.Proofs.Outcome

/-!
# What is left out of arguments

Arguments that have not been checked are written like what remains of them: `pruned` takes the
members of repetitions away that are no argument sets, and from the sets what is no single argument,
and `leftOut` are the warnings about these (`writeAll_gives`, `writeAll_pruned`). Nothing is
required of the other values for this, only that the warnings can be shown. A group is then written
from the items that remain, one set after the other (`write_repetition_gives`).
-/

namespace CommandSequence.LooseArgument

variable {a : LooseArgument} {items sets : List LooseArgument}

/-! ## What remains -/

/-- Whether an item of an argument set is a single argument. -/
def isSingle (item : LooseArgument) : Bool :=
  item.single?.isSome

/-- The single arguments in the sets of a repetition, one set after the other. -/
def remaining : List LooseArgument → List LooseArgument
  | [] => []
  | .array items :: rest => items.filter isSingle ++ remaining rest
  | _ :: rest => remaining rest

/-- An argument set without what is no single argument, and nothing for what is no set. -/
def prunedSet? : LooseArgument → Option LooseArgument
  | .array items => some (.array (items.filter isSingle))
  | _ => none

/-- An argument without what is left out of it. -/
def pruned : LooseArgument → LooseArgument
  | .argument .repetition (.array sets) =>
    .argument .repetition (.array (sets.filterMap prunedSet?))
  | other => other

/-- The warnings about a member of a repetition: one about a member that is no set, otherwise one
about each item that is no single argument. -/
def setWarnings : LooseArgument → List Warning
  | .array items => (items.filter fun item => !item.isSingle).map .notSingle
  | other => [.notSet other]

/-- The warnings about an argument, in order. -/
def leftOut : LooseArgument → List Warning
  | .argument .repetition (.array sets) => sets.flatMap setWarnings
  | _ => []

/-- The warnings among the items of a repetition are about what is left out, and the rest is what
remains. -/
theorem repeated_parts (sets : List LooseArgument) :
    (repeated sets).filterMap Sum.getLeft? = sets.flatMap setWarnings ∧
      (repeated sets).filterMap Sum.getRight? = (remaining sets).filterMap single? := by
  have hitems (items : List LooseArgument) :
      (items.map sorted).filterMap Sum.getLeft? = setWarnings (.array items) ∧
        (items.map sorted).filterMap Sum.getRight? = (items.filter isSingle).filterMap single? := by
    rw [setWarnings]
    induction items with
    | nil => exact ⟨rfl, rfl⟩
    | cons item items ih =>
      cases hitem : item.single? <;> simp [List.filterMap_cons, sorted, isSingle, hitem, ih]
  induction sets with
  | nil => exact ⟨rfl, rfl⟩
  | cons set sets ih =>
    cases set with
    | array items => simp [repeated, remaining, hitems, ih]
    | _ => simp [repeated, remaining, setWarnings, List.filterMap_cons, ih]

theorem remaining_pruned (sets : List LooseArgument) :
    remaining (sets.filterMap prunedSet?) = remaining sets := by
  induction sets with
  | nil => rfl
  | cons set sets ih =>
    cases set with
    | array items => simp [prunedSet?, remaining, ih]
    | _ => simpa [prunedSet?, remaining, List.filterMap_cons] using ih

theorem setWarnings_pruned (sets : List LooseArgument) :
    (sets.filterMap prunedSet?).flatMap setWarnings = [] := by
  induction sets with
  | nil => rfl
  | cons set sets ih =>
    cases set with
    | array items => simp [prunedSet?, setWarnings, ih]
    | _ => simpa [prunedSet?, List.filterMap_cons] using ih

/-- Something is left out of repetitions of arrays only; anything else stays whole and is written
without warnings. -/
theorem repetition_or_whole (a : LooseArgument) :
    (∃ sets, a = .argument .repetition (.array sets)) ∨
      a.pruned = a ∧ a.leftOut = [] ∧ a.write.warnings = [] := by
  unfold pruned
  split
  · next sets => exact .inl ⟨sets, rfl⟩
  · next hother =>
    refine .inr ⟨rfl, ?_, ?_⟩
    · unfold leftOut
      split
      · next sets => exact absurd rfl (hother sets)
      · rfl
    · unfold write
      split
      · next sets => exact absurd rfl (hother sets)
      all_goals rfl

/-- Nothing more is left out of what remains. -/
theorem leftOut_pruned (a : LooseArgument) : a.pruned.leftOut = [] := by
  rcases repetition_or_whole a with ⟨sets, rfl⟩ | ⟨hpruned, hleftOut, -⟩
  · exact setWarnings_pruned sets
  · rw [hpruned, hleftOut]

/-! ## Writing with warnings -/

/-- What is written has the outcome `r`, up to an error with the first of the warnings, and with all
of them if there is none. -/
structure Written.Gives {α : Type} (w : Written α) (warnings : List Warning)
    (r : Except WriteError α) : Prop where
  result : w.result = r
  initial : w.warnings <+: warnings
  all : ∀ found, r = .ok found → w.warnings = warnings

/-- What is made of a result adds no warning. -/
theorem Written.Gives.bind {α β : Type} {w : Written α} {warnings : List Warning}
    {r : Except WriteError α} (h : w.Gives warnings r) (f : α → Except WriteError β) :
    (⟨w.warnings, w.result.bind f⟩ : Written β).Gives warnings (r.bind f) := by
  refine ⟨by rw [h.result], h.initial, fun found hfound => ?_⟩
  obtain ⟨first, hfirst, -⟩ := bind_eq_ok.1 hfound
  exact h.all first hfirst

/-- Every warning can be shown. -/
def Shown (warnings : List Warning) : Prop :=
  ∀ w ∈ warnings, w.value.showable = true

/-- The items of a repetition are written like the single arguments among them. -/
theorem writeItems_gives {entries : List (Warning ⊕ (ArgumentKind × LooseArgument))}
    (h : Shown (entries.filterMap Sum.getLeft?)) :
    (writeItems entries).Gives (entries.filterMap Sum.getLeft?)
      ((entries.filterMap Sum.getRight?).mapM fun found => writeSingle found.1 found.2) := by
  induction entries with
  | nil => exact ⟨rfl, List.prefix_rfl, fun _ _ => rfl⟩
  | cons entry entries ih =>
    cases entry with
    | inl warning =>
      obtain ⟨hwarning, hrest⟩ := List.forall_mem_cons.1 h
      obtain ⟨hresult, hinitial, hall⟩ := ih hrest
      simp only [writeItems, if_pos hwarning]
      exact ⟨hresult, (List.prefix_cons_inj warning).2 hinitial,
        fun found hfound => congrArg (warning :: ·) (hall found hfound)⟩
    | inr found =>
      obtain ⟨kind, value⟩ := found
      obtain ⟨hresult, hinitial, hall⟩ := ih h
      rw [List.filterMap_cons_some (rfl : Sum.getRight? (Sum.inr (kind, value)) = _),
        List.mapM_cons]
      dsimp only
      cases hsingle : writeSingle kind value with
      | error e =>
        simp only [writeItems, hsingle]
        exact ⟨rfl, List.nil_prefix, fun _ hfound => nomatch hfound⟩
      | ok piece =>
        rw [ok_bind]
        simp only [writeItems, hsingle]
        refine ⟨?_, hinitial, fun found hfound => ?_⟩
        · rw [hresult]
          rfl
        · obtain ⟨pieces, hpieces, -⟩ := bind_eq_ok.1 hfound
          exact hall pieces hpieces

/-- The group of the items that remain. -/
def group (items : List LooseArgument) : Except WriteError Piece :=
  ((items.filterMap single?).mapM fun found => writeSingle found.1 found.2).bind fun pieces =>
    (joinPieces pieces).map (some ∘ bracketed)

/-- A repetition is written as the group of the items that remain of it. -/
theorem write_repetition_gives (h : Shown (sets.flatMap setWarnings)) :
    (write (.argument .repetition (.array sets))).Gives (sets.flatMap setWarnings)
      (group (remaining sets)) := by
  obtain ⟨hleft, hright⟩ := repeated_parts sets
  have hitems := @writeItems_gives (repeated sets) (hleft ▸ h)
  rw [hleft, hright] at hitems
  have hmap (r : Except WriteError (List Piece)) :
      (r.bind joinPieces).map (some ∘ bracketed) =
        r.bind fun pieces => (joinPieces pieces).map (some ∘ bracketed) := by
    cases r <;> rfl
  rw [write, hmap]
  exact hitems.bind _

/-- An argument is written like what remains of it. -/
theorem write_gives (h : Shown a.leftOut) : a.write.Gives a.leftOut a.pruned.write.result := by
  rcases repetition_or_whole a with ⟨sets, rfl⟩ | ⟨hpruned, hleftOut, hwarnings⟩
  · have hnone : Shown ((sets.filterMap prunedSet?).flatMap setWarnings) := by
      rw [setWarnings_pruned]
      exact List.forall_mem_nil _
    rw [pruned, (write_repetition_gives hnone).result, remaining_pruned]
    exact write_repetition_gives h
  · rw [hpruned, hleftOut]
    exact ⟨rfl, hwarnings ▸ List.prefix_rfl, fun _ _ => hwarnings⟩

/-- What is written of each argument. -/
def pieces (items : List LooseArgument) : Except WriteError (List Piece) :=
  items.mapM fun a : LooseArgument => a.write.result

theorem result_writePieces (items : List LooseArgument) :
    (writePieces items).result = pieces items := by
  induction items with
  | nil => rfl
  | cons a items ih =>
    rw [pieces, List.mapM_cons, writePieces]
    cases a.write.result with
    | error e => rfl
    | ok piece =>
      dsimp only
      rw [ih]
      rfl

/-- Arguments are written one by one. -/
theorem writePieces_gives (h : Shown (items.flatMap leftOut)) :
    (writePieces items).Gives (items.flatMap leftOut) (pieces items) := by
  induction items with
  | nil => exact ⟨rfl, List.prefix_rfl, fun _ _ => rfl⟩
  | cons a items ih =>
    obtain ⟨ha, hitems⟩ := List.forall_mem_append.1 h
    obtain ⟨-, hinitial, hall⟩ := ih hitems
    have hfirst := write_gives ha
    have hresult := result_writePieces (a :: items)
    rw [pieces, List.mapM_cons] at hresult ⊢
    rw [List.flatMap_cons]
    cases hwrite : a.write.result with
    | error e =>
      rw [hwrite, error_bind] at hresult
      refine ⟨hresult, ?_, fun _ hfound => nomatch hfound⟩
      simp only [writePieces, hwrite]
      exact hfirst.initial.trans (List.prefix_append ..)
    | ok piece =>
      rw [hwrite, ok_bind] at hresult
      have hwarnings : (writePieces (a :: items)).warnings =
          a.leftOut ++ (writePieces items).warnings := by
        simp only [writePieces, hwrite, hfirst.all piece (hfirst.result ▸ hwrite)]
      rw [ok_bind]
      refine ⟨hresult, ?_, fun found hfound => ?_⟩
      · rw [hwarnings]
        exact (List.prefix_append_right_inj _).2 hinitial
      · obtain ⟨rest, hrest, -⟩ := bind_eq_ok.1 hfound
        rw [hwarnings, hall rest hrest]

/-- Arguments, each after a blank, made of what is written of each. -/
def line (items : List LooseArgument) : Except WriteError (List Char) :=
  if items.isEmpty then .ok []
  else (pieces items).bind fun pieces => (joinPieces pieces).map (' ' :: ·)

theorem result_writeAll (items : List LooseArgument) : (writeAll items).result = line items := by
  unfold writeAll line
  split
  · rfl
  · dsimp only
    rw [result_writePieces]
    cases pieces items <;> rfl

theorem writeAll_gives (h : Shown (items.flatMap leftOut)) :
    (writeAll items).Gives (items.flatMap leftOut) (line items) := by
  have hpieces := writePieces_gives h
  cases items with
  | nil => exact ⟨rfl, List.prefix_rfl, fun _ _ => rfl⟩
  | cons a items =>
    refine ⟨result_writeAll _, hpieces.initial, fun text htext => ?_⟩
    obtain ⟨found, hfound, -⟩ := bind_eq_ok.1 htext
    exact hpieces.all found hfound

/-- Where there are no warnings, only the outcome counts. -/
theorem Written.Gives.eq {α : Type} {w : Written α} {r : Except WriteError α} (h : w.Gives [] r) :
    w = ⟨[], r⟩ := by
  obtain ⟨warnings, result⟩ := w
  exact congrArg₂ Written.mk (List.prefix_nil.1 h.initial) h.result

/-- Where nothing is left out, there are no warnings. -/
theorem writeAll_eq (h : items.flatMap leftOut = []) : writeAll items = ⟨[], line items⟩ := by
  have hgives := @writeAll_gives items (h ▸ List.forall_mem_nil _)
  rw [h] at hgives
  exact hgives.eq

theorem pieces_pruned (h : Shown (items.flatMap leftOut)) :
    pieces (items.map pruned) = pieces items := by
  have heach : pieces (items.map pruned) = (pieces items).map (List.map id) := by
    refine mapM_map_eq fun a hmem => ?_
    have hshown : Shown a.leftOut := fun w hw => h w (List.mem_flatMap.2 ⟨a, hmem, hw⟩)
    rw [← (write_gives hshown).result]
    cases a.write.result <;> rfl
  rw [heach]
  cases pieces items with
  | error e => rfl
  | ok pieces => exact congrArg Except.ok (List.map_id pieces)

/-- Nothing is left out of what remains, and it is written alike. -/
theorem writeAll_pruned (h : Shown (items.flatMap leftOut)) :
    writeAll (items.map pruned) = ⟨[], line items⟩ := by
  have hnone : (items.map pruned).flatMap leftOut = [] := by
    simp [List.flatMap_map, leftOut_pruned]
  rw [writeAll_eq hnone, line, line, pieces_pruned h, List.isEmpty_map]

end CommandSequence.LooseArgument
