import ApostolRates.Library.Rollback

/-!
# A state in parts

Where an action reads and writes the part of its own key only, a part after a run is
what the actions with its key alone make of it.  So the order in which actions with
different keys run does not matter.
-/

set_option autoImplicit false

namespace Shards

open Rollback

variable {State Act Err Key Part : Type*}

/-- A successful step changes no part but the one of its key, and whether it succeeds
and what it makes of that part depends on that part only. -/
structure Local (part : Key → State → Part) (key : Act → Option Key)
    (step : State → Act → Except Err State) : Prop where
  frame : ∀ before act after other, step before act = .ok after → key act ≠ some other →
    part other after = part other before
  own : ∀ left right act place after, key act = some place → part place left = part place right →
    step left act = .ok after →
      ∃ rightAfter, step right act = .ok rightAfter ∧ part place rightAfter = part place after

section
variable {part : Key → State → Part} {key : Act → Option Key}
variable {step : State → Act → Except Err State}

/-! ## Runs -/

theorem Local.settle_frame (isLocal : Local part key step) {act : Act} {other : Key}
    (differs : key act ≠ some other) (state : State) :
    part other (settle step state act) = part other state := by
  cases outcome : step state act with
  | error failure => rw [settle, outcome, undoing_error]
  | ok after =>
      rw [settle_ok step state act after outcome]
      exact isLocal.frame state act after other outcome differs

theorem Local.settle_own (isLocal : Local part key step) {act : Act} {own : Key}
    (isOwn : key act = some own) {left right : State} (same : part own left = part own right) :
    part own (settle step left act) = part own (settle step right act) := by
  cases outcome : step left act with
  | ok after =>
      obtain ⟨rightAfter, success, kept⟩ :=
        isLocal.own left right act own after isOwn same outcome
      rw [settle_ok step left act after outcome, settle_ok step right act rightAfter success, kept]
  | error failure =>
      cases rightOutcome : step right act with
      | error other =>
          rw [settle, settle, outcome, rightOutcome, undoing_error, undoing_error, same]
      | ok rightAfter =>
          obtain ⟨after, success, _⟩ :=
            isLocal.own right left act own rightAfter isOwn same.symm rightOutcome
          rw [outcome] at success
          cases success

variable [DecidableEq Key]

def actsOf (key : Act → Option Key) (own : Key) (acts : List Act) : List Act :=
  acts.filter fun act => key act = some own

theorem actsOf_swap {first second : Act} (differs : key first ≠ key second) (own : Key)
    (rest : List Act) :
    actsOf key own (first :: second :: rest) = actsOf key own (second :: first :: rest) := by
  unfold actsOf
  by_cases isFirst : key first = some own
  · have isSecond : key second ≠ some own := fun same => differs (isFirst.trans same.symm)
    simp [isFirst, isSecond]
  · simp [List.filter_cons, isFirst]

theorem Local.part_run (isLocal : Local part key step) (own : Key) (state : State)
    (acts : List Act) :
    part own (run step state acts) = part own (run step state (actsOf key own acts)) := by
  induction acts using List.reverseRecOn with
  | nil => rfl
  | append_singleton acts act ih =>
      rw [run_concat, actsOf, List.filter_append]
      by_cases isOwn : key act = some own
      · rw [List.filter_cons_of_pos (by simpa using isOwn), List.filter_nil, run_concat]
        exact isLocal.settle_own isOwn ih
      · rw [List.filter_cons_of_neg (by simpa using isOwn), List.filter_nil, List.append_nil,
          isLocal.settle_frame isOwn]
        exact ih

/-- Runs with the same actions in the same order for each part leave the same state. -/
theorem Local.run_eq (isLocal : Local part key step)
    (ext : ∀ left right, (∀ own, part own left = part own right) → left = right) (state : State)
    {acts others : List Act} (same : ∀ own, actsOf key own acts = actsOf key own others) :
    run step state acts = run step state others :=
  ext _ _ fun own => by
    rw [isLocal.part_run own state acts, isLocal.part_run own state others, same own]

end

/-! ## Blocks -/

section
variable {part : Key → State → Part} {key : Act → Option Key}
variable {step : State → Act → Except Err State} {acts : List Act}

theorem Local.loop_frame (isLocal : Local part key step) {other : Key}
    (differs : ∀ act ∈ acts, key act ≠ some other) {state after : State}
    (success : acts.foldlM step state = .ok after) : part other after = part other state := by
  induction acts generalizing state with
  | nil =>
      cases success
      rfl
  | cons act rest ih =>
      obtain ⟨middle, head, tail⟩ := loop_cons_ok.mp success
      rw [ih (fun next member => differs next (List.mem_cons_of_mem _ member)) tail]
      exact isLocal.frame state act middle other head (differs act List.mem_cons_self)

theorem Local.loop_parts (isLocal : Local part key step) {owns : Key → Prop}
    (isOwn : ∀ act ∈ acts, ∃ place, key act = some place ∧ owns place) {left right after : State}
    (same : ∀ place, owns place → part place left = part place right)
    (success : acts.foldlM step left = .ok after) :
    ∃ rightAfter, acts.foldlM step right = .ok rightAfter ∧
      ∀ place, owns place → part place rightAfter = part place after := by
  induction acts generalizing left right with
  | nil =>
      cases success
      exact ⟨right, rfl, fun place owned => (same place owned).symm⟩
  | cons act rest ih =>
      obtain ⟨middle, head, tail⟩ := loop_cons_ok.mp success
      obtain ⟨place, isKey, owned⟩ := isOwn act List.mem_cons_self
      obtain ⟨rightMiddle, rightHead, kept⟩ :=
        isLocal.own left right act place middle isKey (same place owned) head
      have stillSame : ∀ other, owns other → part other middle = part other rightMiddle := by
        intro other otherOwned
        by_cases isPlace : other = place
        · rw [isPlace, kept]
        · have differs : key act ≠ some other := fun isOther =>
            isPlace (Option.some.inj (isOther.symm.trans isKey))
          rw [isLocal.frame left act middle other head differs,
            isLocal.frame right act rightMiddle other rightHead differs, same other otherOwned]
      obtain ⟨rightAfter, rightTail, last⟩ :=
        ih (fun next member => isOwn next (List.mem_cons_of_mem _ member)) stillSame tail
      exact ⟨rightAfter, loop_cons_ok.mpr ⟨rightMiddle, rightHead, rightTail⟩, last⟩

theorem Local.loop_own (isLocal : Local part key step) {own : Key}
    (isOwn : ∀ act ∈ acts, key act = some own) {left right after : State}
    (same : part own left = part own right) (success : acts.foldlM step left = .ok after) :
    ∃ rightAfter, acts.foldlM step right = .ok rightAfter ∧
      part own rightAfter = part own after := by
  obtain ⟨rightAfter, rightSuccess, parts⟩ :=
    isLocal.loop_parts (fun act member => ⟨own, isOwn act member, rfl⟩)
      (fun place (isPlace : own = place) => isPlace ▸ same) success
  exact ⟨rightAfter, rightSuccess, parts own rfl⟩

end

end Shards
