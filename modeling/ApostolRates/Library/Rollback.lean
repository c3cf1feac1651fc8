import Mathlib.Data.List.Induction
import Mathlib.Tactic.Common

/-!
# Runs whose failing steps are undone

A step either yields a new state or fails, and a failing step leaves the state
as it was.  The rules below lift a fact about one successful step to every
state of a run: an invariant, a fact that one action establishes and the others
keep, and the exact condition under which a property survives every step.
-/

set_option autoImplicit false

namespace Rollback

variable {State Act Err : Type*}

universe u v in
theorem except_bind_eq_ok {Err : Type u} {A B : Type v} {first : Except Err A}
    {next : A → Except Err B} {result : B} :
    (first >>= next) = .ok result ↔ ∃ middle, first = .ok middle ∧ next middle = .ok result := by
  cases first with
  | error failure => simp [bind, Except.bind]
  | ok middle => simp [bind, Except.bind]

theorem except_map_eq_ok {Err A B : Type*} {outcome : Except Err A} {convert : A → B} {result : B} :
    outcome.map convert = .ok result ↔ ∃ value, outcome = .ok value ∧ convert value = result := by
  cases outcome <;> simp [Except.map]

/-- The outcome of a block that is undone when it fails. -/
def undoing (before : State) : Except Err State → State
  | .ok after => after
  | .error _ => before

@[simp] theorem undoing_ok (before after : State) :
    undoing before (.ok after : Except Err State) = after := rfl

@[simp] theorem undoing_error (before : State) (failure : Err) :
    undoing before (.error failure : Except Err State) = before := rfl

def settle (step : State → Act → Except Err State) (state : State) (act : Act) : State :=
  undoing state (step state act)

def run (step : State → Act → Except Err State) (state : State) (acts : List Act) : State :=
  acts.foldl (settle step) state

theorem run_map {Source : Type*} (step : State → Act → Except Err State) (state : State)
    (translate : Source → Act) (acts : List Source) :
    run step state (acts.map translate) =
      run (fun before act => step before (translate act)) state acts := by
  simp only [run, List.foldl_map]
  rfl

section Run
variable (step : State → Act → Except Err State) (state : State)

@[simp] theorem run_nil : run step state [] = state := rfl

@[simp] theorem run_concat (acts : List Act) (act : Act) :
    run step state (acts ++ [act]) = settle step (run step state acts) act := by
  simp [run]

theorem settle_ok (act : Act) (after : State) (success : step state act = .ok after) :
    settle step state act = after := by
  simp [settle, success]

theorem run_concat_cases (acts : List Act) (act : Act) :
    (∃ failure, step (run step state acts) act = .error failure ∧
        run step state (acts ++ [act]) = run step state acts) ∨
      step (run step state acts) act = .ok (run step state (acts ++ [act])) := by
  rw [run_concat]
  cases outcome : step (run step state acts) act with
  | error failure => exact Or.inl ⟨failure, rfl, by rw [settle, outcome, undoing_error]⟩
  | ok after => exact Or.inr (by rw [settle_ok step _ act after outcome])

/-- An invariant of successful steps is an invariant of runs. -/
theorem run_invariant (Inv : State → Prop)
    (keeps : ∀ before act after, Inv before → step before act = .ok after → Inv after)
    (initial : Inv state) (acts : List Act) : Inv (run step state acts) := by
  induction acts using List.reverseRecOn with
  | nil => exact initial
  | append_singleton acts act ih =>
      rw [run_concat]
      cases outcome : step (run step state acts) act with
      | ok after =>
          rw [settle_ok step _ act after outcome]
          exact keeps _ act after ih outcome
      | error failure => simpa [settle, outcome] using ih

theorem run_keeps (Inv : State → Prop) (acts : List Act)
    (keeps : ∀ act ∈ acts, ∀ before after, Inv before → step before act = .ok after → Inv after)
    (initial : Inv state) : Inv (run step state acts) := by
  induction acts using List.reverseRecOn with
  | nil => exact initial
  | append_singleton acts act ih =>
      have before := ih fun other member => keeps other (List.mem_append_left _ member)
      rcases run_concat_cases step state acts act with ⟨_, _, same⟩ | success
      · rw [same]
        exact before
      · exact keeps act (by simp) _ _ before success

theorem run_ascends (above : State → State → Prop) (refl : ∀ given, above given given)
    (trans : ∀ first second third, above first second → above second third → above first third)
    (steps : ∀ before act after, step before act = .ok after → above before after)
    (acts : List Act) : above state (run step state acts) :=
  run_keeps step state (above state) acts
    (fun act _ before after reached success =>
      trans state before after reached (steps before act after success)) (refl state)

/-- The actions of a run that succeed, in their order. -/
def accepted (state : State) : List Act → List Act
  | [] => []
  | act :: rest =>
      match step state act with
      | .ok after => act :: accepted after rest
      | .error _ => accepted state rest

theorem run_part {Part : Type*} (part : State → Part) (effect : Part → Act → Part)
    (follows : ∀ before act after, step before act = .ok after →
      part after = effect (part before) act) (acts : List Act) :
    part (run step state acts) = (accepted step state acts).foldl effect (part state) := by
  induction acts generalizing state with
  | nil => rfl
  | cons act rest ih =>
      have unfolded : run step state (act :: rest) = run step (settle step state act) rest := rfl
      rw [unfolded, ih, accepted]
      cases outcome : step state act with
      | error failure => rw [settle, outcome, undoing_error]
      | ok after =>
          rw [settle_ok step state act after outcome, List.foldl_cons,
            follows state act after outcome]

/-- `act` succeeded at some point of the run. -/
def Succeeded (acts : List Act) (act : Act) : Prop :=
  ∃ earlier later after, acts = earlier ++ act :: later ∧
    step (run step state earlier) act = .ok after

theorem succeeded_concat (acts : List Act) (act last : Act)
    (succeeded : Succeeded step state (acts ++ [last]) act) :
    Succeeded step state acts act ∨
      act = last ∧ ∃ after, step (run step state acts) act = .ok after := by
  obtain ⟨earlier, later, after, split, success⟩ := succeeded
  rcases List.eq_nil_or_concat later with rfl | ⟨body, final, rfl⟩
  · obtain ⟨rfl, same⟩ := List.append_inj' split rfl
    cases same
    exact Or.inr ⟨rfl, after, success⟩
  · have regroup : acts ++ [last] = (earlier ++ act :: body) ++ [final] := by
      simpa using split
    exact Or.inl ⟨earlier, body, after, (List.append_inj' regroup rfl).1, success⟩

/-- What a successful action establishes, and every later step keeps, holds at
the end of the run. -/
theorem succeeded_invariant (Inv : State → Prop) (Mark : Act → State → Prop)
    (keepsInv : ∀ before act after, Inv before → step before act = .ok after → Inv after)
    (establishes : ∀ before act after, Inv before → step before act = .ok after →
      Mark act after)
    (keepsMark : ∀ before act after marked, Inv before → step before act = .ok after →
      Mark marked before → Mark marked after)
    (initial : Inv state) (acts : List Act) (act : Act)
    (succeeded : Succeeded step state acts act) : Mark act (run step state acts) := by
  induction acts using List.reverseRecOn with
  | nil =>
      obtain ⟨earlier, later, _, split, _⟩ := succeeded
      simp at split
  | append_singleton acts last ih =>
      have inv := run_invariant step state Inv keepsInv initial acts
      rw [run_concat]
      rcases succeeded_concat step state acts act last succeeded with before | ⟨rfl, after, success⟩
      · have marked := ih before
        cases outcome : step (run step state acts) last with
        | ok after =>
            rw [settle_ok step _ last after outcome]
            exact keepsMark _ last after act inv outcome marked
        | error failure => simpa [settle, outcome] using marked
      · rw [settle_ok step _ act after success]
        exact establishes _ act after inv success

def AllSucceed (acts : List Act) : Prop :=
  ∀ earlier act later, acts = earlier ++ act :: later →
    ∃ after, step (run step state earlier) act = .ok after

theorem allSucceed_nil : AllSucceed step state [] := by
  intro earlier act later split
  simp at split

theorem allSucceed_concat {acts : List Act} {last : Act} (succeed : AllSucceed step state acts)
    (success : ∃ after, step (run step state acts) last = .ok after) :
    AllSucceed step state (acts ++ [last]) := by
  intro earlier act later split
  rcases List.eq_nil_or_concat later with rfl | ⟨body, final, rfl⟩
  · obtain ⟨rfl, same⟩ := List.append_inj' split rfl
    cases same
    exact success
  · have regroup : acts ++ [last] = (earlier ++ act :: body) ++ [final] := by
      simpa using split
    exact succeed earlier act body (List.append_inj' regroup rfl).1

/-- A property that every step keeps under a condition holds throughout a run whose
steps all meet the condition. -/
theorem run_always (Inv Good : State → Prop) (Meets : State → Act → Prop)
    (keepsInv : ∀ before act after, Inv before → step before act = .ok after → Inv after)
    (keepsGood : ∀ before act, Inv before → Good before → Meets before act →
      Good (settle step before act))
    (initialInv : Inv state) (initialGood : Good state) (acts : List Act)
    (meets : ∀ earlier act, earlier ++ [act] <+: acts → Meets (run step state earlier) act) :
    ∀ reached, reached <+: acts → Good (run step state reached) := by
  intro reached
  induction reached using List.reverseRecOn with
  | nil => intro _; exact initialGood
  | append_singleton earlier act ih =>
      intro isPrefix
      have inv := run_invariant step state Inv keepsInv initialInv earlier
      have goodBefore := ih ((List.prefix_append _ _).trans isPrefix)
      rw [run_concat]
      exact keepsGood _ act inv goodBefore (meets earlier act isPrefix)

/-- Where only the labels of the actions are given and the rest of each action is
open, a property holds throughout all runs exactly when every step of them meets
the condition that is exact for one label. -/
theorem runs_always_iff {Label : Type*} (label : Act → Label) (Inv Good : State → Prop)
    (Allowed : Label → Prop) (Meets : State → Label → Prop)
    (keeps : ∀ before act after, Inv before → step before act = .ok after → Inv after)
    (exact_step : ∀ before given, Allowed given → Inv before → Good before →
      ((∀ act, label act = given → Good (settle step before act)) ↔ Meets before given))
    (initialInv : Inv state) (initialGood : Good state) (labels : List Label)
    (allowed : ∀ given ∈ labels, Allowed given) :
    (∀ acts, acts.map label = labels →
        ∀ reached, reached <+: acts → Good (run step state reached)) ↔
      ∀ acts, acts.map label = labels → ∀ earlier act, earlier ++ [act] <+: acts →
        Meets (run step state earlier) (label act) := by
  have allowedAt : ∀ acts, acts.map label = labels → ∀ earlier act,
      earlier ++ [act] <+: acts → Allowed (label act) := by
    intro acts labelled earlier act isPrefix
    have member : act ∈ acts := isPrefix.subset (by simp)
    exact allowed _ (labelled ▸ List.mem_map_of_mem member)
  constructor
  · intro good acts labelled earlier act isPrefix
    have inv := run_invariant step state Inv keeps initialInv earlier
    have goodBefore := good acts labelled earlier ((List.prefix_append _ _).trans isPrefix)
    refine (exact_step _ (label act) (allowedAt acts labelled earlier act isPrefix) inv
      goodBefore).mp fun other sameLabel => ?_
    obtain ⟨rest, rfl⟩ := isPrefix
    rw [← run_concat]
    refine good (earlier ++ [other] ++ rest) ?_ _ (List.prefix_append _ _)
    rw [← labelled]
    simp [sameLabel]
  · intro meets acts labelled
    refine run_always step state Inv Good
      (fun before act => Allowed (label act) ∧ Meets before (label act)) keeps ?_ initialInv
      initialGood acts ?_
    · intro before act inv goodBefore stepMeets
      exact (exact_step before (label act) stepMeets.1 inv goodBefore).mpr stepMeets.2 act rfl
    · intro earlier act isPrefix
      exact ⟨allowedAt acts labelled earlier act isPrefix, meets acts labelled earlier act isPrefix⟩

/-- A property holds throughout a run exactly when every step meets the condition
that is exact for one step. -/
theorem run_always_iff (Inv Good : State → Prop) (Meets : State → Act → Prop)
    (keeps : ∀ before act after, Inv before → step before act = .ok after → Inv after)
    (exact_step : ∀ before act, Inv before → Good before →
      (Good (settle step before act) ↔ Meets before act))
    (initialInv : Inv state) (initialGood : Good state) (acts : List Act) :
    (∀ reached, reached <+: acts → Good (run step state reached)) ↔
      ∀ earlier act, earlier ++ [act] <+: acts → Meets (run step state earlier) act := by
  have labelled := runs_always_iff step state id Inv Good (fun _ => True) Meets keeps
    (fun before given _ inv good => by simpa using exact_step before given inv good)
    initialInv initialGood acts (fun _ _ => trivial)
  simpa using labelled

end Run

/-! ## Two levels -/

section Simulation
variable {Abstract : Type*}

/-- Both steps fail, or both succeed and leave related states. -/
inductive Matches (related : State → Abstract → Prop) :
    Except Err State → Except Err Abstract → Prop where
  | failed (left right : Err) : Matches related (.error left) (.error right)
  | succeeded (after : State) (abstractAfter : Abstract) (kept : related after abstractAfter) :
      Matches related (.ok after) (.ok abstractAfter)

variable {related : State → Abstract → Prop}

theorem Matches.of_ok {left : Except Err State} {right : Except Err Abstract}
    (forth : ∀ after, left = .ok after →
      ∃ abstractAfter, right = .ok abstractAfter ∧ related after abstractAfter)
    (back : ∀ abstractAfter, right = .ok abstractAfter → ∃ after, left = .ok after) :
    Matches related left right := by
  cases leftOutcome : left with
  | ok after =>
      obtain ⟨abstractAfter, success, kept⟩ := forth after leftOutcome
      rw [success]
      exact .succeeded after abstractAfter kept
  | error failure =>
      cases rightOutcome : right with
      | ok abstractAfter =>
          obtain ⟨after, success⟩ := back abstractAfter rightOutcome
          rw [leftOutcome] at success
          cases success
      | error other => exact .failed failure other

section
variable {left : Except Err State} {right : Except Err Abstract}

theorem Matches.forth (same : Matches related left right) {after : State}
    (success : left = .ok after) :
    ∃ abstractAfter, right = .ok abstractAfter ∧ related after abstractAfter := by
  cases same with
  | failed => cases success
  | succeeded _ abstractAfter kept =>
      cases success
      exact ⟨abstractAfter, rfl, kept⟩

theorem Matches.back (same : Matches related left right) {abstractAfter : Abstract}
    (success : right = .ok abstractAfter) :
    ∃ after, left = .ok after ∧ related after abstractAfter := by
  cases same with
  | failed => cases success
  | succeeded after _ kept =>
      cases success
      exact ⟨after, rfl, kept⟩

theorem Matches.ok_iff (same : Matches related left right) :
    (∃ after, left = .ok after) ↔ ∃ after, right = .ok after := by
  constructor
  · rintro ⟨after, success⟩
    exact (same.forth success).imp fun _ both => both.1
  · rintro ⟨after, success⟩
    exact (same.back success).imp fun _ both => both.1

theorem Matches.related_undoing {before : State} {abstractBefore : Abstract}
    (same : Matches related left right) (relates : related before abstractBefore) :
    related (undoing before left) (undoing abstractBefore right) := by
  cases same with
  | failed => exact relates
  | succeeded _ _ kept => exact kept

end

/-- Runs of steps that match wherever the action is allowed leave related states. -/
theorem run_matches (step : State → Act → Except Err State)
    (abstractStep : Abstract → Act → Except Err Abstract) (related : State → Abstract → Prop)
    (Allowed : Abstract → Act → Prop)
    (keeps : ∀ before abstractBefore act, Allowed abstractBefore act →
      related before abstractBefore →
      Matches related (step before act) (abstractStep abstractBefore act))
    {state : State} {abstract : Abstract} (initial : related state abstract) (acts : List Act)
    (allowed : ∀ earlier act, earlier ++ [act] <+: acts →
      Allowed (run abstractStep abstract earlier) act) :
    related (run step state acts) (run abstractStep abstract acts) := by
  induction acts using List.reverseRecOn with
  | nil => exact initial
  | append_singleton acts act ih =>
      rw [run_concat, run_concat]
      have before := ih fun earlier other isPrefix =>
        allowed earlier other (isPrefix.trans (List.prefix_append _ _))
      exact (keeps _ _ act (allowed acts act (List.prefix_refl _)) before).related_undoing before

end Simulation

/-! ## Loops in one block -/

section Loop
variable {step : State → Act → Except Err State}

theorem loop_cons_ok {state after : State} {act : Act} {rest : List Act} :
    (act :: rest).foldlM step state = .ok after ↔
      ∃ middle, step state act = .ok middle ∧ rest.foldlM step middle = .ok after := by
  rw [List.foldlM_cons]
  exact except_bind_eq_ok

theorem run_of_loop {acts : List Act} {state after : State}
    (success : acts.foldlM step state = .ok after) : run step state acts = after := by
  induction acts generalizing state with
  | nil =>
      cases success
      rfl
  | cons act rest ih =>
      obtain ⟨middle, head, tail⟩ := loop_cons_ok.mp success
      rw [run, List.foldl_cons, settle_ok step state act middle head]
      exact ih tail

theorem loop_invariant (Inv : State → Prop)
    (keeps : ∀ before act after, Inv before → step before act = .ok after → Inv after)
    {state after : State} {acts : List Act} (initial : Inv state)
    (success : acts.foldlM step state = .ok after) : Inv after := by
  induction acts generalizing state with
  | nil =>
      cases success
      exact initial
  | cons act rest ih =>
      obtain ⟨middle, head, tail⟩ := loop_cons_ok.mp success
      exact ih (keeps state act middle initial head) tail

theorem loop_ascends (above : State → State → Prop) (refl : ∀ given, above given given)
    (trans : ∀ first second third, above first second → above second third → above first third)
    (steps : ∀ before act after, step before act = .ok after → above before after)
    {state after : State} {acts : List Act} (success : acts.foldlM step state = .ok after) :
    above state after :=
  loop_invariant (above state) (fun before act after reached stepped =>
    trans state before after reached (steps before act after stepped)) (refl state) success

theorem loop_filter (acts : List Act) (keep : Act → Bool)
    (skips : ∀ act ∈ acts, keep act = false → ∀ state, step state act = .ok state) (state : State) :
    acts.foldlM step state = (acts.filter keep).foldlM step state := by
  induction acts generalizing state with
  | nil => rfl
  | cons act rest ih =>
      have ih := ih fun other member => skips other (List.mem_cons_of_mem _ member)
      cases kept : keep act with
      | true =>
          rw [List.filter_cons_of_pos kept, List.foldlM_cons, List.foldlM_cons]
          simp only [ih]
      | false =>
          have same := skips act List.mem_cons_self kept state
          rw [List.filter_cons_of_neg (by simp [kept]), List.foldlM_cons, same]
          exact ih state

/-- Where any two successful steps of a loop can be exchanged, its success and its
result do not depend on the order of the actions. -/
theorem loop_perm {left right : List Act} (perm : left.Perm right)
    (exchange : ∀ first ∈ left, ∀ second ∈ left, ∀ before middle after,
      step before first = .ok middle → step middle second = .ok after →
      ∃ other, step before second = .ok other ∧ step other first = .ok after)
    {state after : State} (success : left.foldlM step state = .ok after) :
    right.foldlM step state = .ok after := by
  induction perm generalizing state with
  | nil => exact success
  | cons act _ ih =>
      obtain ⟨middle, head, tail⟩ := loop_cons_ok.mp success
      refine loop_cons_ok.mpr ⟨middle, head, ih ?_ tail⟩
      intro first firstMember second secondMember
      exact exchange first (List.mem_cons_of_mem _ firstMember) second
        (List.mem_cons_of_mem _ secondMember)
  | swap first second rest =>
      obtain ⟨middle, head, tail⟩ := loop_cons_ok.mp success
      obtain ⟨last, next, tail⟩ := loop_cons_ok.mp tail
      obtain ⟨other, swapped, back⟩ := exchange second (by simp) first (by simp) state middle last
        head next
      exact loop_cons_ok.mpr ⟨other, swapped, loop_cons_ok.mpr ⟨last, back, tail⟩⟩
  | trans leftPerm _ leftIh rightIh =>
      refine rightIh ?_ (leftIh exchange success)
      intro first firstMember second secondMember
      exact exchange first (leftPerm.mem_iff.mpr firstMember) second
        (leftPerm.mem_iff.mpr secondMember)

theorem undoing_loop_perm {left right : List Act} (perm : left.Perm right)
    (exchange : ∀ first ∈ left, ∀ second ∈ left, ∀ before middle after,
      step before first = .ok middle → step middle second = .ok after →
      ∃ other, step before second = .ok other ∧ step other first = .ok after) (state : State) :
    undoing state (left.foldlM step state) = undoing state (right.foldlM step state) := by
  have back : ∀ first ∈ right, ∀ second ∈ right, ∀ before middle after,
      step before first = .ok middle → step middle second = .ok after →
      ∃ other, step before second = .ok other ∧ step other first = .ok after :=
    fun first firstMember second secondMember =>
      exchange first (perm.mem_iff.mpr firstMember) second (perm.mem_iff.mpr secondMember)
  cases leftOutcome : left.foldlM step state with
  | ok after => rw [loop_perm perm exchange leftOutcome]
  | error failure =>
      cases rightOutcome : right.foldlM step state with
      | ok after =>
          have success := loop_perm perm.symm back rightOutcome
          rw [leftOutcome] at success
          cases success
      | error other => rfl

theorem undoing_congr {left right : Except Err State}
    (same : ∀ after, left = .ok after ↔ right = .ok after) (state : State) :
    undoing state left = undoing state right := by
  cases leftOutcome : left with
  | ok after => rw [(same after).mp leftOutcome]
  | error failure =>
      cases rightOutcome : right with
      | ok after =>
          have success := (same after).mpr rightOutcome
          rw [leftOutcome] at success
          cases success
      | error other => rfl

end Loop

/-! ## Reading before acting

A loop that reads an entry and then acts on it, one after the other, is the loop
over the actions of all entries once these have all been read.  The two can only
differ in the error that they fail with. -/

section TwoPhase
variable {Entry : Type*} {step : State → Act → Except Err State}

/-- The actions of all entries; an entry may have none. -/
def collect (read : Entry → Except Err (Option Act)) : List Entry → Except Err (List Act)
  | [] => .ok []
  | entry :: rest =>
      match read entry with
      | .error failure => .error failure
      | .ok act =>
          match collect read rest with
          | .error failure => .error failure
          | .ok acts => .ok (act.toList ++ acts)

def perform (step : State → Act → Except Err State) (state : State) :
    Option Act → Except Err State
  | none => .ok state
  | some act => step state act

variable {read : Entry → Except Err (Option Act)}

theorem collect_cons_ok {entry : Entry} {rest : List Entry} {acts : List Act} :
    collect read (entry :: rest) = .ok acts ↔
      ∃ act later, read entry = .ok act ∧ collect read rest = .ok later ∧
        acts = act.toList ++ later := by
  rw [collect]
  cases read entry with
  | error failure => simp
  | ok act =>
      cases collect read rest with
      | error failure => simp
      | ok later => simp [eq_comm]

theorem perform_loop {state after : State} {act : Option Act} {later : List Act} :
    (act.toList ++ later).foldlM step state = .ok after ↔
      ∃ middle, perform step state act = .ok middle ∧ later.foldlM step middle = .ok after := by
  cases act with
  | none => simp [perform]
  | some act => exact loop_cons_ok

/-- The acts that the entries ask for one after the other, an entry that cannot be
read for its error. -/
def attempts (read : Entry → Except Err (Option Act)) (entries : List Entry) :
    List (Except Err Act) :=
  entries.filterMap fun entry =>
    match read entry with
    | .ok act => act.map .ok
    | .error failure => some (.error failure)

theorem attempts_cons (entry : Entry) (rest : List Entry) :
    attempts read (entry :: rest) =
      (match read entry with
        | .ok act => (act.map .ok).toList
        | .error failure => [.error failure]) ++ attempts read rest := by
  unfold attempts
  rw [List.filterMap_cons]
  cases read entry with
  | error failure => rfl
  | ok act => cases act <;> rfl

theorem collect_eq_ok {entries : List Entry} {acts : List Act} :
    collect read entries = .ok acts ↔ attempts read entries = acts.map .ok := by
  induction entries generalizing acts with
  | nil => simp [collect, attempts, eq_comm]
  | cons entry rest ih =>
      rw [attempts_cons, collect_cons_ok]
      cases outcome : read entry with
      | error failure => cases acts <;> simp
      | ok act =>
          constructor
          · rintro ⟨_, later, same, tail, rfl⟩
            cases same
            rw [List.map_append, ← ih.mp tail]
            cases act <;> rfl
          · intro same
            cases act with
            | none => exact ⟨none, acts, rfl, ih.mpr same, rfl⟩
            | some act =>
                cases acts with
                | nil => cases same
                | cons first later =>
                    obtain ⟨head, tail⟩ := List.cons_eq_cons.mp same
                    cases head
                    exact ⟨some act, later, rfl, ih.mpr tail, rfl⟩

theorem mem_attempts {entries : List Entry} {act : Act} :
    .ok act ∈ attempts read entries ↔ ∃ entry ∈ entries, read entry = .ok (some act) := by
  unfold attempts
  rw [List.mem_filterMap]
  refine exists_congr fun entry => and_congr_right fun _ => ?_
  cases read entry with
  | error failure => simp
  | ok act => cases act <;> simp

theorem mem_collect {entries : List Entry} {acts : List Act}
    (collected : collect read entries = .ok acts) {act : Act} :
    act ∈ acts ↔ ∃ entry ∈ entries, read entry = .ok (some act) := by
  rw [← mem_attempts, collect_eq_ok.mp collected]
  simp

theorem exists_collect_iff {entries : List Entry} :
    (∃ acts, collect read entries = .ok acts) ↔ ∀ entry ∈ entries, ∃ act, read entry = .ok act := by
  induction entries with
  | nil => simp [collect]
  | cons entry rest ih =>
      rw [List.forall_mem_cons, ← ih]
      constructor
      · rintro ⟨acts, collected⟩
        obtain ⟨act, later, head, tail, _⟩ := collect_cons_ok.mp collected
        exact ⟨⟨act, head⟩, later, tail⟩
      · rintro ⟨⟨act, head⟩, later, tail⟩
        exact ⟨_, collect_cons_ok.mpr ⟨act, later, head, tail, rfl⟩⟩

theorem collect_map {convert : Act → Act} {converting : Entry → Except Err (Option Act)}
    (converts : ∀ entry, converting entry = (read entry).map (Option.map convert))
    (entries : List Entry) :
    collect converting entries = (collect read entries).map (List.map convert) := by
  induction entries with
  | nil => rfl
  | cons entry rest ih =>
      rw [collect, collect, converts, ih]
      cases read entry with
      | error failure => rfl
      | ok act =>
          cases collect read rest with
          | error failure => rfl
          | ok acts => cases act <;> rfl

theorem loop_two_phase {loop : State → Entry → Except Err State}
    (splits : ∀ state entry after, loop state entry = .ok after ↔
      ∃ act, read entry = .ok act ∧ perform step state act = .ok after)
    (entries : List Entry) {state after : State} :
    entries.foldlM loop state = .ok after ↔
      ∃ acts, collect read entries = .ok acts ∧ acts.foldlM step state = .ok after := by
  induction entries generalizing state with
  | nil => simp [collect]
  | cons entry rest ih =>
      rw [loop_cons_ok]
      constructor
      · rintro ⟨middle, head, tail⟩
        obtain ⟨act, isRead, performed⟩ := (splits state entry middle).mp head
        obtain ⟨later, collected, looped⟩ := ih.mp tail
        exact ⟨_, collect_cons_ok.mpr ⟨act, later, isRead, collected, rfl⟩,
          perform_loop.mpr ⟨middle, performed, looped⟩⟩
      · rintro ⟨acts, collected, looped⟩
        obtain ⟨act, later, isRead, restCollected, rfl⟩ := collect_cons_ok.mp collected
        obtain ⟨middle, performed, tail⟩ := perform_loop.mp looped
        exact ⟨middle, (splits state entry middle).mpr ⟨act, isRead, performed⟩,
          ih.mpr ⟨later, restCollected, tail⟩⟩

end TwoPhase

end Rollback
