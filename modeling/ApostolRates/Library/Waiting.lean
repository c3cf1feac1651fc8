import ApostolRates.Library.Traces
import Mathlib.Data.Finset.Card
import Mathlib.Logic.Hydra

/-!
# Waiting for one another

Parties that wait only for parties further on than themselves do not wait in a circle,
and whoever waits is led to a party that waits for nobody.  Where such a party can
always take a step, all of them get done.
-/

set_option autoImplicit false

namespace Waiting

open Relation Traces

section
variable {Party Place : Type*} [Preorder Place] {waits : Party → Party → Prop}
variable {place : Party → Place}

theorem further_of_transGen (further : ∀ party other, waits party other → place party < place other)
    {party other : Party} (chain : TransGen waits party other) : place party < place other := by
  induction chain with
  | single first => exact further _ _ first
  | tail _ last ih => exact ih.trans (further _ _ last)

theorem no_circle (further : ∀ party other, waits party other → place party < place other)
    (party : Party) : ¬ TransGen waits party party := fun circle =>
  lt_irrefl _ (further_of_transGen further circle)

/-- Who waits is led to somebody who does not, if only finitely many can be waited for. -/
theorem exists_free (further : ∀ party other, waits party other → place party < place other)
    (holders : Finset Party) (held : ∀ party other, waits party other → other ∈ holders)
    (party : Party) :
    ∃ free, ReflTransGen waits party free ∧ ∀ other, ¬ waits free other := by
  classical
  -- the induction is on the number of holders that are further on
  induction ahead : (holders.filter fun holder => place party < place holder).card using
      Nat.strong_induction_on generalizing party with
  | h count ih =>
      by_cases waiting : ∃ other, waits party other
      · obtain ⟨other, waiting⟩ := waiting
        have passed := further party other waiting
        have fewer : (holders.filter fun holder => place other < place holder).card < count := by
          rw [← ahead]
          refine Finset.card_lt_card (Finset.ssubset_iff_of_subset ?_ |>.mpr ⟨other, ?_, ?_⟩)
          · intro holder member
            obtain ⟨isHolder, beyond⟩ := Finset.mem_filter.mp member
            exact Finset.mem_filter.mpr ⟨isHolder, passed.trans beyond⟩
          · exact Finset.mem_filter.mpr ⟨held party other waiting, passed⟩
          · exact fun member => lt_irrefl _ (Finset.mem_filter.mp member).2
        obtain ⟨free, chain, isFree⟩ := ih _ fewer other rfl
        exact ⟨free, chain.head waiting, isFree⟩
      · exact ⟨party, .refl, fun other waits => waiting ⟨other, waits⟩⟩

end

section
variable {State Event Party Measure : Type*} {advance : State → Event → Option State}
variable {state : State} {smaller : Measure → Measure → Prop}

theorem cutExpand_left [DecidableEq Party] {parties : Finset Party} {party : Party}
    (member : party ∈ parties) {before after : Party → Measure}
    (less : smaller (after party) (before party))
    (same : ∀ other, other ≠ party → after other = before other) :
    CutExpand smaller (parties.val.map after) (parties.val.map before) := by
  have split : parties.val = party ::ₘ (parties.erase party).val := by
    rw [Finset.erase_val, Multiset.cons_erase member]
  have others : (parties.erase party).val.map after = (parties.erase party).val.map before :=
    Multiset.map_congr rfl fun other isOther => same other (Finset.ne_of_mem_erase isOther)
  rw [split, Multiset.map_cons, Multiset.map_cons, others, ← Multiset.singleton_add,
    ← Multiset.singleton_add]
  exact cutExpand_single_add less _

/-- As long as somebody is not done, one of the parties can take a step that leaves less
for it to do and the others where they are; so all of them get done. -/
theorem all_done (wellFounded : WellFounded smaller) (left : State → Party → Measure)
    (Inv : State → Prop) (Done : State → Party → Prop) (parties : Finset Party)
    (progress : ∀ before, Inv before → ∀ waiting ∈ parties, ¬ Done before waiting →
      ∃ event after, ∃ party ∈ parties, advance before event = some after ∧ Inv after ∧
        smaller (left after party) (left before party) ∧
        ∀ other, other ≠ party → left after other = left before other)
    (initial : Inv state) :
    ∃ events reached, trace advance state events = some reached ∧ Inv reached ∧
      ∀ party ∈ parties, Done reached party := by
  classical
  obtain ⟨events, reached, _, traced, inv, done⟩ := trace_reaches wellFounded.cutExpand
    (fun reached => parties.val.map (left reached)) Inv
    (fun reached => ∀ party ∈ parties, Done reached party) (fun _ => True)
    (fun before inv notDone => by
      push Not at notDone
      obtain ⟨waiting, isParty, isOpen⟩ := notDone
      obtain ⟨event, after, party, member, possible, invAfter, less, same⟩ :=
        progress before inv waiting isParty isOpen
      exact ⟨event, after, trivial, possible, invAfter, cutExpand_left member less same⟩)
    initial
  exact ⟨events, reached, traced, inv, done⟩

end

end Waiting
