import ApostolRates.Library.Overlap

/-!
# Revisions with a stale look-up

The period that a revision has looked up may have been changed by the time the
revision is made.  What is left of its guarantees: no overlap when the remembered
stop is not behind a later start, and every value that was written stays readable
at its date.
-/

set_option autoImplicit false

namespace ValidTime

variable {T V : Type*} [LinearOrder T]

def StartsAt (instant : T) (timeline : Timeline T V) : Prop :=
  ∃ period ∈ timeline, period.start = instant ∧ period.Proper

/-- A proper period that starts at the instant and holds the value. -/
def WrittenAt (instant : T) (value : V) (timeline : Timeline T V) : Prop :=
  ∃ period ∈ timeline, period.start = instant ∧ period.Proper ∧ period.value = value

/-- The stop that a revision gives to the period it adds. -/
def remembered (top : T) (picked : Option (Period T V)) : T := (picked.map Period.stop).getD top

section
variable {top date instant : T} {value other : V} {picked : Option (Period T V)}
variable {timeline : Timeline T V}

theorem atMostOne_revise_of_clear (single : AtMostOne timeline)
    (clear : picked.map Period.start ≠ some date →
      ∀ period ∈ timeline, period.Proper → date < period.start →
        remembered top picked ≤ period.start) :
    AtMostOne (revise top date value picked timeline) := by
  unfold revise
  split
  · exact atMostOne_assign single
  · rename_i inserts
    exact atMostOne_split single (clear inserts)

theorem StartsAt.revise (starts : StartsAt instant timeline)
    (reaches : picked.map Period.start ≠ some date → date < remembered top picked) :
    StartsAt instant (revise top date value picked timeline) := by
  obtain ⟨period, member, sameStart, proper⟩ := starts
  unfold ValidTime.revise
  split
  · exact ⟨period.assign date value, mem_assign.mpr ⟨period, member, rfl⟩, by simpa using sameStart,
      by simpa using proper⟩
  · rename_i inserts
    obtain ⟨next, nextMember, meets, nextProper⟩ :
        ∃ next ∈ (⟨date, remembered top picked, value⟩ ::ₘ cut date timeline : Timeline T V),
          next.start = period.start ∧ next.Proper :=
      split_keeps_start (reaches inserts) member proper
    exact ⟨next, nextMember, meets.trans sameStart, nextProper⟩

theorem writtenAt_revise
    (reaches : picked.map Period.start ≠ some date → date < remembered top picked)
    (anchored : picked.map Period.start = some date → StartsAt date timeline) :
    WrittenAt date value (revise top date value picked timeline) := by
  unfold revise
  split
  · rename_i overwrites
    obtain ⟨period, member, starts, proper⟩ := anchored overwrites
    refine ⟨period.assign date value, mem_assign.mpr ⟨period, member, rfl⟩, by simpa using starts,
      by simpa using proper, ?_⟩
    rw [Period.assign_value, if_pos (starts ▸ proper.covers_start)]
  · rename_i inserts
    exact ⟨⟨date, remembered top picked, value⟩, Multiset.mem_cons_self _ _, rfl,
      reaches inserts, rfl⟩

/-- A revision at another date leaves a value that was written readable at its date:
an overwrite changes the one period that starts at its own date. -/
theorem WrittenAt.revise (written : WrittenAt instant other timeline) (single : AtMostOne timeline)
    (differs : instant ≠ date)
    (anchored : picked.map Period.start = some date → StartsAt date timeline) :
    WrittenAt instant other (revise top date value picked timeline) := by
  obtain ⟨period, member, starts, proper, holds⟩ := written
  unfold ValidTime.revise
  split
  · rename_i overwrites
    obtain ⟨anchor, anchorMember, anchorStarts, anchorProper⟩ := anchored overwrites
    have uncovered : ¬ period.Covers date := by
      intro covers
      have same := single.eq member anchorMember covers (anchorStarts ▸ anchorProper.covers_start)
      exact differs (starts.symm.trans (same ▸ anchorStarts))
    exact ⟨period, mem_assign.mpr ⟨period, member, Period.assign_of_not uncovered⟩, starts, proper,
      holds⟩
  · refine ⟨period.cut date, Multiset.mem_cons_of_mem (mem_cut.mpr ⟨period, member, rfl⟩),
      by simpa using starts, ?_, by simpa using holds⟩
    by_cases covers : period.Covers date
    · rw [Period.cut_of_covers covers]
      exact lt_of_le_of_ne covers.1 (starts ▸ differs)
    · rwa [Period.cut_of_not covers]

theorem WrittenAt.covering (written : WrittenAt instant value timeline)
    (single : AtMostOne timeline) :
    ∃ period, ValidTime.covering instant timeline = {period} ∧ period.value = value := by
  obtain ⟨period, member, starts, proper, holds⟩ := written
  have inForce : period ∈ ValidTime.covering instant timeline :=
    mem_covering.mpr ⟨member, starts ▸ proper.covers_start⟩
  have one : (ValidTime.covering instant timeline).card = 1 :=
    le_antisymm (single instant) (Multiset.card_pos.mpr fun none => by simp [none] at inForce)
  obtain ⟨only, alone⟩ := Multiset.card_eq_one.mp one
  rw [alone, Multiset.mem_singleton] at inForce
  exact ⟨only, alone, inForce ▸ holds⟩

end
end ValidTime
