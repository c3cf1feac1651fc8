import ApostolRates.Library.Periods

/-!
# Revising a timeline at a date

`revise` writes a value from a date on.  It looks one covering period up: if that
period starts at the date, every covering period takes the value; otherwise every
covering period ends at the date and a new one runs to the end of the period that
was looked up, or to `top` when none was found.  Nothing here assumes that the
look-up is unambiguous: `Picks` allows any covering period.
-/

set_option autoImplicit false

namespace ValidTime

variable {T V : Type*} [LinearOrder T]

/-- What a look-up without an order may return at a date. -/
def Picks (date : T) (timeline : Timeline T V) : Option (Period T V) → Prop
  | none => ∀ period ∈ timeline, ¬ period.Covers date
  | some picked => picked ∈ timeline ∧ picked.Covers date

def revise (top date : T) (value : V) (picked : Option (Period T V))
    (timeline : Timeline T V) : Timeline T V :=
  if picked.map Period.start = some date then assign date value timeline
  else ⟨date, (picked.map Period.stop).getD top, value⟩ ::ₘ cut date timeline

section
variable {top date : T} {value : V} {picked : Option (Period T V)} {timeline : Timeline T V}

theorem revise_cases (motive : Timeline T V → Prop) (picks : Picks date timeline picked)
    (overwrite : ∀ period ∈ timeline, picked = some period → period.Covers date →
      period.start = date → motive (assign date value timeline))
    (split : ∀ period ∈ timeline, picked = some period → period.Covers date →
      period.start < date → motive (⟨date, period.stop, value⟩ ::ₘ cut date timeline))
    (fresh : picked = none → (∀ period ∈ timeline, ¬ period.Covers date) →
      motive (⟨date, top, value⟩ ::ₘ timeline)) :
    motive (revise top date value picked timeline) := by
  cases picked with
  | none =>
      have uncovered : ∀ period ∈ timeline, ¬ period.Covers date := picks
      have plain := fresh rfl uncovered
      simpa [revise, cut_of_uncovered uncovered] using plain
  | some period =>
      obtain ⟨member, covers⟩ := picks
      by_cases same : period.start = date
      · simpa [revise, same] using overwrite period member rfl covers same
      · have earlier : period.start < date := lt_of_le_of_ne covers.1 same
        simpa [revise, same] using split period member rfl covers earlier

theorem revise_some_of_start {period : Period T V} (same : period.start = date) :
    revise top date value (some period) timeline = assign date value timeline := by
  simp [revise, same]

theorem revise_some_of_ne {period : Period T V} (differs : period.start ≠ date) :
    revise top date value (some period) timeline =
      ⟨date, period.stop, value⟩ ::ₘ cut date timeline := by
  simp [revise, differs]

@[simp] theorem revise_none :
    revise top date value none timeline = ⟨date, top, value⟩ ::ₘ cut date timeline := by
  simp [revise]

/-! ## The invariant of every history of revisions -/

/-- Every period that stops before `top` stops where a proper period starts, and
a proper period is the only one with its start. -/
structure Sound (top : T) (timeline : Timeline T V) : Prop where
  bounded : ∀ period ∈ timeline, period.stop ≤ top
  linked : ∀ period ∈ timeline, period.stop < top →
    ∃ next ∈ timeline, next.start = period.stop ∧ next.Proper
  unique : ∀ left ∈ timeline, ∀ right ∈ timeline, left.Proper → right.Proper →
    left.start = right.start → left = right

theorem sound_zero (top : T) : Sound top (0 : Timeline T V) :=
  ⟨by simp, by simp, by simp⟩

theorem sound_assign (sound : Sound top timeline) :
    Sound top (assign date value timeline) where
  bounded period member := by
    obtain ⟨old, oldMember, rfl⟩ := mem_assign.mp member
    simpa using sound.bounded old oldMember
  linked period member before := by
    obtain ⟨old, oldMember, rfl⟩ := mem_assign.mp member
    obtain ⟨next, nextMember, meets, proper⟩ := sound.linked old oldMember (by simpa using before)
    exact ⟨next.assign date value, mem_assign.mpr ⟨next, nextMember, rfl⟩, by simpa using meets,
      by simpa using proper⟩
  unique left leftMember right rightMember leftProper rightProper same := by
    obtain ⟨a, aMember, rfl⟩ := mem_assign.mp leftMember
    obtain ⟨b, bMember, rfl⟩ := mem_assign.mp rightMember
    rw [sound.unique a aMember b bMember (by simpa using leftProper) (by simpa using rightProper)
      (by simpa using same)]

theorem split_keeps_start {stop : T} (reaches : date < stop) {old : Period T V}
    (member : old ∈ timeline) (proper : old.Proper) :
    ∃ next ∈ (⟨date, stop, value⟩ ::ₘ cut date timeline : Timeline T V),
      next.start = old.start ∧ next.Proper := by
  by_cases atDate : old.start = date
  · exact ⟨⟨date, stop, value⟩, Multiset.mem_cons_self _ _, atDate.symm, reaches⟩
  · refine ⟨old.cut date, Multiset.mem_cons_of_mem (mem_cut.mpr ⟨old, member, rfl⟩),
      old.cut_start date, ?_⟩
    by_cases covers : old.Covers date
    · rw [Period.cut_of_covers covers]
      exact lt_of_le_of_ne covers.1 atDate
    · rwa [Period.cut_of_not covers]

theorem cut_not_proper_at_date {old : Period T V} (atDate : old.start = date) :
    ¬ (old.cut date).Proper := by
  intro proper
  have covers : old.Covers date := atDate ▸ (Period.proper_of_cut proper).covers_start
  rw [Period.cut_of_covers covers] at proper
  exact (lt_irrefl date) (lt_of_le_of_lt atDate.ge proper)

theorem sound_split (sound : Sound top timeline) {stop : T} (reaches : date < stop)
    (stopBounded : stop ≤ top)
    (stopLinked : stop < top → ∃ next ∈ timeline, next.start = stop ∧ next.Proper) :
    Sound top (⟨date, stop, value⟩ ::ₘ cut date timeline) where
  bounded period member := by
    rcases Multiset.mem_cons.mp member with rfl | member
    · exact stopBounded
    · obtain ⟨old, oldMember, rfl⟩ := mem_cut.mp member
      exact (old.cut_stop_le date).trans (sound.bounded old oldMember)
  linked period member before := by
    have relink : (∃ next ∈ timeline, next.start = period.stop ∧ next.Proper) →
        ∃ next ∈ (⟨date, stop, value⟩ ::ₘ cut date timeline : Timeline T V),
          next.start = period.stop ∧ next.Proper := by
      rintro ⟨next, nextMember, meets, proper⟩
      rw [← meets]
      exact split_keeps_start reaches nextMember proper
    rcases Multiset.mem_cons.mp member with rfl | member
    · exact relink (stopLinked before)
    · obtain ⟨old, oldMember, rfl⟩ := mem_cut.mp member
      by_cases covers : old.Covers date
      · rw [Period.cut_of_covers covers]
        exact ⟨⟨date, stop, value⟩, Multiset.mem_cons_self _ _, rfl, reaches⟩
      · rw [Period.cut_of_not covers] at before relink ⊢
        exact relink (sound.linked old oldMember before)
  unique left leftMember right rightMember leftProper rightProper same := by
    rcases Multiset.mem_cons.mp leftMember with rfl | leftMember <;>
      rcases Multiset.mem_cons.mp rightMember with rfl | rightMember
    · rfl
    · obtain ⟨b, bMember, rfl⟩ := mem_cut.mp rightMember
      exact absurd rightProper (cut_not_proper_at_date (by simpa using same.symm))
    · obtain ⟨a, aMember, rfl⟩ := mem_cut.mp leftMember
      exact absurd leftProper (cut_not_proper_at_date (by simpa using same))
    · obtain ⟨a, aMember, rfl⟩ := mem_cut.mp leftMember
      obtain ⟨b, bMember, rfl⟩ := mem_cut.mp rightMember
      rw [sound.unique a aMember b bMember (Period.proper_of_cut leftProper)
        (Period.proper_of_cut rightProper) (by simpa using same)]

theorem sound_fresh (sound : Sound top timeline)
    (uncovered : ∀ period ∈ timeline, ¬ period.Covers date) :
    Sound top (⟨date, top, value⟩ ::ₘ timeline) where
  bounded period member := by
    rcases Multiset.mem_cons.mp member with rfl | member
    · exact le_rfl
    · exact sound.bounded period member
  linked period member before := by
    rcases Multiset.mem_cons.mp member with rfl | member
    · exact absurd before (lt_irrefl top)
    · obtain ⟨next, nextMember, rest⟩ := sound.linked period member before
      exact ⟨next, Multiset.mem_cons_of_mem nextMember, rest⟩
  unique left leftMember right rightMember leftProper rightProper same := by
    have apart : ∀ old ∈ timeline, old.Proper → old.start ≠ date :=
      fun old oldMember proper atDate => uncovered old oldMember (atDate ▸ proper.covers_start)
    rcases Multiset.mem_cons.mp leftMember with rfl | leftMember <;>
      rcases Multiset.mem_cons.mp rightMember with rfl | rightMember
    · rfl
    · exact absurd same.symm (apart right rightMember rightProper)
    · exact absurd same (apart left leftMember leftProper)
    · exact sound.unique left leftMember right rightMember leftProper rightProper same

theorem sound_revise (sound : Sound top timeline) (picks : Picks date timeline picked) :
    Sound top (revise top date value picked timeline) := by
  refine revise_cases (Sound top) picks ?_ ?_ ?_
  · intro period _ _ _ _
    exact sound_assign sound
  · intro period member _ covers _
    exact sound_split sound covers.2 (sound.bounded period member) (sound.linked period member)
  · intro _ uncovered
    exact sound_fresh sound uncovered

/-! ## Coverage -/

/-- Coverage extends to every later instant below `top`: of the proper periods
started by then the latest covers it, or the link at its stop would start later. -/
theorem covered_from_of_linked
    (linked : ∀ period ∈ timeline, period.stop < top →
      ∃ next ∈ timeline, next.start = period.stop ∧ next.Proper)
    {earlier instant : T} (covered : ∃ period ∈ timeline, period.Covers earlier)
    (later : earlier ≤ instant) (below : instant < top) :
    ∃ period ∈ timeline, period.Covers instant := by
  obtain ⟨first, firstMember, firstCovers⟩ := covered
  let started := timeline.filter fun period => period.Proper ∧ period.start ≤ instant
  have firstStarted : first ∈ started :=
    Multiset.mem_filter.mpr ⟨firstMember, firstCovers.proper, firstCovers.1.trans later⟩
  have nonempty : started ≠ 0 := fun none => by simp [none] at firstStarted
  obtain ⟨last, lastStarted, latest⟩ := Multiset.exists_max_image Period.start nonempty
  obtain ⟨lastMember, lastProper, lastBefore⟩ := Multiset.mem_filter.mp lastStarted
  refine ⟨last, lastMember, lastBefore, ?_⟩
  by_contra stopped
  have stopLe : last.stop ≤ instant := not_lt.mp stopped
  obtain ⟨next, nextMember, meets, nextProper⟩ :=
    linked last lastMember (lt_of_le_of_lt stopLe below)
  have nextStarted : next ∈ started :=
    Multiset.mem_filter.mpr ⟨nextMember, nextProper, meets.trans_le stopLe⟩
  have backwards := latest next nextStarted
  rw [meets] at backwards
  exact absurd lastProper (not_lt.mpr backwards)

theorem covered_of_shortened
    (linked : ∀ period ∈ timeline, period.stop < top →
      ∃ next ∈ timeline, next.start = period.stop ∧ next.Proper)
    {old new : Period T V} {instant : T} (covers : old.Covers instant) (bounded : old.stop ≤ top)
    (member : new ∈ timeline) (sameStart : new.start = old.start) :
    ∃ period ∈ timeline, period.Covers instant := by
  have below : instant < top := covers.2.trans_le bounded
  by_cases reaches : instant < new.stop
  · exact ⟨new, member, sameStart.trans_le covers.1, reaches⟩
  · have stopped : new.stop ≤ instant := not_lt.mp reaches
    obtain ⟨next, nextMember, meets, proper⟩ := linked new member (stopped.trans_lt below)
    exact covered_from_of_linked linked ⟨next, nextMember, proper.covers_start⟩
      (meets.trans_le stopped) below

theorem Sound.covered_from (sound : Sound top timeline) {earlier instant : T}
    (covered : ∃ period ∈ timeline, period.Covers earlier) (later : earlier ≤ instant)
    (below : instant < top) : ∃ period ∈ timeline, period.Covers instant :=
  covered_from_of_linked sound.linked covered later below

theorem revise_covers_date (picks : Picks date timeline picked) (below : date < top) :
    ∃ period ∈ revise top date value picked timeline, period.Covers date := by
  refine revise_cases (fun revised => ∃ period ∈ revised, period.Covers date) picks ?_ ?_ ?_
  · intro period member _ covers _
    exact ⟨period.assign date value, mem_assign.mpr ⟨period, member, rfl⟩, by simpa using covers⟩
  · intro period _ _ covers _
    exact ⟨⟨date, period.stop, value⟩, Multiset.mem_cons_self _ _, le_rfl, covers.2⟩
  · intro _ _
    exact ⟨⟨date, top, value⟩, Multiset.mem_cons_self _ _, le_rfl, below⟩

/-- A revision leaves no covered instant uncovered: before the date nothing is cut
away, and from the date on the links carry the coverage. -/
theorem Sound.revise_keeps_covered (sound : Sound top timeline)
    (picks : Picks date timeline picked) {instant : T}
    (covered : ∃ period ∈ timeline, period.Covers instant) :
    ∃ period ∈ revise top date value picked timeline, period.Covers instant := by
  obtain ⟨old, member, covers⟩ := covered
  have instantBelow : instant < top := lt_of_lt_of_le covers.2 (sound.bounded old member)
  rcases lt_or_ge instant date with before | notBefore
  · refine revise_cases (fun revised => ∃ period ∈ revised, period.Covers instant) picks ?_ ?_ ?_
    · intro _ _ _ _ _
      exact ⟨old.assign date value, mem_assign.mpr ⟨old, member, rfl⟩, by simpa using covers⟩
    · intro _ _ _ _ _
      exact ⟨old.cut date, Multiset.mem_cons_of_mem (mem_cut.mpr ⟨old, member, rfl⟩),
        (old.cut_covers_before before).mpr covers⟩
    · intro _ _
      exact ⟨old, Multiset.mem_cons_of_mem member, covers⟩
  · exact (sound_revise sound picks).covered_from
      (revise_covers_date picks (lt_of_le_of_lt notBefore instantBelow)) notBefore instantBelow

/-! ## Effect and frame of one revision -/

theorem revise_value_from_date (picks : Picks date timeline picked) {instant : T}
    (notBefore : date ≤ instant) :
    ∀ period ∈ revise top date value picked timeline, period.Covers instant →
      period.start ≤ date → period.value = value := by
  refine revise_cases (fun revised => ∀ period ∈ revised, period.Covers instant →
    period.start ≤ date → period.value = value) picks ?_ ?_ ?_
  · intro _ _ _ _ _ period member covers started
    obtain ⟨old, _, rfl⟩ := mem_assign.mp member
    have coversDate : old.Covers date :=
      ⟨by simpa using started, lt_of_le_of_lt notBefore (by simpa using covers.2)⟩
    rw [Period.assign_value, if_pos coversDate]
  · intro _ _ _ _ _ period member covers started
    rcases Multiset.mem_cons.mp member with rfl | member
    · rfl
    · obtain ⟨old, _, rfl⟩ := mem_cut.mp member
      obtain ⟨oldCovers, uncovered⟩ := (old.cut_covers_from notBefore).mp covers
      exact absurd ⟨by simpa using started, lt_of_le_of_lt notBefore oldCovers.2⟩ uncovered
  · intro _ uncovered period member covers started
    rcases Multiset.mem_cons.mp member with rfl | member
    · rfl
    · exact absurd ⟨started, lt_of_le_of_lt notBefore covers.2⟩ (uncovered period member)

theorem revise_start_cases (picks : Picks date timeline picked) :
    ∀ period ∈ revise top date value picked timeline,
      period.start = date ∨ ∃ old ∈ timeline, old.start = period.start := by
  refine revise_cases (fun revised => ∀ period ∈ revised,
    period.start = date ∨ ∃ old ∈ timeline, old.start = period.start) picks ?_ ?_ ?_
  · intro _ _ _ _ _ period member
    obtain ⟨old, oldMember, rfl⟩ := mem_assign.mp member
    exact Or.inr ⟨old, oldMember, by simp⟩
  · intro _ _ _ _ _ period member
    rcases Multiset.mem_cons.mp member with rfl | member
    · exact Or.inl rfl
    · obtain ⟨old, oldMember, rfl⟩ := mem_cut.mp member
      exact Or.inr ⟨old, oldMember, by simp⟩
  · intro _ _ period member
    rcases Multiset.mem_cons.mp member with rfl | member
    · exact Or.inl rfl
    · exact Or.inr ⟨period, member, rfl⟩

variable (value) in
/-- A revision is in force, and alone in force, from its date up to the next start. -/
theorem Sound.revise_effect (sound : Sound top timeline) (picks : Picks date timeline picked)
    (below : date < top) {instant : T} (notBefore : date ≤ instant)
    (beforeNext : instant < nextStart top date timeline) :
    (∃ period ∈ revise top date value picked timeline, period.Covers instant) ∧
      ∀ period ∈ revise top date value picked timeline, period.Covers instant →
        period.value = value := by
  obtain ⟨instantBelow, noStart⟩ := (lt_nextStart_iff top date instant timeline).mp beforeNext
  refine ⟨(sound_revise sound picks).covered_from (revise_covers_date picks below) notBefore
    instantBelow, ?_⟩
  intro period member covers
  apply revise_value_from_date picks notBefore period member covers
  rcases revise_start_cases picks period member with atDate | ⟨old, oldMember, same⟩
  · exact atDate.le
  · by_contra late
    have later := noStart old oldMember (same ▸ not_le.mp late)
    rw [same] at later
    exact absurd covers.1 (not_le.mpr later)

theorem valuesAt_cons_after {instant stop : T} (before : instant < date) (rest : Timeline T V) :
    valuesAt instant (⟨date, stop, value⟩ ::ₘ rest) = valuesAt instant rest := by
  unfold valuesAt
  rw [covering_cons_of_not rest fun covers => absurd covers.1 (not_le.mpr before)]

theorem valuesAt_revise_of_ne_start (picks : Picks date timeline picked) {instant : T}
    (before : instant < date)
    (differs : ∀ period, picked = some period → period.start ≠ date) :
    valuesAt instant (revise top date value picked timeline) = valuesAt instant timeline := by
  refine revise_cases (fun revised => valuesAt instant revised = valuesAt instant timeline)
    picks ?_ ?_ ?_
  · intro period _ found _ same
    exact absurd same (differs period found)
  · intro period _ _ _ _
    rw [valuesAt_cons_after before, valuesAt_cut_before timeline before]
  · intro _ _
    rw [valuesAt_cons_after before]

/-- Overwriting at a date keeps the past exactly when every covering period that
started earlier already held the value. -/
theorem valuesAt_assign_past_iff :
    (∀ instant, instant < date → valuesAt instant (assign date value timeline) =
        valuesAt instant timeline) ↔
      ∀ period ∈ timeline, period.Covers date → period.start < date → period.value = value := by
  constructor
  · intro same period member covers earlier
    have atStart := same period.start earlier
    rw [valuesAt_assign, valuesAt] at atStart
    exact (map_overwrite_eq_iff (fun period : Period T V => period.Covers date) Period.value value
      (covering period.start timeline)).mp atStart period
      (mem_covering.mpr ⟨member, covers.proper.covers_start⟩) covers
  · intro already instant before
    rw [valuesAt_assign, valuesAt]
    apply (map_overwrite_eq_iff (fun period : Period T V => period.Covers date) Period.value value
      (covering instant timeline)).mpr
    intro period member covers
    obtain ⟨old, inside⟩ := mem_covering.mp member
    exact already period old covers (lt_of_le_of_lt inside.1 before)

end
end ValidTime
