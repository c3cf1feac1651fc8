import ApostolRates.Library.Revision

/-!
# Overlap, emptiness and repetition

Three properties that a timeline of revisions may lose, each with the exact
condition under which one revision keeps it: no instant has two periods, no
period is empty, and a revision that is repeated changes nothing.
-/

set_option autoImplicit false

namespace ValidTime

variable {T V : Type*} [LinearOrder T]

/-- No instant is covered twice. -/
def AtMostOne (timeline : Timeline T V) : Prop :=
  ∀ instant, (covering instant timeline).card ≤ 1

def AllProper (timeline : Timeline T V) : Prop :=
  ∀ period ∈ timeline, period.Proper

def Period.ends (period : Period T V) : T × T := (period.start, period.stop)

def Distinct (timeline : Timeline T V) : Prop := (timeline.map Period.ends).Nodup

theorem atMostOne_zero : AtMostOne (0 : Timeline T V) := by
  intro instant
  simp

section
variable {top date : T} {value : V} {picked : Option (Period T V)} {timeline : Timeline T V}

theorem atMostOne_assign (single : AtMostOne timeline) :
    AtMostOne (assign date value timeline) := by
  intro instant
  rw [card_covering_assign]
  exact single instant

theorem AtMostOne.eq (single : AtMostOne timeline) {instant : T} {left right : Period T V}
    (leftMember : left ∈ timeline) (rightMember : right ∈ timeline)
    (leftCovers : left.Covers instant) (rightCovers : right.Covers instant) : left = right := by
  have leftIn : left ∈ covering instant timeline := mem_covering.mpr ⟨leftMember, leftCovers⟩
  have rightIn : right ∈ covering instant timeline := mem_covering.mpr ⟨rightMember, rightCovers⟩
  have one : (covering instant timeline).card = 1 :=
    le_antisymm (single instant) (Multiset.card_pos.mpr fun none => by simp [none] at leftIn)
  obtain ⟨only, alone⟩ := Multiset.card_eq_one.mp one
  rw [alone, Multiset.mem_singleton] at leftIn rightIn
  rw [leftIn, rightIn]

theorem atMostOne_split (single : AtMostOne timeline) {stop : T}
    (clear : ∀ period ∈ timeline, period.Proper → date < period.start → stop ≤ period.start) :
    AtMostOne (⟨date, stop, value⟩ ::ₘ cut date timeline) := by
  intro instant
  rcases lt_or_ge instant date with before | notBefore
  · rw [covering_cons_of_not _ fun covers => absurd covers.1 (not_le.mpr before),
      card_covering_cut_before timeline before]
    exact single instant
  · by_cases covers : (⟨date, stop, value⟩ : Period T V).Covers instant
    · have nothingLeft : (covering instant timeline).filter (fun period => ¬ period.Covers date) =
          0 := by
        rw [Multiset.filter_eq_nil]
        intro period member uncovered
        obtain ⟨old, inside⟩ := mem_covering.mp member
        have late : date < period.start := by
          by_contra started
          exact uncovered ⟨not_lt.mp started, lt_of_le_of_lt notBefore inside.2⟩
        have reached := (clear period old inside.proper late).trans inside.1
        exact absurd covers.2 (not_lt.mpr reached)
      rw [covering_cons_of_covers _ covers, Multiset.card_cons,
        card_covering_cut_from timeline notBefore, nothingLeft]
      exact le_rfl
    · rw [covering_cons_of_not _ covers, card_covering_cut_from timeline notBefore]
      exact (Multiset.card_le_card (Multiset.filter_le _ _)).trans (single instant)

/-- In a timeline without overlaps, whatever starts after a date starts no
earlier than the period in force at the date stops. -/
theorem AtMostOne.clear (single : AtMostOne timeline) {period : Period T V}
    (member : period ∈ timeline) (covers : period.Covers date) :
    ∀ other ∈ timeline, other.Proper → date < other.start → period.stop ≤ other.start := by
  intro other otherMember proper late
  by_contra inside
  have both : period.Covers other.start := ⟨covers.1.trans late.le, not_le.mp inside⟩
  have same := single.eq member otherMember both proper.covers_start
  exact absurd covers.1 (not_le.mpr (same ▸ late))

/-- A revision keeps a timeline free of overlaps exactly when its date is covered
or nothing proper starts after it. -/
theorem atMostOne_revise_iff (sound : Sound top timeline) (picks : Picks date timeline picked)
    (single : AtMostOne timeline) :
    AtMostOne (revise top date value picked timeline) ↔
      (∃ period ∈ timeline, period.Covers date) ∨
        ∀ period ∈ timeline, period.Proper → period.start ≤ date := by
  refine revise_cases (fun revised => AtMostOne revised ↔
    (∃ period ∈ timeline, period.Covers date) ∨
      ∀ period ∈ timeline, period.Proper → period.start ≤ date) picks ?_ ?_ ?_
  · intro period member _ covers _
    exact ⟨fun _ => Or.inl ⟨period, member, covers⟩, fun _ => atMostOne_assign single⟩
  · intro period member _ covers _
    exact ⟨fun _ => Or.inl ⟨period, member, covers⟩,
      fun _ => atMostOne_split single (single.clear member covers)⟩
  · intro _ uncovered
    constructor
    · intro revisedSingle
      refine Or.inr fun period member proper => ?_
      by_contra late
      have inNew : (⟨date, top, value⟩ : Period T V).Covers period.start :=
        ⟨(not_le.mp late).le, lt_of_lt_of_le proper (sound.bounded period member)⟩
      have twice := revisedSingle period.start
      rw [covering_cons_of_covers _ inNew, Multiset.card_cons] at twice
      have once : 0 < (covering period.start timeline).card :=
        Multiset.card_pos_iff_exists_mem.mpr
          ⟨period, mem_covering.mpr ⟨member, proper.covers_start⟩⟩
      omega
    · rintro (⟨period, member, covers⟩ | early)
      · exact absurd covers (uncovered period member)
      · rw [← cut_of_uncovered uncovered]
        exact atMostOne_split single fun period member proper late =>
          absurd (early period member proper) (not_le.mpr late)

/-! ## Empty periods -/

theorem allProper_assign (proper : AllProper timeline) :
    AllProper (assign date value timeline) := by
  intro period member
  obtain ⟨old, oldMember, rfl⟩ := mem_assign.mp member
  simpa using proper old oldMember

theorem allProper_split (proper : AllProper timeline) {stop : T} (reaches : date < stop)
    (noneAtDate : ∀ period ∈ timeline, period.Covers date → period.start < date) :
    AllProper (⟨date, stop, value⟩ ::ₘ cut date timeline) := by
  intro period member
  rcases Multiset.mem_cons.mp member with rfl | member
  · exact reaches
  · obtain ⟨old, oldMember, rfl⟩ := mem_cut.mp member
    by_cases covers : old.Covers date
    · rw [Period.cut_of_covers covers]
      exact noneAtDate old oldMember covers
    · rw [Period.cut_of_not covers]
      exact proper old oldMember

/-- Some period in force at the date starts there while another started earlier. -/
def Straddled (date : T) (timeline : Timeline T V) : Prop :=
  (∃ period ∈ timeline, period.Covers date ∧ period.start = date) ∧
    ∃ period ∈ timeline, period.Covers date ∧ period.start < date

theorem allProper_revise (proper : AllProper timeline) (picks : Picks date timeline picked)
    (below : date < top) (clean : ¬ Straddled date timeline) :
    AllProper (revise top date value picked timeline) := by
  refine revise_cases AllProper picks ?_ ?_ ?_
  · intro _ _ _ _ _
    exact allProper_assign proper
  · intro period member _ covers earlier
    refine allProper_split proper covers.2 fun other otherMember otherCovers => ?_
    refine lt_of_le_of_ne otherCovers.1 fun atDate => clean ⟨?_, period, member, covers, earlier⟩
    exact ⟨other, otherMember, otherCovers, atDate⟩
  · intro _ _ period member
    rcases Multiset.mem_cons.mp member with rfl | member
    · exact below
    · exact proper period member

theorem not_allProper_split {stop : T}
    (atDate : ∃ period ∈ timeline, period.Covers date ∧ period.start = date) :
    ¬ AllProper (⟨date, stop, value⟩ ::ₘ cut date timeline) := by
  obtain ⟨period, member, _, same⟩ := atDate
  intro proper
  exact cut_not_proper_at_date same
    (proper _ (Multiset.mem_cons_of_mem (mem_cut.mpr ⟨period, member, rfl⟩)))

/-! ## Distinct ends -/

@[simp] theorem Period.assign_ends (period : Period T V) :
    (period.assign date value).ends = period.ends := by
  simp [Period.ends]

omit [LinearOrder T] in
theorem Distinct.eq (distinct : Distinct timeline) {left right : Period T V}
    (leftMember : left ∈ timeline) (rightMember : right ∈ timeline)
    (same : left.ends = right.ends) : left = right :=
  Multiset.inj_on_of_nodup_map distinct left leftMember right rightMember same

theorem distinct_assign (distinct : Distinct timeline) :
    Distinct (assign date value timeline) := by
  have same : (assign date value timeline).map Period.ends = timeline.map Period.ends := by
    rw [assign, Multiset.map_map]
    exact Multiset.map_congr rfl fun period _ => period.assign_ends
  rw [Distinct, same]
  exact distinct

omit [LinearOrder T] in
theorem distinct_cons_iff {period : Period T V} :
    Distinct (period ::ₘ timeline) ↔
      (∀ other ∈ timeline, other.ends ≠ period.ends) ∧ Distinct timeline := by
  rw [Distinct, Multiset.map_cons, Multiset.nodup_cons]
  simp [Distinct]

theorem distinct_cut_iff (distinct : Distinct timeline) :
    Distinct (cut date timeline) ↔
      ∀ period ∈ timeline, period.Covers date → ∀ other ∈ timeline,
        other.start = period.start → other = period ∨ other.stop < date := by
  rw [Distinct, cut, Multiset.map_map]
  constructor
  · intro cutDistinct period member covers other otherMember starts
    by_contra neither
    obtain ⟨differs, late⟩ := not_or.mp neither
    refine differs (Multiset.inj_on_of_nodup_map cutDistinct other otherMember period member ?_)
    rw [Function.comp_apply, Function.comp_apply, Period.cut_of_covers covers]
    by_cases otherCovers : other.Covers date
    · rw [Period.cut_of_covers otherCovers]
      exact congrArg (·, date) starts
    · have stopped : other.stop = date := by
        refine le_antisymm (not_lt.mp fun reaches => otherCovers ⟨?_, reaches⟩) (not_lt.mp late)
        exact starts.trans_le covers.1
      rw [Period.cut_of_not otherCovers, Period.ends, starts, stopped, Period.ends]
  · intro apart
    have whole : timeline.Nodup := Multiset.Nodup.of_map Period.ends distinct
    have mixed : ∀ cutOff ∈ timeline, ∀ other ∈ timeline, cutOff.Covers date →
        ¬ other.Covers date → (cutOff.cut date).ends ≠ (other.cut date).ends := by
      intro cutOff cutMember other otherMember covers uncovered same
      rw [Period.cut_of_covers covers, Period.cut_of_not uncovered] at same
      obtain ⟨starts, stops⟩ := Prod.mk.injEq .. ▸ same
      rcases apart cutOff cutMember covers other otherMember starts.symm with rfl | early
      · exact uncovered covers
      · exact absurd stops early.ne'
    refine whole.map_on fun left leftMember right rightMember same => ?_
    by_cases leftCovers : left.Covers date <;> by_cases rightCovers : right.Covers date
    · have starts := congrArg Prod.fst same
      have sameStart : left.start = right.start := by simpa [Period.ends] using starts
      refine (apart right rightMember rightCovers left leftMember sameStart).resolve_right ?_
      exact not_lt.mpr leftCovers.2.le
    · exact absurd same (mixed left leftMember right rightMember leftCovers rightCovers)
    · exact absurd same.symm (mixed right rightMember left leftMember rightCovers leftCovers)
    · refine distinct.eq leftMember rightMember ?_
      simpa [Period.cut_of_not leftCovers, Period.cut_of_not rightCovers] using same

/-- Cutting keeps the ends distinct when a period that already has the ends of a
cut one is proper: it would then share its start with the proper period that is cut. -/
theorem distinct_cut (sound : Sound top timeline) (distinct : Distinct timeline)
    (solid : ∀ cutOff ∈ timeline, cutOff.Covers date → ∀ other ∈ timeline,
      other.ends = (cutOff.start, date) → other.Proper) :
    Distinct (cut date timeline) := by
  refine (distinct_cut_iff distinct).mpr fun cutOff cutMember covers other otherMember starts => ?_
  rcases lt_trichotomy other.stop date with early | atDate | late
  · exact Or.inr early
  · have proper := solid cutOff cutMember covers other otherMember
      (congrArg₂ Prod.mk starts atDate)
    exact Or.inl (sound.unique other otherMember cutOff cutMember proper covers.proper starts)
  · have otherCovers : other.Covers date := ⟨starts.trans_le covers.1, late⟩
    exact Or.inl (sound.unique other otherMember cutOff cutMember otherCovers.proper covers.proper
      starts)

theorem distinct_split {stop : T} (reaches : date < stop)
    (cutDistinct : Distinct (cut date timeline)) :
    Distinct (⟨date, stop, value⟩ ::ₘ cut date timeline) := by
  refine distinct_cons_iff.mpr ⟨?_, cutDistinct⟩
  intro other otherMember same
  obtain ⟨old, oldMember, rfl⟩ := mem_cut.mp otherMember
  obtain ⟨starts, stops⟩ := Prod.mk.injEq .. ▸ same
  have oldStart : old.start = date := by simpa using starts
  have endsLater : date < (old.cut date).stop := stops.symm ▸ reaches
  have covers : old.Covers date := ⟨oldStart.le, lt_of_lt_of_le endsLater (old.cut_stop_le date)⟩
  rw [Period.cut_of_covers covers] at endsLater
  exact lt_irrefl date endsLater

theorem distinct_revise (sound : Sound top timeline) (distinct : Distinct timeline)
    (picks : Picks date timeline picked) (below : date < top)
    (clean : ¬ Straddled date timeline) :
    Distinct (revise top date value picked timeline) := by
  refine revise_cases Distinct picks ?_ ?_ ?_
  · intro _ _ _ _ _
    exact distinct_assign distinct
  · intro period member _ covers earlier
    refine distinct_split covers.2 (distinct_cut sound distinct ?_)
    intro cutOff cutMember cutCovers other otherMember same
    have cutEarlier : cutOff.start < date := lt_of_le_of_ne cutCovers.1 fun atDate =>
      clean ⟨⟨cutOff, cutMember, cutCovers, atDate⟩, period, member, covers, earlier⟩
    obtain ⟨starts, stops⟩ := Prod.mk.injEq .. ▸ same
    exact (starts ▸ stops ▸ cutEarlier : other.start < other.stop)
  · intro _ uncovered
    refine distinct_cons_iff.mpr ⟨?_, distinct⟩
    intro other otherMember same
    obtain ⟨starts, stops⟩ := Prod.mk.injEq .. ▸ same
    exact uncovered other otherMember ⟨starts.le, stops.symm ▸ below⟩

/-- What a revision needs to repeat no ends, whatever the timeline looks like. -/
theorem distinct_revise_iff (distinct : Distinct timeline) (picks : Picks date timeline picked) :
    Distinct (revise top date value picked timeline) ↔
      picked.map Period.start = some date ∨
        (∀ period ∈ timeline, period.Covers date → ∀ other ∈ timeline,
          other.start = period.start → other = period ∨ other.stop < date) ∧
        ((∃ period ∈ timeline, period.Covers date) ∨
          ∀ period ∈ timeline, period.ends ≠ (date, top)) := by
  rw [← distinct_cut_iff distinct]
  refine revise_cases (fun revised => Distinct revised ↔ picked.map Period.start = some date ∨
    Distinct (cut date timeline) ∧ ((∃ period ∈ timeline, period.Covers date) ∨
      ∀ period ∈ timeline, period.ends ≠ (date, top))) picks ?_ ?_ ?_
  · rintro period _ rfl _ starts
    exact ⟨fun _ => Or.inl (congrArg some starts), fun _ => distinct_assign distinct⟩
  · rintro period member rfl covers earlier
    constructor
    · intro splitDistinct
      exact Or.inr ⟨(distinct_cons_iff.mp splitDistinct).2, Or.inl ⟨period, member, covers⟩⟩
    · rintro (starts | ⟨cutDistinct, _⟩)
      · exact absurd (Option.some.inj starts) earlier.ne
      · exact distinct_split covers.2 cutDistinct
  · rintro rfl uncovered
    rw [distinct_cons_iff, cut_of_uncovered uncovered]
    constructor
    · rintro ⟨free, _⟩
      exact Or.inr ⟨distinct, Or.inr free⟩
    · rintro (starts | ⟨_, ⟨period, member, covers⟩ | free⟩)
      · cases starts
      · exact absurd covers (uncovered period member)
      · exact ⟨free, distinct⟩

/-! ## Repetition -/

theorem assign_of_values (holds : ∀ period ∈ timeline, period.Covers date → period.value = value) :
    assign date value timeline = timeline := by
  have same : ∀ period ∈ timeline, period.assign date value = period := by
    intro period member
    by_cases covers : period.Covers date
    · rw [Period.assign, if_pos covers, ← holds period member covers]
    · exact Period.assign_of_not covers
  rw [assign, Multiset.map_congr rfl same]
  exact Multiset.map_id' timeline

theorem revise_eq_self_iff :
    revise top date value picked timeline = timeline ↔
      picked.map Period.start = some date ∧
        ∀ period ∈ timeline, period.Covers date → period.value = value := by
  unfold revise
  split
  · rename_i overwrites
    rw [and_iff_right overwrites]
    refine ⟨fun same => ?_, assign_of_values⟩
    have values := congrArg (Multiset.map Period.value) same
    rw [assign, Multiset.map_map] at values
    simp only [Function.comp_def, Period.assign_value] at values
    exact (map_overwrite_eq_iff _ _ _ _).mp values
  · rename_i inserts
    exact ⟨fun same => absurd same cons_cut_ne, fun both => absurd both.1 inserts⟩

theorem revise_covering_start (picks : Picks date timeline picked)
    (clean : ¬ Straddled date timeline) :
    ∀ period ∈ revise top date value picked timeline, period.Covers date →
      period.start = date := by
  refine revise_cases (fun revised => ∀ period ∈ revised, period.Covers date →
    period.start = date) picks ?_ ?_ ?_
  · intro first firstMember _ firstCovers atDate period member covers
    obtain ⟨old, oldMember, rfl⟩ := mem_assign.mp member
    have oldCovers : old.Covers date := by simpa using covers
    rw [Period.assign_start]
    by_contra differs
    exact clean ⟨⟨first, firstMember, firstCovers, atDate⟩, old, oldMember, oldCovers,
      lt_of_le_of_ne oldCovers.1 differs⟩
  · intro _ _ _ _ _ period member covers
    rcases Multiset.mem_cons.mp member with rfl | member
    · rfl
    · obtain ⟨old, _, rfl⟩ := mem_cut.mp member
      obtain ⟨oldCovers, uncovered⟩ := (old.cut_covers_from le_rfl).mp covers
      exact absurd oldCovers uncovered
  · intro _ uncovered period member covers
    rcases Multiset.mem_cons.mp member with rfl | member
    · rfl
    · exact absurd covers (uncovered period member)

/-- Repeating a revision at a date that was not straddled is an overwrite that
changes nothing, whichever covering period each look-up returns. -/
theorem revise_revise (picks : Picks date timeline picked) (below : date < top)
    (clean : ¬ Straddled date timeline) {again : Option (Period T V)}
    (picksAgain : Picks date (revise top date value picked timeline) again) :
    (∃ period, again = some period ∧ period.start = date) ∧
      revise top date value again (revise top date value picked timeline) =
        revise top date value picked timeline := by
  have covered : ∃ period ∈ revise top date value picked timeline, period.Covers date :=
    revise_covers_date picks below
  obtain ⟨covering, coveringMember, coveringDate⟩ := covered
  cases again with
  | none => exact absurd coveringDate (picksAgain covering coveringMember)
  | some period =>
      have atDate := revise_covering_start picks clean period picksAgain.1 picksAgain.2
      refine ⟨⟨period, rfl, atDate⟩, ?_⟩
      rw [revise_some_of_start atDate]
      apply assign_of_values
      intro other member covers
      exact revise_value_from_date picks le_rfl other member covers covers.1

end
end ValidTime
