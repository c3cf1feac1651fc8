import Mathlib.Data.Multiset.Count
import Mathlib.Data.Multiset.Fold
import Mathlib.Data.Finset.Max

/-!
# Timelines of half-open periods

A period carries a value from its start up to, but not including, its stop.  A
timeline is a finite collection of periods, in no order and with no promise that
they are disjoint or non-empty.  This file has the operations a table of periods
is edited with and what each of them does to the periods in force at an instant.
-/

set_option autoImplicit false

namespace ValidTime

structure Period (T V : Type*) where
  start : T
  stop : T
  value : V
  deriving DecidableEq, Repr

abbrev Timeline (T V : Type*) := Multiset (Period T V)

section
variable {T V : Type*} [LinearOrder T]

def Period.Covers (period : Period T V) (instant : T) : Prop :=
  period.start ≤ instant ∧ instant < period.stop

instance (period : Period T V) (instant : T) : Decidable (period.Covers instant) :=
  inferInstanceAs (Decidable (period.start ≤ instant ∧ instant < period.stop))

/-- A period that covers at least its own start. -/
def Period.Proper (period : Period T V) : Prop := period.start < period.stop

instance (period : Period T V) : Decidable period.Proper :=
  inferInstanceAs (Decidable (period.start < period.stop))

theorem Period.Covers.proper {period : Period T V} {instant : T}
    (covers : period.Covers instant) : period.Proper :=
  lt_of_le_of_lt covers.1 covers.2

theorem Period.Proper.covers_start {period : Period T V} (proper : period.Proper) :
    period.Covers period.start :=
  ⟨le_rfl, proper⟩

def covering (instant : T) (timeline : Timeline T V) : Timeline T V :=
  timeline.filter fun period => period.Covers instant

def valuesAt (instant : T) (timeline : Timeline T V) : Multiset V :=
  (covering instant timeline).map Period.value

@[simp] theorem mem_covering {instant : T} {timeline : Timeline T V} {period : Period T V} :
    period ∈ covering instant timeline ↔ period ∈ timeline ∧ period.Covers instant :=
  Multiset.mem_filter

@[simp] theorem covering_zero (instant : T) : covering instant (0 : Timeline T V) = 0 := rfl

theorem covering_cons_of_covers {instant : T} {period : Period T V} (timeline : Timeline T V)
    (covers : period.Covers instant) :
    covering instant (period ::ₘ timeline) = period ::ₘ covering instant timeline :=
  Multiset.filter_cons_of_pos _ covers

theorem covering_cons_of_not {instant : T} {period : Period T V} (timeline : Timeline T V)
    (uncovered : ¬ period.Covers instant) :
    covering instant (period ::ₘ timeline) = covering instant timeline :=
  Multiset.filter_cons_of_neg _ uncovered

/-! ## Writing a value and ending periods -/

def Period.assign (date : T) (value : V) (period : Period T V) : Period T V :=
  if period.Covers date then { period with value := value } else period

def Period.cut (date : T) (period : Period T V) : Period T V :=
  if period.Covers date then { period with stop := date } else period

/-- Write a value into every period in force at a date. -/
def assign (date : T) (value : V) (timeline : Timeline T V) : Timeline T V :=
  timeline.map (Period.assign date value)

/-- End every period in force at a date there. -/
def cut (date : T) (timeline : Timeline T V) : Timeline T V :=
  timeline.map (Period.cut date)

@[simp] theorem Period.assign_start (date : T) (value : V) (period : Period T V) :
    (period.assign date value).start = period.start := by
  unfold Period.assign
  split <;> rfl

@[simp] theorem Period.assign_stop (date : T) (value : V) (period : Period T V) :
    (period.assign date value).stop = period.stop := by
  unfold Period.assign
  split <;> rfl

@[simp] theorem Period.assign_covers (date : T) (value : V) (period : Period T V) (instant : T) :
    (period.assign date value).Covers instant ↔ period.Covers instant := by
  simp [Period.Covers]

@[simp] theorem Period.assign_proper (date : T) (value : V) (period : Period T V) :
    (period.assign date value).Proper ↔ period.Proper := by
  simp [Period.Proper]

theorem Period.assign_value (date : T) (value : V) (period : Period T V) :
    (period.assign date value).value = if period.Covers date then value else period.value := by
  unfold Period.assign
  split <;> rfl

@[simp] theorem Period.cut_start (date : T) (period : Period T V) :
    (period.cut date).start = period.start := by
  unfold Period.cut
  split <;> rfl

@[simp] theorem Period.cut_value (date : T) (period : Period T V) :
    (period.cut date).value = period.value := by
  unfold Period.cut
  split <;> rfl

theorem Period.cut_of_covers {date : T} {period : Period T V} (covers : period.Covers date) :
    period.cut date = { period with stop := date } :=
  if_pos covers

theorem Period.cut_of_not {date : T} {period : Period T V} (uncovered : ¬ period.Covers date) :
    period.cut date = period :=
  if_neg uncovered

theorem Period.assign_of_not {date : T} {value : V} {period : Period T V}
    (uncovered : ¬ period.Covers date) : period.assign date value = period :=
  if_neg uncovered

theorem Period.cut_covers_before {date instant : T} (period : Period T V)
    (before : instant < date) : (period.cut date).Covers instant ↔ period.Covers instant := by
  by_cases covers : period.Covers date
  · rw [Period.cut_of_covers covers]
    exact ⟨fun inside => ⟨inside.1, before.trans covers.2⟩, fun inside => ⟨inside.1, before⟩⟩
  · rw [Period.cut_of_not covers]

theorem Period.cut_covers_from {date instant : T} (period : Period T V)
    (notBefore : date ≤ instant) :
    (period.cut date).Covers instant ↔ period.Covers instant ∧ ¬ period.Covers date := by
  by_cases covers : period.Covers date
  · rw [Period.cut_of_covers covers]
    exact ⟨fun inside => absurd inside.2 (not_lt_of_ge notBefore),
      fun inside => absurd covers inside.2⟩
  · simp [Period.cut_of_not covers, covers]

theorem Period.cut_stop_le (date : T) (period : Period T V) :
    (period.cut date).stop ≤ period.stop := by
  by_cases covers : period.Covers date
  · rw [Period.cut_of_covers covers]
    exact covers.2.le
  · rw [Period.cut_of_not covers]

theorem Period.proper_of_cut {date : T} {period : Period T V}
    (proper : (period.cut date).Proper) : period.Proper := by
  have starts : period.start < (period.cut date).stop := by
    simpa [Period.Proper] using proper
  exact lt_of_lt_of_le starts (period.cut_stop_le date)

@[simp] theorem mem_assign {date : T} {value : V} {timeline : Timeline T V} {period : Period T V} :
    period ∈ assign date value timeline ↔
      ∃ old ∈ timeline, old.assign date value = period :=
  Multiset.mem_map

@[simp] theorem mem_cut {date : T} {timeline : Timeline T V} {period : Period T V} :
    period ∈ cut date timeline ↔ ∃ old ∈ timeline, old.cut date = period :=
  Multiset.mem_map

theorem cons_cut_ne {date : T} {timeline : Timeline T V} {period : Period T V} :
    period ::ₘ cut date timeline ≠ timeline := by
  intro same
  have longer := congrArg Multiset.card same
  rw [Multiset.card_cons, cut, Multiset.card_map] at longer
  omega

theorem cut_of_uncovered {date : T} {timeline : Timeline T V}
    (uncovered : ∀ period ∈ timeline, ¬ period.Covers date) : cut date timeline = timeline := by
  unfold cut
  rw [Multiset.map_congr rfl fun period member => Period.cut_of_not (uncovered period member)]
  exact Multiset.map_id' timeline

theorem covering_map {edit : Period T V → Period T V} {instant : T} (timeline : Timeline T V) :
    covering instant (timeline.map edit) =
      (timeline.filter fun period => (edit period).Covers instant).map edit := by
  simp only [covering, Multiset.filter_map, Function.comp_def]

theorem card_covering_map {edit : Period T V → Period T V} {instant : T}
    (timeline : Timeline T V) :
    (covering instant (timeline.map edit)).card =
      (timeline.filter fun period => (edit period).Covers instant).card := by
  rw [covering_map, Multiset.card_map]

theorem card_covering_assign (date instant : T) (value : V) (timeline : Timeline T V) :
    (covering instant (assign date value timeline)).card = (covering instant timeline).card := by
  rw [assign, card_covering_map]
  simp only [Period.assign_covers, covering]

theorem card_covering_cut_before {date instant : T} (timeline : Timeline T V)
    (before : instant < date) :
    (covering instant (cut date timeline)).card = (covering instant timeline).card := by
  rw [cut, card_covering_map]
  simp only [Period.cut_covers_before _ before, covering]

theorem card_covering_cut_from {date instant : T} (timeline : Timeline T V)
    (notBefore : date ≤ instant) :
    (covering instant (cut date timeline)).card =
      ((covering instant timeline).filter fun period => ¬ period.Covers date).card := by
  rw [cut, card_covering_map, covering, Multiset.filter_filter]
  simp only [Period.cut_covers_from _ notBefore, and_comm]

theorem valuesAt_cut_before {date instant : T} (timeline : Timeline T V)
    (before : instant < date) :
    valuesAt instant (cut date timeline) = valuesAt instant timeline := by
  rw [valuesAt, cut, covering_map, Multiset.map_map]
  simp only [Function.comp_def, Period.cut_value, Period.cut_covers_before _ before]
  rfl

theorem valuesAt_assign (date instant : T) (value : V) (timeline : Timeline T V) :
    valuesAt instant (assign date value timeline) =
      (covering instant timeline).map fun period =>
        if period.Covers date then value else period.value := by
  rw [valuesAt, assign, covering_map, Multiset.map_map]
  simp only [Function.comp_def, Period.assign_value, Period.assign_covers]
  rfl

/-- Overwriting some images of a multiset keeps it exactly when the overwritten
images already had the new value: count the new value on both sides. -/
theorem map_overwrite_eq_iff {A B : Type*} (chosen : A → Prop) [DecidablePred chosen]
    (image : A → B) (value : B) (items : Multiset A) :
    (items.map fun item => if chosen item then value else image item) = items.map image ↔
      ∀ item ∈ items, chosen item → image item = value := by
  classical
  constructor
  · intro same
    have counts : ∀ part : Multiset A,
        (part.map fun item => if chosen item then value else image item).count value =
          (part.map image).count value +
            part.countP (fun item => chosen item ∧ image item ≠ value) := by
      intro part
      induction part using Multiset.induction with
      | empty => simp
      | cons item part ih =>
          by_cases isChosen : chosen item
          · by_cases already : image item = value
            · simp [isChosen, already, ih]
              omega
            · simp [isChosen, already, Ne.symm already, ih]
              omega
          · simp [isChosen, Multiset.count_cons, ih]
            omega
    have none_left := counts items
    rw [same] at none_left
    have zero : items.countP (fun item => chosen item ∧ image item ≠ value) = 0 := by omega
    intro item member isChosen
    by_contra differs
    exact Multiset.countP_eq_zero.mp zero item member ⟨isChosen, differs⟩
  · intro already
    apply Multiset.map_congr rfl
    intro item member
    split
    · rename_i isChosen
      exact (already item member isChosen).symm
    · rfl

/-! ## The next start after a date -/

/-- The smallest start later than `date`, or `top` when that comes first. -/
def nextStart (top date : T) (timeline : Timeline T V) : T :=
  ((timeline.map Period.start).filter fun start => date < start).fold min top

theorem lt_fold_min_iff (top instant : T) (starts : Multiset T) :
    instant < starts.fold min top ↔ instant < top ∧ ∀ start ∈ starts, instant < start := by
  induction starts using Multiset.induction with
  | empty => simp
  | cons start starts ih =>
      simp only [Multiset.fold_cons_left, lt_min_iff, ih, Multiset.mem_cons, forall_eq_or_imp]
      tauto

theorem lt_nextStart_iff (top date instant : T) (timeline : Timeline T V) :
    instant < nextStart top date timeline ↔
      instant < top ∧ ∀ period ∈ timeline, date < period.start → instant < period.start := by
  simp [nextStart, lt_fold_min_iff]

end
end ValidTime
