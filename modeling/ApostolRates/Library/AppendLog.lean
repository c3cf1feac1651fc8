import ApostolRates.Library.AsOf

/-!
# A log that is only appended to

When every write is dated no earlier than the ones before it, the write in force at
an instant is the last one that is not dated after it.  What is appended later is
then invisible at the earlier instants.
-/

set_option autoImplicit false

namespace ValidTime

variable {T V : Type*} [LinearOrder T]

/-- The last write that is not dated after the instant. -/
def latest (instant : T) (writes : List (T × V)) : Option (T × V) :=
  (writes.filter fun write => write.1 ≤ instant).getLast?

@[simp] theorem latest_concat (instant : T) (writes : List (T × V)) (write : T × V) :
    latest instant (writes ++ [write]) =
      if write.1 ≤ instant then some write else latest instant writes := by
  unfold latest
  by_cases early : write.1 ≤ instant <;> simp [early]

theorem latest_mem {instant : T} {writes : List (T × V)} {write : T × V}
    (found : latest instant writes = some write) : write ∈ writes ∧ write.1 ≤ instant := by
  have kept := List.mem_of_getLast? found
  simpa using kept

theorem latest_append_of_later {instant : T} (writes : List (T × V)) {later : List (T × V)}
    (after : ∀ write ∈ later, instant < write.1) :
    latest instant (writes ++ later) = latest instant writes := by
  have hidden : (later.filter fun write => decide (write.1 ≤ instant)) = [] :=
    List.filter_eq_nil_iff.mpr fun write member => by simpa using after write member
  rw [latest, List.filter_append, hidden, List.append_nil, latest]

def Dated (writes : List (T × V)) : Prop :=
  writes.Pairwise fun earlier later => earlier.1 ≤ later.1

/-- In a log in the order of its dates the latest write is the one in force. -/
theorem asOfEntry_eq_latest (instant : T) {writes : List (T × V)} (dated : Dated writes) :
    asOfEntry instant writes = latest instant writes := by
  induction writes using List.reverseRecOn with
  | nil => rfl
  | append_singleton writes write ih =>
      obtain ⟨before, _, order⟩ := List.pairwise_append.mp dated
      rw [asOfEntry_concat, latest_concat, ih before]
      have best : ∀ entry ∈ latest instant writes, entry.1 ≤ write.1 := fun entry found =>
        order entry (latest_mem found).1 write (List.mem_singleton_self write)
      by_cases early : write.1 ≤ instant
      · rw [if_pos ⟨early, best⟩, if_pos early]
      · rw [if_neg fun both => early both.1, if_neg early]

theorem latest_of_all_le {instant : T} {writes : List (T × V)}
    (all : ∀ write ∈ writes, write.1 ≤ instant) : latest instant writes = writes.getLast? := by
  have kept : (writes.filter fun write => decide (write.1 ≤ instant)) = writes :=
    List.filter_eq_self.mpr fun write member => by simpa using all write member
  rw [latest, kept]

theorem latest_append_same (instant : T) {writes later : List (T × V)}
    (dated : Dated (writes ++ later))
    (same : ∀ write ∈ later, (latest write.1 writes).map Prod.snd = some write.2) :
    (latest instant (writes ++ later)).map Prod.snd = (latest instant writes).map Prod.snd := by
  induction later using List.reverseRecOn with
  | nil => rw [List.append_nil]
  | append_singleton later write ih =>
      rw [← List.append_assoc] at dated ⊢
      obtain ⟨before, _, order⟩ := List.pairwise_append.mp dated
      rw [latest_concat]
      split
      · rename_i early
        have earlier : ∀ other ∈ writes, other.1 ≤ write.1 := fun other member =>
          order other (List.mem_append_left _ member) write (List.mem_singleton_self write)
        have inForce := same write (by simp)
        rw [latest_of_all_le earlier] at inForce
        rw [latest_of_all_le fun other member => (earlier other member).trans early, inForce]
        rfl
      · exact ih before fun other member => same other (List.mem_append_left _ member)

/-! ## One entry a date -/

theorem entries_eq_nil_iff {writes : List (T × V)} : entries writes = [] ↔ writes = [] := by
  constructor
  · intro empty
    refine List.eq_nil_iff_forall_not_mem.mpr fun write member => ?_
    have dated := (dates_entries writes write.1).mpr (List.mem_map_of_mem member)
    rw [empty] at dated
    exact absurd dated List.not_mem_nil
  · rintro rfl
    rfl

omit [LinearOrder T] in
theorem chain_eq_nil_iff {top : T} {kept : List (T × V)} : chain top kept = [] ↔ kept = [] := by
  cases kept <;> simp [chain]

theorem getLast?_write {date : T} (value : V) {kept : List (T × V)} (ascending : Ascending kept)
    (all : ∀ entry ∈ kept, entry.1 ≤ date) :
    (write date value kept).getLast? = some (date, value) := by
  induction kept with
  | nil => rfl
  | cons entry rest ih =>
      obtain ⟨later, restAscending⟩ := ascending_cons.mp ascending
      have begun := all entry List.mem_cons_self
      have restAll := fun other member => all other (List.mem_cons_of_mem entry member)
      rw [write, if_neg (not_lt.mpr begun)]
      split
      · rename_i same
        cases rest with
        | nil => rfl
        | cons next rest =>
            have after := later next List.mem_cons_self
            exact absurd (restAll next List.mem_cons_self) (not_le.mpr (same ▸ after))
      · rw [List.getLast?_cons, ih restAscending restAll]
        rfl

theorem getLast?_entries {writes : List (T × V)} (dated : Dated writes) :
    (entries writes).getLast? = writes.getLast? := by
  cases List.eq_nil_or_concat writes with
  | inl empty =>
      rw [empty]
      rfl
  | inr split =>
      obtain ⟨earlier, last, rfl⟩ := split
      rw [List.concat_eq_append] at dated ⊢
      obtain ⟨_, _, order⟩ := List.pairwise_append.mp dated
      rw [entries_concat, List.getLast?_append_of_ne_nil _ (List.cons_ne_nil _ _)]
      refine getLast?_write last.2 (ascending_entries earlier) fun entry member => ?_
      obtain ⟨write, written, same⟩ := List.mem_map.mp
        ((dates_entries earlier entry.1).mp (List.mem_map_of_mem member))
      exact same ▸ order write written last (List.mem_singleton_self last)

theorem covering_chain_of_all_le {instant top : T} {kept : List (T × V)}
    (all : ∀ entry ∈ kept, entry.1 ≤ instant) (below : instant < top) :
    covering instant (chain top kept : Timeline T V) =
      ((kept.getLast?.map fun entry => (⟨entry.1, top, entry.2⟩ : Period T V)).toList :
        Timeline T V) := by
  induction kept with
  | nil => rfl
  | cons entry rest ih =>
      have ih := ih fun other member => all other (List.mem_cons_of_mem _ member)
      have begun := all entry List.mem_cons_self
      rw [chain_cons]
      cases rest with
      | nil =>
          have covers : (⟨entry.1, top, entry.2⟩ : Period T V).Covers instant := ⟨begun, below⟩
          exact Multiset.filter_cons_of_pos _ covers
      | cons next rest =>
          have ended : ¬ (⟨entry.1, next.1, entry.2⟩ : Period T V).Covers instant := fun covers =>
            absurd covers.2 (not_lt.mpr (all next (by simp)))
          rw [List.getLast?_cons_cons, ← ih]
          exact Multiset.filter_cons_of_neg _ ended

/-! ## The periods of a chain one by one -/

/-- The first of the dates that is later, or `top`. -/
def following (top date : T) (dates : List T) : T :=
  (dates.filter fun other => date < other).foldr min top

theorem le_following_iff {top date bound : T} {dates : List T} :
    bound ≤ following top date dates ↔
      bound ≤ top ∧ ∀ other ∈ dates, date < other → bound ≤ other := by
  unfold following
  induction dates with
  | nil => simp
  | cons other rest ih =>
      by_cases later : date < other
      · rw [List.filter_cons_of_pos (by simpa using later), List.foldr_cons, le_min_iff, ih]
        simp [later]
        tauto
      · rw [List.filter_cons_of_neg (by simpa using later), ih]
        simp [later]

theorem following_congr {top date : T} {left right : List T}
    (same : ∀ other, other ∈ left ↔ other ∈ right) :
    following top date left = following top date right :=
  eq_of_forall_le_iff fun bound => by simp only [le_following_iff, same]

theorem following_cons_of_le {top date other : T} (dates : List T) (notLater : other ≤ date) :
    following top date (other :: dates) = following top date dates := by
  simp [following, not_lt.mpr notLater]

theorem following_eq_headStart {top date : T} {kept : List (T × V)} (ascending : Ascending kept)
    (below : ∀ entry ∈ kept, entry.1 < top) (later : ∀ entry ∈ kept, date < entry.1) :
    following top date (kept.map Prod.fst) = headStart top kept := by
  refine eq_of_forall_le_iff fun bound => ?_
  rw [le_following_iff]
  cases kept with
  | nil => simp [headStart]
  | cons first rest =>
      constructor
      · rintro ⟨_, all⟩
        exact all first.1 (by simp) (later first List.mem_cons_self)
      · intro bounded
        refine ⟨bounded.trans (headStart_le below), fun other member _ => bounded.trans ?_⟩
        obtain ⟨entry, entryMember, rfl⟩ := List.mem_map.mp member
        rcases List.mem_cons.mp entryMember with rfl | entryMember
        · exact le_rfl
        · exact ((ascending_cons.mp ascending).1 entry entryMember).le

theorem mem_chain_iff {top : T} {kept : List (T × V)} (ascending : Ascending kept)
    (below : ∀ entry ∈ kept, entry.1 < top) {period : Period T V} :
    period ∈ chain top kept ↔ (period.start, period.value) ∈ kept ∧
      period.stop = following top period.start (kept.map Prod.fst) := by
  induction kept with
  | nil => simp [chain]
  | cons entry rest ih =>
      obtain ⟨later, restAscending⟩ := ascending_cons.mp ascending
      have restBelow : ∀ other ∈ rest, other.1 < top := fun other member =>
        below other (List.mem_cons_of_mem _ member)
      have ends : following top entry.1 ((entry :: rest).map Prod.fst) = headStart top rest := by
        rw [List.map_cons, following_cons_of_le _ le_rfl,
          following_eq_headStart restAscending restBelow later]
      rw [chain, List.mem_cons, List.mem_cons, ih restAscending restBelow]
      constructor
      · rintro (rfl | ⟨member, stops⟩)
        · exact ⟨Or.inl rfl, ends.symm⟩
        · refine ⟨Or.inr member, ?_⟩
          rw [stops, List.map_cons, following_cons_of_le _ (later _ member).le]
      · rintro ⟨same | member, stops⟩
        · left
          subst same
          rw [ends] at stops
          rw [← stops]
        · right
          rw [List.map_cons, following_cons_of_le _ (later _ member).le] at stops
          exact ⟨member, stops⟩

theorem mem_iff_lookUp {kept : List (T × V)} (ascending : Ascending kept) {entry : T × V} :
    entry ∈ kept ↔ lookUp entry.1 kept = some entry := by
  refine ⟨fun member => ?_, fun found => (lookUp_mem found).1⟩
  induction kept with
  | nil => exact absurd member List.not_mem_nil
  | cons first rest ih =>
      obtain ⟨later, restAscending⟩ := ascending_cons.mp ascending
      rcases List.mem_cons.mp member with rfl | member
      · have none : lookUp entry.1 rest = none := by
          refine Option.eq_none_iff_forall_ne_some.mpr fun seen found => ?_
          obtain ⟨seenMember, early⟩ := lookUp_mem found
          exact absurd (later seen seenMember) (not_lt.mpr early)
        rw [lookUp, if_pos le_rfl, none, Option.none_or]
      · rw [lookUp, if_pos (later entry member).le, ih restAscending member, Option.some_or]

theorem mem_entries_iff {writes : List (T × V)} (dated : Dated writes) {entry : T × V} :
    entry ∈ entries writes ↔ latest entry.1 writes = some entry := by
  rw [mem_iff_lookUp (ascending_entries writes), lookUp_entries, asOfEntry_eq_latest _ dated]

/-- The periods of a log: one for each date, with the last value given at it, up to the
next date. -/
theorem mem_chain_entries_iff {top : T} {writes : List (T × V)} (dated : Dated writes)
    (below : ∀ write ∈ writes, write.1 < top) {period : Period T V} :
    period ∈ chain top (entries writes) ↔
      latest period.start writes = some (period.start, period.value) ∧
        period.stop = following top period.start (writes.map Prod.fst) := by
  have entriesBelow : ∀ entry ∈ entries writes, entry.1 < top := by
    intro entry member
    obtain ⟨write, written, same⟩ := List.mem_map.mp
      ((dates_entries _ entry.1).mp (List.mem_map_of_mem member))
    exact same ▸ below write written
  rw [mem_chain_iff (ascending_entries writes) entriesBelow, mem_entries_iff dated,
    following_congr fun other => dates_entries writes other]

end ValidTime
