import ApostolRates.Library.Overlap

/-!
# The as-of map of a sequence of dated writes

A sequence of dated writes means, at an instant, the last write made at the
greatest date that is not later.  `entries` keeps one write a date in ascending
order, `chain` turns them into periods that each stop where the next one starts,
and a revision of that chain is the chain of one more write.
-/

set_option autoImplicit false

namespace ValidTime

variable {T V : Type*} [LinearOrder T]

/-- The write in force at an instant: a later write replaces the best one so far
unless its date is earlier. -/
def asOfEntry (instant : T) (writes : List (T × V)) : Option (T × V) :=
  writes.foldl (fun best write =>
    if write.1 ≤ instant ∧ ∀ entry ∈ best, entry.1 ≤ write.1 then some write else best) none

def asOf (instant : T) (writes : List (T × V)) : Option V :=
  (asOfEntry instant writes).map Prod.snd

@[simp] theorem asOfEntry_nil (instant : T) : asOfEntry instant ([] : List (T × V)) = none := rfl

theorem asOfEntry_concat (instant : T) (writes : List (T × V)) (write : T × V) :
    asOfEntry instant (writes ++ [write]) =
      if write.1 ≤ instant ∧ ∀ entry ∈ asOfEntry instant writes, entry.1 ≤ write.1 then some write
      else asOfEntry instant writes := by
  rw [asOfEntry, List.foldl_append]
  rfl

theorem asOfEntry_eq_none_iff (instant : T) (writes : List (T × V)) :
    asOfEntry instant writes = none ↔ ∀ write ∈ writes, instant < write.1 := by
  induction writes using List.reverseRecOn with
  | nil => simp
  | append_singleton writes write ih =>
      rw [asOfEntry_concat]
      by_cases early : write.1 ≤ instant
      · have late : ¬ instant < write.1 := not_lt.mpr early
        by_cases best : ∀ entry ∈ asOfEntry instant writes, entry.1 ≤ write.1
        · simp only [early, true_and]
          rw [if_pos best]
          simp only [reduceCtorEq, false_iff, not_forall]
          exact ⟨write, by simp, late⟩
        · have found : asOfEntry instant writes ≠ none := by
            intro missing
            exact best (by simp [missing])
          rw [if_neg fun both => best both.2]
          simp only [found, false_iff, not_forall]
          exact ⟨write, by simp, late⟩
      · rw [if_neg fun both => early both.1, ih]
        constructor
        · intro all other member
          rcases List.mem_append.mp member with member | member
          · exact all other member
          · rw [List.mem_singleton.mp member]
            exact not_le.mp early
        · intro all other member
          exact all other (List.mem_append_left _ member)

theorem asOfEntry_eq_some (instant : T) (writes : List (T × V)) (entry : T × V)
    (found : asOfEntry instant writes = some entry) :
    ∃ earlier later, writes = earlier ++ entry :: later ∧ entry.1 ≤ instant ∧
      (∀ write ∈ earlier, write.1 ≤ instant → write.1 ≤ entry.1) ∧
      ∀ write ∈ later, write.1 ≤ instant → write.1 < entry.1 := by
  induction writes using List.reverseRecOn generalizing entry with
  | nil => simp at found
  | append_singleton writes write ih =>
      rw [asOfEntry_concat] at found
      split at found
      · rename_i best
        cases found
        refine ⟨writes, [], rfl, best.1, ?_, by simp⟩
        intro other member early
        by_contra later
        cases seen : asOfEntry instant writes with
        | none =>
            have all := (asOfEntry_eq_none_iff instant writes).mp seen other member
            exact absurd early (not_le.mpr all)
        | some before =>
            have bounded := best.2 before seen
            obtain ⟨pre, post, split, _, preLe, postLt⟩ := ih before seen
            rw [split] at member
            rcases List.mem_append.mp member with member | member
            · exact later ((preLe other member early).trans bounded)
            · rcases List.mem_cons.mp member with rfl | member
              · exact later bounded
              · exact later ((postLt other member early).le.trans bounded)
      · rename_i notBest
        obtain ⟨earlier, later, split, within, earlierLe, laterLt⟩ := ih entry found
        refine ⟨earlier, later ++ [write], by simp [split], within, earlierLe, ?_⟩
        intro other member early
        rcases List.mem_append.mp member with member | member
        · exact laterLt other member early
        · rw [List.mem_singleton.mp member] at early ⊢
          by_contra notEarlier
          exact notBest ⟨early, fun best seen => by
            rw [found] at seen
            cases seen
            exact not_lt.mp notEarlier⟩

/-! ## One entry a date -/

/-- Insert a write in date order, replacing the write at the same date. -/
def write (date : T) (value : V) : List (T × V) → List (T × V)
  | [] => [(date, value)]
  | entry :: rest =>
      if date < entry.1 then (date, value) :: entry :: rest
      else if date = entry.1 then (date, value) :: rest
      else entry :: write date value rest

def entries (writes : List (T × V)) : List (T × V) :=
  writes.foldl (fun kept next => write next.1 next.2 kept) []

def Ascending (kept : List (T × V)) : Prop := (kept.map Prod.fst).Pairwise (· < ·)

theorem entries_concat (writes : List (T × V)) (next : T × V) :
    entries (writes ++ [next]) = write next.1 next.2 (entries writes) := by
  simp [entries]

theorem ascending_cons {entry : T × V} {rest : List (T × V)} :
    Ascending (entry :: rest) ↔ (∀ other ∈ rest, entry.1 < other.1) ∧ Ascending rest := by
  simp [Ascending]

theorem Ascending.earliest {entry : T × V} {rest : List (T × V)} {date : T}
    (ascending : Ascending (entry :: rest)) (before : date < entry.1) :
    ∀ other ∈ entry :: rest, date < other.1 := by
  intro other member
  rcases List.mem_cons.mp member with rfl | member
  · exact before
  · exact before.trans ((ascending_cons.mp ascending).1 other member)

theorem dates_write (date : T) (value : V) (kept : List (T × V)) (instant : T) :
    instant ∈ (write date value kept).map Prod.fst ↔
      instant = date ∨ instant ∈ kept.map Prod.fst := by
  induction kept with
  | nil => simp [write]
  | cons entry rest ih =>
      simp only [write]
      split
      · simp
      · split
        · rename_i same
          simp [same]
        · simp only [List.map_cons, List.mem_cons, ih]
          tauto

theorem dates_entries (writes : List (T × V)) (instant : T) :
    instant ∈ (entries writes).map Prod.fst ↔ instant ∈ writes.map Prod.fst := by
  induction writes using List.reverseRecOn with
  | nil => simp [entries]
  | append_singleton writes next ih =>
      rw [entries_concat, dates_write, ih]
      simp [or_comm]

theorem ascending_write (date : T) (value : V) (kept : List (T × V)) (ascending : Ascending kept) :
    Ascending (write date value kept) := by
  induction kept with
  | nil => simp [write, Ascending]
  | cons entry rest ih =>
      obtain ⟨later, restAscending⟩ := ascending_cons.mp ascending
      simp only [write]
      split
      · rename_i before
        exact ascending_cons.mpr ⟨ascending.earliest before, ascending⟩
      · rename_i notBefore
        split
        · rename_i same
          exact ascending_cons.mpr ⟨fun other member => same ▸ later other member, restAscending⟩
        · rename_i differs
          refine ascending_cons.mpr ⟨fun other member => ?_, ih restAscending⟩
          have dated := (dates_write date value rest other.1).mp (List.mem_map_of_mem member)
          rcases dated with atDate | old
          · rw [atDate]
            exact lt_of_le_of_ne (not_lt.mp notBefore) (Ne.symm differs)
          · obtain ⟨seen, seenMember, same⟩ := List.mem_map.mp old
            exact same ▸ later seen seenMember

theorem ascending_entries (writes : List (T × V)) : Ascending (entries writes) := by
  induction writes using List.reverseRecOn with
  | nil => simp [entries, Ascending]
  | append_singleton writes next ih =>
      rw [entries_concat]
      exact ascending_write next.1 next.2 _ ih

/-- The last of the ascending entries that is not after the instant. -/
def lookUp (instant : T) : List (T × V) → Option (T × V)
  | [] => none
  | entry :: rest =>
      if entry.1 ≤ instant then (lookUp instant rest).or (some entry) else none

theorem lookUp_mem {instant : T} {kept : List (T × V)} {entry : T × V}
    (found : lookUp instant kept = some entry) : entry ∈ kept ∧ entry.1 ≤ instant := by
  induction kept with
  | nil => simp [lookUp] at found
  | cons first rest ih =>
      simp only [lookUp] at found
      split at found
      · rename_i early
        cases later : lookUp instant rest with
        | none =>
            simp only [later, Option.none_or, Option.some.injEq] at found
            subst found
            exact ⟨List.mem_cons_self, early⟩
        | some seen =>
            simp only [later, Option.some_or, Option.some.injEq] at found
            subst found
            exact ⟨List.mem_cons_of_mem _ (ih later).1, (ih later).2⟩
      · cases found

theorem lookUp_cons_of_earliest (instant : T) {date : T} (value : V) {rest : List (T × V)}
    (earliest : ∀ other ∈ rest, date < other.1) :
    lookUp instant ((date, value) :: rest) =
      if date ≤ instant ∧ ∀ entry ∈ lookUp instant rest, entry.1 ≤ date then some (date, value)
      else lookUp instant rest := by
  cases found : lookUp instant rest with
  | none => simp [lookUp, found]
  | some seen =>
      obtain ⟨member, early⟩ := lookUp_mem found
      have late := earliest seen member
      simp [lookUp, found, late.le.trans early, not_le.mpr late]

theorem lookUp_write (instant date : T) (value : V) (kept : List (T × V))
    (ascending : Ascending kept) :
    lookUp instant (write date value kept) =
      if date ≤ instant ∧ ∀ entry ∈ lookUp instant kept, entry.1 ≤ date then some (date, value)
      else lookUp instant kept := by
  induction kept with
  | nil => simp [write, lookUp]
  | cons entry rest ih =>
      obtain ⟨later, restAscending⟩ := ascending_cons.mp ascending
      have ih := ih restAscending
      simp only [write]
      split
      · rename_i before
        exact lookUp_cons_of_earliest instant value (ascending.earliest before)
      · rename_i notBefore
        split
        · rename_i same
          subst same
          rw [lookUp_cons_of_earliest instant value later,
            show lookUp instant (entry :: rest) = _ from
              lookUp_cons_of_earliest instant entry.2 later]
          by_cases replaces : entry.1 ≤ instant ∧ ∀ seen ∈ lookUp instant rest, seen.1 ≤ entry.1
          · have own : ∀ seen ∈ some (entry.1, entry.2), seen.1 ≤ entry.1 := by simp
            rw [if_pos replaces, if_pos replaces, if_pos ⟨replaces.1, own⟩]
          · rw [if_neg replaces, if_neg replaces, if_neg replaces]
        · rename_i differs
          have earlier : entry.1 < date := lt_of_le_of_ne (not_lt.mp notBefore) (Ne.symm differs)
          by_cases early : entry.1 ≤ instant
          · simp only [lookUp, early, if_true, ih]
            cases restFound : lookUp instant rest with
            | none =>
                by_cases dateEarly : date ≤ instant <;> simp [dateEarly, earlier.le]
            | some seen =>
                by_cases best : date ≤ instant ∧ seen.1 ≤ date <;> simp [best]
          · have dateLate : ¬ date ≤ instant := fun dateEarly => early (earlier.le.trans dateEarly)
            simp [lookUp, early, dateLate]

/-- One entry a date is enough to answer as of any instant. -/
theorem lookUp_entries (instant : T) (writes : List (T × V)) :
    lookUp instant (entries writes) = asOfEntry instant writes := by
  induction writes using List.reverseRecOn with
  | nil => rfl
  | append_singleton writes next ih =>
      rw [entries_concat, lookUp_write _ _ _ _ (ascending_entries writes), asOfEntry_concat, ih]

/-! ## The chain of periods -/

def headStart (top : T) : List (T × V) → T
  | [] => top
  | entry :: _ => entry.1

def chain (top : T) : List (T × V) → List (Period T V)
  | [] => []
  | entry :: rest => ⟨entry.1, headStart top rest, entry.2⟩ :: chain top rest

omit [LinearOrder T] in
theorem chain_cons (top : T) (entry : T × V) (rest : List (T × V)) :
    (chain top (entry :: rest) : Timeline T V) =
      ⟨entry.1, headStart top rest, entry.2⟩ ::ₘ (chain top rest : Timeline T V) := rfl

omit [LinearOrder T] in
theorem chain_start {top : T} {kept : List (T × V)} {period : Period T V}
    (member : period ∈ chain top kept) : ∃ entry ∈ kept, entry.1 = period.start := by
  induction kept with
  | nil => simp [chain] at member
  | cons entry rest ih =>
      rcases List.mem_cons.mp member with rfl | member
      · exact ⟨entry, List.mem_cons_self, rfl⟩
      · obtain ⟨seen, seenMember, same⟩ := ih member
        exact ⟨seen, List.mem_cons_of_mem _ seenMember, same⟩

theorem headStart_le_chain_start {top : T} {kept : List (T × V)} (ascending : Ascending kept)
    {period : Period T V} (member : period ∈ chain top kept) :
    headStart top kept ≤ period.start := by
  obtain ⟨seen, seenMember, same⟩ := chain_start member
  cases kept with
  | nil => simp at seenMember
  | cons entry rest =>
      rw [← same]
      rcases List.mem_cons.mp seenMember with rfl | seenMember
      · exact le_rfl
      · exact ((ascending_cons.mp ascending).1 seen seenMember).le

theorem headStart_le {top : T} {kept : List (T × V)} (below : ∀ entry ∈ kept, entry.1 < top) :
    headStart top kept ≤ top := by
  cases kept with
  | nil => exact le_rfl
  | cons entry rest => exact (below entry List.mem_cons_self).le

theorem lookUp_eq_none_of_lt {instant top : T} {kept : List (T × V)}
    (before : instant < headStart top kept) : lookUp instant kept = none := by
  cases kept with
  | nil => rfl
  | cons entry rest => simp [lookUp, not_le.mpr (show instant < entry.1 from before)]

theorem covering_chain_eq_zero {instant top : T} {kept : List (T × V)}
    (ascending : Ascending kept) (before : instant < headStart top kept) :
    covering instant (chain top kept : Timeline T V) = 0 := by
  refine Multiset.filter_eq_nil.mpr fun period member covers => ?_
  have reached := headStart_le_chain_start ascending (Multiset.mem_coe.mp member)
  exact absurd covers.1 (not_le.mpr (before.trans_le reached))

/-- Below `top` a chain answers as its entries do. -/
theorem valuesAt_chain {instant top : T} (kept : List (T × V)) (ascending : Ascending kept)
    (instantBelow : instant < top) :
    valuesAt instant (chain top kept : Timeline T V) =
      (((lookUp instant kept).map Prod.snd).toList : Multiset V) := by
  induction kept with
  | nil => rfl
  | cons entry rest ih =>
      obtain ⟨later, restAscending⟩ := ascending_cons.mp ascending
      have ih := ih restAscending
      rw [chain_cons, valuesAt]
      by_cases early : entry.1 ≤ instant
      · rcases lt_or_ge instant (headStart top rest) with before | reached
        · rw [covering_cons_of_covers _ ⟨early, before⟩,
            covering_chain_eq_zero restAscending before]
          simp [lookUp, early, lookUp_eq_none_of_lt before]
        · rw [covering_cons_of_not _ fun covers => absurd covers.2 (not_lt.mpr reached)]
          have some_later : lookUp instant rest ≠ none := by
            cases rest with
            | nil => exact absurd instantBelow (not_lt.mpr reached)
            | cons next rest => simp [lookUp, show next.1 ≤ instant from reached]
          obtain ⟨seen, found⟩ := Option.ne_none_iff_exists'.mp some_later
          rw [valuesAt] at ih
          rw [ih]
          simp [lookUp, early, found]
      · have beforeAll : instant < headStart top (entry :: rest) := not_le.mp early
        rw [covering_cons_of_not _ fun covers => early covers.1]
        have restBefore : covering instant (chain top rest : Timeline T V) = 0 := by
          refine Multiset.filter_eq_nil.mpr fun period member covers => ?_
          obtain ⟨seen, seenMember, same⟩ := chain_start (Multiset.mem_coe.mp member)
          exact early ((later seen seenMember).le.trans (same ▸ covers.1))
        rw [restBefore]
        simp [lookUp, early]

theorem chain_stop_le {top : T} {kept : List (T × V)} (below : ∀ entry ∈ kept, entry.1 < top)
    {period : Period T V} (member : period ∈ chain top kept) : period.stop ≤ top := by
  induction kept with
  | nil => simp [chain] at member
  | cons entry rest ih =>
      have restBelow : ∀ other ∈ rest, other.1 < top := fun other otherMember =>
        below other (List.mem_cons_of_mem _ otherMember)
      rcases List.mem_cons.mp member with rfl | member
      · exact headStart_le restBelow
      · exact ih restBelow member

theorem headStart_write (top date : T) (value : V) (entry : T × V) (rest : List (T × V))
    (notBefore : entry.1 ≤ date) :
    headStart top (write date value (entry :: rest)) = entry.1 := by
  simp only [write, if_neg (not_lt.mpr notBefore)]
  split
  · rename_i same
    exact same
  · rfl

theorem revise_cons_of_not {top date : T} {value : V} {picked : Option (Period T V)}
    {period : Period T V} {timeline : Timeline T V} (uncovered : ¬ period.Covers date) :
    revise top date value picked (period ::ₘ timeline) =
      period ::ₘ revise top date value picked timeline := by
  unfold revise
  split
  · simp [assign, Period.assign_of_not uncovered]
  · simp only [cut, Multiset.map_cons, Period.cut_of_not uncovered]
    exact Multiset.cons_swap _ _ _

theorem Picks.of_cons {date : T} {picked : Option (Period T V)} {period : Period T V}
    {timeline : Timeline T V} (picks : Picks date (period ::ₘ timeline) picked)
    (uncovered : ¬ period.Covers date) : Picks date timeline picked := by
  cases picked with
  | none => exact fun other member => picks other (Multiset.mem_cons_of_mem member)
  | some chosen =>
      obtain ⟨member, covers⟩ := picks
      rcases Multiset.mem_cons.mp member with rfl | member
      · exact absurd covers uncovered
      · exact ⟨member, covers⟩

theorem tail_uncovered {top date : T} {rest : List (T × V)} (ascending : Ascending rest)
    (before : date < headStart top rest) :
    ∀ period ∈ (chain top rest : Timeline T V), ¬ period.Covers date := by
  intro period member covers
  have inside : period ∈ covering date (chain top rest : Timeline T V) :=
    mem_covering.mpr ⟨member, covers⟩
  rw [covering_chain_eq_zero ascending before] at inside
  simp at inside

theorem write_tail {top date : T} (value : V) {rest : List (T × V)}
    (before : date < headStart top rest) : write date value rest = (date, value) :: rest := by
  cases rest with
  | nil => rfl
  | cons next rest => simp [write, show date < next.1 from before]

theorem revise_chain_first {top date : T} {value : V} {picked : Option (Period T V)}
    {entry : T × V} {rest : List (T × V)} (ascending : Ascending rest) (started : entry.1 ≤ date)
    (before : date < headStart top rest)
    (picks : Picks date (chain top (entry :: rest) : Timeline T V) picked) :
    revise top date value picked (chain top (entry :: rest) : Timeline T V) =
      (chain top (write date value (entry :: rest)) : Timeline T V) := by
  have covers : (⟨entry.1, headStart top rest, entry.2⟩ : Period T V).Covers date :=
    ⟨started, before⟩
  have tail := tail_uncovered ascending before
  have chosen : picked = some ⟨entry.1, headStart top rest, entry.2⟩ := by
    cases picked with
    | none => exact absurd covers (picks _ (by simp [chain_cons]))
    | some period =>
        rcases Multiset.mem_cons.mp (chain_cons top entry rest ▸ picks.1) with same | member
        · rw [same]
        · exact absurd picks.2 (tail period member)
  rw [chosen, chain_cons]
  by_cases same : entry.1 = date
  · have overwritten : write date value (entry :: rest) = (date, value) :: rest := by
      simp [write, same]
    have keptTail : assign date value (chain top rest : Timeline T V) = chain top rest :=
      assign_of_values fun period member covers => absurd covers (tail period member)
    rw [assign] at keptTail
    rw [revise_some_of_start same, overwritten, assign, Multiset.map_cons, keptTail, Period.assign,
      if_pos covers, same]
    rfl
  · have inserted : write date value (entry :: rest) = entry :: (date, value) :: rest := by
      simp only [write, if_neg (not_lt.mpr started), if_neg (Ne.symm same)]
      rw [write_tail value before]
    have cutTail := cut_of_uncovered tail
    rw [cut] at cutTail
    rw [revise_some_of_ne same, inserted, cut, Multiset.map_cons, cutTail,
      Period.cut_of_covers covers]
    exact Multiset.cons_swap _ _ _

/-- Revising a chain at a date that is not before its first entry gives the chain
of one more write. -/
theorem revise_chain {top date : T} {value : V} {picked : Option (Period T V)}
    (kept : List (T × V)) (ascending : Ascending kept) (below : date < top)
    (notBefore : ∀ entry ∈ kept.head?, entry.1 ≤ date)
    (picks : Picks date (chain top kept : Timeline T V) picked) :
    revise top date value picked (chain top kept : Timeline T V) =
      (chain top (write date value kept) : Timeline T V) := by
  induction kept with
  | nil =>
      cases picked with
      | none => rfl
      | some period => exact absurd picks.1 (by simp [chain])
  | cons entry rest ih =>
      obtain ⟨later, restAscending⟩ := ascending_cons.mp ascending
      have started : entry.1 ≤ date := notBefore entry rfl
      rcases lt_or_ge date (headStart top rest) with before | reached
      · exact revise_chain_first restAscending started before picks
      · -- the date lies further along the chain
        have uncovered : ¬ (⟨entry.1, headStart top rest, entry.2⟩ : Period T V).Covers date :=
          fun covers => absurd covers.2 (not_lt.mpr reached)
        cases rest with
        | nil => exact absurd below (not_lt.mpr reached)
        | cons next rest =>
            have nextStarted : next.1 ≤ date := reached
            have differs : date ≠ entry.1 := fun same =>
              absurd (later next List.mem_cons_self) (not_lt.mpr (same ▸ nextStarted))
            have passed : write date value (entry :: next :: rest) =
                entry :: write date value (next :: rest) := by
              conv_lhs => rw [write]
              rw [if_neg (not_lt.mpr started), if_neg differs]
            rw [chain_cons] at picks ⊢
            rw [revise_cons_of_not uncovered,
              ih restAscending (by simpa using nextStarted) (picks.of_cons uncovered), passed,
              chain_cons, headStart_write top date value next rest nextStarted]
            rfl

theorem head_entries_le {writes : List (T × V)} {entry : T × V}
    (head : entry ∈ (entries writes).head?) {date : T} (written : date ∈ writes.map Prod.fst) :
    entry.1 ≤ date := by
  have ascending := ascending_entries writes
  have kept := (dates_entries writes date).mpr written
  cases shape : entries writes with
  | nil => simp [shape] at head
  | cons first rest =>
      rw [shape] at head ascending kept
      obtain rfl : first = entry := by simpa using head
      rcases List.mem_cons.mp kept with same | later
      · exact same.ge
      · obtain ⟨seen, seenMember, rfl⟩ := List.mem_map.mp later
        exact ((ascending_cons.mp ascending).1 seen seenMember).le

omit [LinearOrder T] in
theorem map_start_chain (top : T) (kept : List (T × V)) :
    (chain top kept).map Period.start = kept.map Prod.fst := by
  induction kept with
  | nil => rfl
  | cons entry rest ih => rw [chain, List.map_cons, List.map_cons, ih]

theorem distinct_chain (top : T) {kept : List (T × V)} (ascending : Ascending kept) :
    Distinct (chain top kept : Timeline T V) := by
  have starts : ((chain top kept).map Period.start).Nodup := by
    rw [map_start_chain]
    exact ascending.imp fun before => before.ne
  have ends : ((chain top kept).map Period.ends).Nodup := by
    refine List.Nodup.of_map Prod.fst ?_
    rwa [List.map_map]
  exact ends

theorem covering_chain_of_top_le {instant top : T} {kept : List (T × V)}
    (below : ∀ entry ∈ kept, entry.1 < top) (late : top ≤ instant) :
    covering instant (chain top kept : Timeline T V) = 0 := by
  refine Multiset.filter_eq_nil.mpr fun period member covers => ?_
  have stops := chain_stop_le below (Multiset.mem_coe.mp member)
  exact absurd covers.2 (not_lt.mpr (stops.trans late))

end ValidTime
