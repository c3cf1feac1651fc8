import ApostolRates.Library.Outcomes

/-!
# Territories

Every row has a place, a new version of a row keeps its place, and each session writes
at places of its own.  Then a session sees of its places what it has written there over
what was committed, whatever the others do, and its commit makes exactly this the
committed rows of its places and changes no other.
-/

set_option autoImplicit false

namespace Versions

variable {Session Row Place : Type*} [DecidableEq Session] [DecidableEq Place]

/-- What the session sees of a place, slot by slot. -/
def seen (place : Row → Place) (own : Place) (session : Session) (heap : Heap Session Row) :
    List (Option Row) :=
  heap.map fun slot => (slot.visible session).filter fun row => place row = own

/-- What everybody sees of a place, slot by slot. -/
def settled (place : Row → Place) (own : Place) (heap : Heap Session Row) : List (Option Row) :=
  heap.map fun slot => slot.committed.filter fun row => place row = own

def rowsIn (slots : List (Option Row)) : Multiset Row := (slots.filterMap id : List Row)

/-- The open versions are in the territories of their sessions, each at the place of
the row that it replaces. -/
structure Territorial (place : Row → Place) (territory : Session → Place → Prop)
    (heap : Heap Session Row) : Prop where
  within : ∀ slot ∈ heap, ∀ version ∈ slot.pending, territory version.1 (place version.2)
  stays : ∀ slot ∈ heap, ∀ version ∈ slot.pending, ∀ old ∈ slot.committed,
    place old = place version.2

/-! ## Rows in slots -/

section
variable {slots : List (Option Row)} {row : Row} {index : Nat}

theorem mem_rowsIn : row ∈ rowsIn slots ↔ some row ∈ slots := by
  simp [rowsIn]

@[simp] theorem rowsIn_append_none : rowsIn (slots ++ [none]) = rowsIn slots := by
  simp [rowsIn]

@[simp] theorem rowsIn_append_some : rowsIn (slots ++ [some row]) = row ::ₘ rowsIn slots := by
  rw [rowsIn, List.filterMap_append]
  exact Multiset.coe_eq_coe.mpr (List.perm_append_singleton row _)

theorem rowsIn_map (edit : Row → Row) :
    (rowsIn slots).map edit = rowsIn (slots.map (Option.map edit)) := by
  rw [rowsIn, rowsIn, Multiset.map_coe, List.map_filterMap, List.filterMap_map]
  rfl

theorem rowsIn_set_map {edit : Row → Row} {changed : Row}
    (located : slots[index]? = some (some row)) (same : edit changed = edit row) :
    (rowsIn (slots.set index (some changed))).map edit = (rowsIn slots).map edit := by
  rw [rowsIn_map, rowsIn_map,
    map_set_of_eq located (congrArg some same : (some changed).map edit = (some row).map edit)]

/-- The same slots, and perhaps one more without a row. -/
def Grown (before after : List (Option Row)) : Prop := after = before ∨ after = before ++ [none]

theorem Grown.rowsIn {after : List (Option Row)} (grown : Grown slots after) :
    rowsIn after = rowsIn slots := by
  rcases grown with rfl | rfl
  · rfl
  · exact rowsIn_append_none

theorem Grown.getElem? {after : List (Option Row)} (grown : Grown slots after) :
    after[index]? = some (some row) ↔ slots[index]? = some (some row) := by
  rcases grown with rfl | rfl
  · rfl
  · rcases lt_or_ge index slots.length with inside | outside
    · rw [List.getElem?_append_left inside]
    · rw [List.getElem?_append_right outside, List.getElem?_eq_none outside]
      cases index - slots.length <;> simp

end

section
variable {place : Row → Place} {own : Place} {session other : Session}
variable {heap : Heap Session Row} {slot : Slot Session Row} {row : Row} {index : Nat}

omit [DecidableEq Place] in
theorem Slot.own_eq_some :
    slot.own session = some row ↔ slot.pending = some (session, row) := by
  unfold Slot.own
  cases slot.pending with
  | none => simp
  | some version =>
      obtain ⟨owner, written⟩ := version
      by_cases isOwner : owner = session <;> simp [isOwner]

omit [DecidableEq Place] in
theorem Slot.visible_congr {changed : Slot Session Row}
    (sameOwn : changed.own session = slot.own session)
    (sameCommitted : changed.committed = slot.committed) :
    changed.visible session = slot.visible session := by
  rw [Slot.visible, Slot.visible, sameOwn, sameCommitted]

theorem seen_getElem? {found : Row} :
    (seen place own session heap)[index]? = some (some found) ↔
      ∃ slot, heap[index]? = some slot ∧ slot.visible session = some found ∧
        place found = own := by
  rw [seen, List.getElem?_map, Option.map_eq_some_iff]
  constructor
  · rintro ⟨slot, located, isFound⟩
    obtain ⟨isSeen, isOwn⟩ := Option.filter_eq_some_iff.mp isFound
    exact ⟨slot, located, isSeen, of_decide_eq_true isOwn⟩
  · rintro ⟨slot, located, isSeen, isOwn⟩
    exact ⟨slot, located, Option.filter_eq_some_iff.mpr ⟨isSeen, decide_eq_true isOwn⟩⟩

theorem mem_rowsIn_seen :
    row ∈ rowsIn (seen place own session heap) ↔
      ∃ slot ∈ heap, slot.visible session = some row ∧ place row = own := by
  rw [mem_rowsIn, List.mem_iff_getElem?]
  simp only [seen_getElem?, List.mem_iff_getElem?]
  constructor
  · rintro ⟨index, slot, located, isSeen⟩
    exact ⟨slot, ⟨index, located⟩, isSeen⟩
  · rintro ⟨slot, ⟨index, located⟩, isSeen⟩
    exact ⟨index, slot, located, isSeen⟩

theorem rowsIn_seen_eraseIdx (located : heap[index]? = some slot)
    (isSeen : slot.visible session = some row) (isOwn : place row = own) :
    rowsIn (seen place own session heap) =
      row ::ₘ rowsIn (seen place own session (heap.eraseIdx index)) := by
  obtain ⟨inside, isSlot⟩ := List.getElem?_eq_some_iff.mp located
  have parts : heap = heap.take index ++ slot :: heap.drop (index + 1) := by
    rw [← isSlot, ← List.drop_eq_getElem_cons inside, List.take_append_drop]
  have here : ((slot.visible session).filter fun row => place row = own) = some row := by
    simp [Option.filter, isSeen, isOwn]
  have whole : rowsIn (seen place own session heap) =
      rowsIn (seen place own session (heap.take index ++ slot :: heap.drop (index + 1))) :=
    congrArg (fun slots => rowsIn (seen place own session slots)) parts
  rw [whole, List.eraseIdx_eq_take_drop_succ, seen, seen, List.map_append, List.map_cons, here,
    List.map_append, rowsIn, rowsIn, List.filterMap_append, List.filterMap_append]
  exact Multiset.coe_eq_coe.mpr List.perm_middle

omit [DecidableEq Session] in
theorem rowsIn_settled :
    rowsIn (settled place own heap) = (committedRows heap).filter fun row => place row = own := by
  rw [rowsIn, settled, List.filterMap_map, committedRows, Multiset.filter_coe,
    List.filter_filterMap]
  rfl

/-! ## What a session sees of its own steps -/

theorem seen_write_self (changed : Row) :
    seen place own session (heap.set index (slot.write session changed)) =
      (seen place own session heap).set index
        ((some changed).filter fun row => place row = own) := by
  rw [seen, List.map_set, Slot.visible, Slot.own_write_self, Option.some_or]
  rfl

theorem seen_write_elsewhere (located : heap[index]? = some slot)
    (isSeen : slot.visible session = some row) (elsewhere : place row ≠ own) {changed : Row}
    (samePlace : place changed = place row) :
    seen place own session (heap.set index (slot.write session changed)) =
      seen place own session heap := by
  refine map_set_of_eq located ?_
  rw [isSeen, Slot.visible, Slot.own_write_self, Option.some_or]
  simp [Option.filter, elsewhere, samePlace]

theorem seen_insert_self (added : Row) :
    seen place own session (heap ++ [Slot.inserted session added]) =
      seen place own session heap ++ [(some added).filter fun row => place row = own] := by
  rw [seen, List.map_append, List.map_singleton, Slot.visible,
    Slot.own_eq_some.mpr (rfl : (Slot.inserted session added).pending = some (session, added)),
    Option.some_or]
  rfl

theorem settled_commit (heap : Heap Session Row) :
    settled place own (heap.map (Slot.commit session)) = seen place own session heap := by
  rw [settled, List.map_map]
  refine List.map_congr_left fun slot _ => ?_
  rw [Function.comp_apply, Slot.committed_commit, Slot.visible]

omit [DecidableEq Session] in
theorem settled_write (located : heap[index]? = some slot) (changed : Row) :
    settled place own (heap.set index (slot.write session changed)) =
      settled place own heap :=
  map_set_of_eq located rfl

omit [DecidableEq Session] in
theorem settled_insert (added : Row) :
    settled place own (heap ++ [Slot.inserted session added]) =
      settled place own heap ++ [none] := by
  rw [settled, List.map_append]
  rfl

theorem settled_abort :
    settled place own (heap.map (Slot.abort session)) = settled place own heap := by
  rw [settled, List.map_map]
  refine List.map_congr_left fun slot _ => ?_
  rw [Function.comp_apply, Slot.committed_abort]

/-- A session that has written nothing at a place sees what is settled. -/
theorem seen_eq_settled
    (unwritten : ∀ slot ∈ heap, ∀ row, slot.own session = some row →
      place row ≠ own ∧ ∀ old ∈ slot.committed, place old ≠ own) :
    seen place own session heap = settled place own heap := by
  refine List.map_congr_left fun slot member => ?_
  cases written : slot.own session with
  | none => rw [Slot.visible_of_none written]
  | some row =>
      obtain ⟨elsewhere, alsoOld⟩ := unwritten slot member row written
      rw [Slot.visible, written, Option.some_or]
      cases before : slot.committed with
      | none => simp [elsewhere]
      | some old => simp [Option.filter, elsewhere, alsoOld old before]

/-! ## What a session sees of the steps of the others -/

theorem seen_write_of_ne (differs : session ≠ other) (located : heap[index]? = some slot)
    (unlocked : slot.Unlocked session) (changed : Row) :
    seen place own other (heap.set index (slot.write session changed)) =
      seen place own other heap :=
  map_set_of_eq located (congrArg (Option.filter fun row => place row = own)
    (Slot.visible_congr ((Slot.own_write_of_ne differs changed slot).trans
      (Slot.own_of_unlocked unlocked differs).symm) rfl))

theorem seen_insert_of_ne (differs : session ≠ other) (added : Row) :
    seen place own other (heap ++ [Slot.inserted session added]) =
      seen place own other heap ++ [none] := by
  rw [seen, List.map_append, List.map_singleton,
    Slot.visible_of_none (Slot.own_inserted_of_ne differs added)]
  rfl

theorem seen_abort_of_ne (differs : session ≠ other) :
    seen place own other (heap.map (Slot.abort session)) = seen place own other heap := by
  rw [seen, List.map_map]
  refine List.map_congr_left fun slot _ => ?_
  rw [Function.comp_apply,
    Slot.visible_congr (Slot.own_abort_of_ne differs slot) (slot.committed_abort session)]

end

/-! ## Territories of sessions -/

section
variable {place : Row → Place} {territory : Session → Place → Prop} {own : Place}
variable {session other : Session} {heap : Heap Session Row} {slot : Slot Session Row}
variable {row : Row} {index : Nat}

omit [DecidableEq Place] in
theorem Territorial.of_own (territorial : Territorial place territory heap) (member : slot ∈ heap)
    (written : slot.own session = some row) :
    territory session (place row) ∧ ∀ old ∈ slot.committed, place old = place row :=
  ⟨territorial.within slot member _ (Slot.own_eq_some.mp written),
    territorial.stays slot member _ (Slot.own_eq_some.mp written)⟩

theorem Territorial.seen_outside (territorial : Territorial place territory heap)
    (outside : ¬ territory session own) :
    seen place own session heap = settled place own heap := by
  refine seen_eq_settled fun slot member row written => ?_
  obtain ⟨inside, stays⟩ := territorial.of_own member written
  have elsewhere : place row ≠ own := by
    rintro rfl
    exact outside inside
  exact ⟨elsewhere, fun old before => stays old before ▸ elsewhere⟩

theorem Territorial.settled_commit_outside (territorial : Territorial place territory heap)
    (outside : ¬ territory session own) :
    settled place own (heap.map (Slot.commit session)) = settled place own heap := by
  rw [settled_commit, territorial.seen_outside outside]

theorem Territorial.seen_commit_of_ne (territorial : Territorial place territory heap)
    (differs : session ≠ other) (outside : ¬ territory session own) :
    seen place own other (heap.map (Slot.commit session)) = seen place own other heap := by
  rw [seen, List.map_map]
  refine List.map_congr_left fun slot member => ?_
  rw [Function.comp_apply]
  cases written : slot.own session with
  | none =>
      rw [Slot.visible_congr (Slot.own_commit_of_ne differs slot)
        (by rw [Slot.committed_commit, written, Option.none_or])]
  | some row =>
      obtain ⟨inside, stays⟩ := territorial.of_own member written
      have elsewhere : place row ≠ own := by
        rintro rfl
        exact outside inside
      have unwritten := Slot.own_of_own written differs
      rw [Slot.visible_of_none ((Slot.own_commit_of_ne differs slot).trans unwritten),
        Slot.visible_of_none unwritten, Slot.committed_commit, written, Option.some_or]
      cases before : slot.committed with
      | none => simp [elsewhere]
      | some old => simp [Option.filter, elsewhere, stays old before]

theorem Territorial.unlocked (territorial : Territorial place territory heap)
    (apart : ∀ other, other ≠ session → ¬ territory other own)
    (located : (seen place own session heap)[index]? = some (some row)) :
    ∃ slot, heap[index]? = some slot ∧ slot.visible session = some row ∧
      slot.Unlocked session := by
  obtain ⟨slot, isSlot, isSeen, isOwn⟩ := seen_getElem?.mp located
  refine ⟨slot, isSlot, isSeen, fun version pending => ?_⟩
  by_contra foreign
  have member := List.mem_of_getElem? isSlot
  have unwritten : slot.own session = none := by
    rw [Slot.own, Option.mem_def.mp pending]
    simp [foreign]
  rw [Slot.visible_of_none unwritten] at isSeen
  have same := territorial.stays slot member version pending row isSeen
  exact apart version.1 foreign (isOwn ▸ same ▸ territorial.within slot member version pending)

omit [DecidableEq Place] in
/-- At the places of its territory a session has to respect what it sees only. -/
theorem Territorial.respected (territorial : Territorial place territory heap)
    (apart : ∀ other, other ≠ session → ¬ territory other own) (member : slot ∈ heap)
    (respected : row ∈ slot.respected session) (isOwn : place row = own) :
    slot.visible session = some row := by
  unfold Slot.respected at respected
  cases pending : slot.pending with
  | none =>
      rw [pending] at respected
      rw [Slot.visible_of_none (by rw [Slot.own, pending]; rfl)]
      exact Option.mem_toList.mp respected
  | some version =>
      obtain ⟨owner, written⟩ := version
      rw [pending] at respected
      by_cases isOwner : owner = session
      · rw [isOwner] at respected pending
        rw [Slot.visible, Slot.own_eq_some.mpr pending, Option.some_or]
        simpa [eq_comm] using respected
      · have within := territorial.within slot member _ pending
        have stays := territorial.stays slot member _ pending
        refine absurd ?_ (apart owner isOwner)
        simp only [isOwner, if_false, List.mem_cons, Option.mem_toList] at respected
        rcases respected with rfl | before
        · exact isOwn ▸ within
        · exact isOwn ▸ stays row before ▸ within

/-! ### Steps keep the territories -/

omit [DecidableEq Session] [DecidableEq Place] in
theorem territorial_of_quiet (quiet : ∀ slot ∈ heap, slot.pending = none) :
    Territorial place territory heap := by
  constructor <;>
  · intro slot member version pending
    rw [quiet slot member] at pending
    cases pending

omit [DecidableEq Session] [DecidableEq Place] in
theorem Territorial.insert (territorial : Territorial place territory heap)
    (inside : territory session (place row)) :
    Territorial place territory (heap ++ [Slot.inserted session row]) := by
  constructor
  · intro slot member version pending
    rcases List.mem_append.mp member with before | added
    · exact territorial.within slot before version pending
    · rw [List.mem_singleton.mp added] at pending
      cases pending
      exact inside
  · intro slot member version pending old isOld
    rcases List.mem_append.mp member with before | added
    · exact territorial.stays slot before version pending old isOld
    · rw [List.mem_singleton.mp added] at isOld
      cases isOld

omit [DecidableEq Place] in
theorem Territorial.write (territorial : Territorial place territory heap)
    (located : heap[index]? = some slot) {changed : Row} (isSeen : slot.visible session = some row)
    (samePlace : place changed = place row) (inside : territory session (place row)) :
    Territorial place territory (heap.set index (slot.write session changed)) := by
  have member := List.mem_of_getElem? located
  constructor
  · intro touched touchedMember version pending
    rcases List.mem_or_eq_of_mem_set touchedMember with before | rfl
    · exact territorial.within touched before version pending
    · cases pending
      exact samePlace ▸ inside
  · intro touched touchedMember version pending old isOld
    rcases List.mem_or_eq_of_mem_set touchedMember with before | rfl
    · exact territorial.stays touched before version pending old isOld
    · cases pending
      rw [samePlace]
      cases written : slot.own session with
      | none =>
          rw [Slot.visible_of_none written] at isSeen
          rw [Slot.committed_write, Option.mem_def, isSeen] at isOld
          cases isOld
          rfl
      | some current =>
          rw [Slot.visible, written, Option.some_or] at isSeen
          cases isSeen
          exact (territorial.of_own member written).2 old isOld

omit [DecidableEq Session] [DecidableEq Place] in
theorem Territorial.map (territorial : Territorial place territory heap)
    {change : Slot Session Row → Slot Session Row}
    (kept : ∀ slot, ∀ version ∈ (change slot).pending, change slot = slot) :
    Territorial place territory (heap.map change) := by
  constructor
  · intro after member version pending
    obtain ⟨slot, before, rfl⟩ := List.mem_map.mp member
    have same := kept slot version pending
    rw [same] at pending
    exact territorial.within slot before version pending
  · intro after member version pending old isOld
    obtain ⟨slot, before, rfl⟩ := List.mem_map.mp member
    have same := kept slot version pending
    rw [same] at pending isOld
    exact territorial.stays slot before version pending old isOld

omit [DecidableEq Place] in
theorem Territorial.commit (territorial : Territorial place territory heap) :
    Territorial place territory (heap.map (Slot.commit session)) := by
  refine territorial.map fun slot version pending => ?_
  unfold Slot.commit at pending ⊢
  cases written : slot.own session with
  | none => rfl
  | some row =>
      rw [written] at pending
      cases pending

omit [DecidableEq Place] in
theorem Territorial.abort (territorial : Territorial place territory heap) :
    Territorial place territory (heap.map (Slot.abort session)) := by
  refine territorial.map fun slot version pending => ?_
  unfold Slot.abort at pending ⊢
  cases written : slot.own session with
  | none => rfl
  | some row =>
      rw [written] at pending
      cases pending

end

/-! ## Keys -/

section
variable {place : Row → Place} {own : Place} {session : Session} {heap : Heap Session Row}
variable {Key : Type*} {key : Row → Key}

/-- What a session sees is what its commit would leave. -/
theorem rowsIn_seen_le_outcome :
    rowsIn (seen place own session heap) ≤ outcome (fun other => other = session) heap := by
  have filtered : rowsIn (seen place own session heap) =
      (outcome (fun other => other = session) heap).filter fun row => place row = own := by
    rw [rowsIn, seen, outcome, List.filterMap_map, Multiset.filter_coe]
    refine congrArg _ ?_
    rw [List.filter_filterMap]
    refine List.filterMap_congr fun slot _ => ?_
    rw [Function.comp_apply, id_eq, Slot.version_alone]
  rw [filtered]
  exact Multiset.filter_le _ _

theorem KeysUnique.seen (unique : KeysUnique key heap) (place : Row → Place) (own : Place)
    (session : Session) : ((rowsIn (seen place own session heap)).map key).Nodup :=
  Multiset.nodup_of_le (Multiset.map_le_map rowsIn_seen_le_outcome) (unique _)

end

end Versions
