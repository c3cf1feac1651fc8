import Mathlib.Data.Multiset.Filter
import Mathlib.Tactic.Common

/-!
# Row versions

A slot of a table holds the version of a row that has been committed, if any, and
the version that an open transaction has written into it, if any.  A commit turns
the versions of a transaction into committed ones and an abort drops them.  What a
transaction has written changes with its own steps only, and a write that respects
the keys of the versions that are there keeps the keys unique however the open
transactions end.
-/

set_option autoImplicit false

namespace Versions

structure Slot (Session Row : Type*) where
  committed : Option Row
  pending : Option (Session × Row)
  deriving DecidableEq

section
variable {Session Row : Type*} [DecidableEq Session]

namespace Slot

def own (session : Session) (slot : Slot Session Row) : Option Row :=
  slot.pending.bind fun version => if version.1 = session then some version.2 else none

/-- The version that a statement of the session sees. -/
def visible (session : Session) (slot : Slot Session Row) : Option Row :=
  (slot.own session).or slot.committed

/-- No other session has written the slot and not ended. -/
def Unlocked (session : Session) (slot : Slot Session Row) : Prop :=
  ∀ version ∈ slot.pending, version.1 = session

instance (session : Session) (slot : Slot Session Row) : Decidable (slot.Unlocked session) :=
  inferInstanceAs (Decidable (∀ version ∈ slot.pending, version.1 = session))

/-- The versions an index entry of the session has to respect: what the slot holds
now, and for a slot that another session has written also what it may hold. -/
def respected (session : Session) (slot : Slot Session Row) : List Row :=
  match slot.pending with
  | none => slot.committed.toList
  | some (owner, row) => if owner = session then [row] else row :: slot.committed.toList

def write (session : Session) (row : Row) (slot : Slot Session Row) : Slot Session Row :=
  { slot with pending := some (session, row) }

def commit (session : Session) (slot : Slot Session Row) : Slot Session Row :=
  match slot.own session with
  | some row => ⟨some row, none⟩
  | none => slot

def abort (session : Session) (slot : Slot Session Row) : Slot Session Row :=
  match slot.own session with
  | some _ => ⟨slot.committed, none⟩
  | none => slot

/-- The version that the session has written, over the version that it replaces. -/
def work (session : Session) (slot : Slot Session Row) : Option (Option Row × Row) :=
  (slot.own session).map fun row => (slot.committed, row)

/-- The committed version, as long as the session has not written another one. -/
def untouched (session : Session) (slot : Slot Session Row) : Option Row :=
  match slot.own session with
  | none => slot.committed
  | some _ => none

def inserted (session : Session) (row : Row) : Slot Session Row := ⟨none, some (session, row)⟩

/-- The version that is left when exactly these open transactions commit. -/
def version (ends : Session → Bool) (slot : Slot Session Row) : Option Row :=
  match slot.pending with
  | none => slot.committed
  | some (owner, row) => if ends owner then some row else slot.committed

/-! What they come to, slot by slot. -/

theorem own_of_quiet {session : Session} {slot : Slot Session Row} (quiet : slot.pending = none) :
    slot.own session = none := by
  obtain ⟨committed, pending⟩ := slot
  obtain rfl : pending = none := quiet
  rfl

theorem own_of_pending {session owner : Session} {slot : Slot Session Row} {row : Row}
    (written : slot.pending = some (owner, row)) :
    slot.own session = if owner = session then some row else none := by
  obtain ⟨committed, pending⟩ := slot
  obtain rfl : pending = some (owner, row) := written
  rfl

theorem commit_eq (session : Session) (slot : Slot Session Row) :
    slot.commit session = match slot.own session with
      | some row => ⟨some row, none⟩
      | none => slot := rfl

theorem abort_eq (session : Session) (slot : Slot Session Row) :
    slot.abort session = match slot.own session with
      | some _ => ⟨slot.committed, none⟩
      | none => slot := rfl

theorem commit_of_own {session : Session} {slot : Slot Session Row} {row : Row}
    (written : slot.own session = some row) : slot.commit session = ⟨some row, none⟩ := by
  rw [commit_eq, written]

theorem commit_of_none {session : Session} {slot : Slot Session Row}
    (unwritten : slot.own session = none) : slot.commit session = slot := by
  rw [commit_eq, unwritten]

theorem abort_of_own {session : Session} {slot : Slot Session Row} {row : Row}
    (written : slot.own session = some row) : slot.abort session = ⟨slot.committed, none⟩ := by
  rw [abort_eq, written]

theorem abort_of_none {session : Session} {slot : Slot Session Row}
    (unwritten : slot.own session = none) : slot.abort session = slot := by
  rw [abort_eq, unwritten]

theorem respected_of_quiet {session : Session} {slot : Slot Session Row}
    (quiet : slot.pending = none) : slot.respected session = slot.committed.toList := by
  obtain ⟨committed, pending⟩ := slot
  obtain rfl : pending = none := quiet
  rfl

theorem respected_of_pending {session owner : Session} {slot : Slot Session Row} {row : Row}
    (written : slot.pending = some (owner, row)) :
    slot.respected session =
      if owner = session then [row] else row :: slot.committed.toList := by
  obtain ⟨committed, pending⟩ := slot
  obtain rfl : pending = some (owner, row) := written
  rfl

omit [DecidableEq Session] in
theorem version_of_quiet {ends : Session → Bool} {slot : Slot Session Row}
    (quiet : slot.pending = none) : slot.version ends = slot.committed := by
  obtain ⟨committed, pending⟩ := slot
  obtain rfl : pending = none := quiet
  rfl

omit [DecidableEq Session] in
theorem version_of_pending {ends : Session → Bool} {owner : Session} {slot : Slot Session Row}
    {row : Row} (written : slot.pending = some (owner, row)) :
    slot.version ends = if ends owner = true then some row else slot.committed := by
  obtain ⟨committed, pending⟩ := slot
  obtain rfl : pending = some (owner, row) := written
  rfl

@[simp] theorem own_write_self (session : Session) (row : Row) (slot : Slot Session Row) :
    (slot.write session row).own session = some row :=
  (own_of_pending rfl).trans (if_pos rfl)

theorem own_write_of_ne {session other : Session} (differs : session ≠ other) (row : Row)
    (slot : Slot Session Row) : (slot.write session row).own other = none :=
  (own_of_pending rfl).trans (if_neg differs)

omit [DecidableEq Session] in
@[simp] theorem committed_write (session : Session) (row : Row) (slot : Slot Session Row) :
    (slot.write session row).committed = slot.committed := rfl

theorem own_of_unlocked {session other : Session} {slot : Slot Session Row}
    (unlocked : slot.Unlocked session) (differs : session ≠ other) : slot.own other = none := by
  cases written : slot.pending with
  | none => exact own_of_quiet written
  | some version =>
      have owner : version.1 = session := unlocked version written
      rw [own_of_pending written, if_neg (owner ▸ differs)]

theorem own_of_own {session other : Session} {slot : Slot Session Row} {row : Row}
    (written : slot.own session = some row) (differs : session ≠ other) :
    slot.own other = none := by
  obtain ⟨version, pending, isOwn⟩ := Option.bind_eq_some_iff.mp written
  have owner : version.1 = session := by
    by_contra foreign
    simp [foreign] at isOwn
  rw [own_of_pending pending, if_neg (owner ▸ differs)]

theorem own_commit_self (session : Session) (slot : Slot Session Row) :
    (slot.commit session).own session = none := by
  cases written : slot.own session with
  | none => rwa [commit_of_none written]
  | some row =>
      rw [commit_of_own written]
      rfl

theorem own_commit_of_ne {session other : Session} (differs : session ≠ other)
    (slot : Slot Session Row) : (slot.commit session).own other = slot.own other := by
  cases written : slot.own session with
  | none => rw [commit_of_none written]
  | some row =>
      rw [commit_of_own written, own_of_own written differs]
      rfl

theorem own_abort_self (session : Session) (slot : Slot Session Row) :
    (slot.abort session).own session = none := by
  cases written : slot.own session with
  | none => rwa [abort_of_none written]
  | some row =>
      rw [abort_of_own written]
      rfl

theorem own_abort_of_ne {session other : Session} (differs : session ≠ other)
    (slot : Slot Session Row) : (slot.abort session).own other = slot.own other := by
  cases written : slot.own session with
  | none => rw [abort_of_none written]
  | some row =>
      rw [abort_of_own written, own_of_own written differs]
      rfl

@[simp] theorem committed_abort (session : Session) (slot : Slot Session Row) :
    (slot.abort session).committed = slot.committed := by
  cases written : slot.own session with
  | none => rw [abort_of_none written]
  | some row => rw [abort_of_own written]

theorem committed_commit (session : Session) (slot : Slot Session Row) :
    (slot.commit session).committed = (slot.own session).or slot.committed := by
  cases written : slot.own session with
  | none => rw [commit_of_none written, Option.none_or]
  | some row => rw [commit_of_own written, Option.some_or]

theorem visible_of_none {session : Session} {slot : Slot Session Row}
    (unwritten : slot.own session = none) : slot.visible session = slot.committed := by
  rw [visible, unwritten, Option.none_or]

theorem visible_of_own {session : Session} {slot : Slot Session Row} {row : Row}
    (written : slot.own session = some row) : slot.visible session = some row := by
  rw [visible, written, Option.some_or]

theorem untouched_eq_some {session : Session} {slot : Slot Session Row} {row : Row} :
    slot.untouched session = some row ↔ slot.own session = none ∧ slot.committed = some row := by
  unfold untouched
  cases slot.own session <;> simp

theorem untouched_congr {session : Session} {slot other : Slot Session Row}
    (sameOwn : other.own session = slot.own session)
    (sameCommitted : other.committed = slot.committed) :
    other.untouched session = slot.untouched session := by
  rw [untouched, untouched, sameOwn, sameCommitted]

theorem untouched_write_of_ne {session other : Session} {slot : Slot Session Row}
    (unlocked : slot.Unlocked session) (differs : session ≠ other) (row : Row) :
    (slot.write session row).untouched other = slot.untouched other :=
  untouched_congr ((own_write_of_ne differs row slot).trans
    (own_of_unlocked unlocked differs).symm) rfl

theorem untouched_write_self (session : Session) (row : Row) (slot : Slot Session Row) :
    (slot.write session row).untouched session = none := by
  rw [untouched, own_write_self]

theorem untouched_inserted (session other : Session) (row : Row) :
    (inserted session row).untouched other = none := by
  unfold untouched
  cases (inserted session row).own other <;> rfl

theorem untouched_abort_of_ne {session other : Session} (differs : session ≠ other)
    (slot : Slot Session Row) : (slot.abort session).untouched other = slot.untouched other :=
  untouched_congr (own_abort_of_ne differs slot) (slot.committed_abort session)

/-! ### The work of a session and the steps of the others -/

theorem work_of_own {session : Session} {slot : Slot Session Row} {row : Row}
    (written : slot.own session = some row) : slot.work session = some (slot.committed, row) := by
  rw [work, written, Option.map_some]

theorem work_eq_none {session : Session} {slot : Slot Session Row} :
    slot.work session = none ↔ slot.own session = none :=
  Option.map_eq_none_iff

theorem work_congr {session : Session} {slot other : Slot Session Row}
    (sameOwn : other.own session = slot.own session)
    (sameCommitted : other.committed = slot.committed) :
    other.work session = slot.work session := by
  rw [work, work, sameOwn, sameCommitted]

theorem work_write_of_ne {session other : Session} {slot : Slot Session Row}
    (unlocked : slot.Unlocked session) (differs : session ≠ other) (row : Row) :
    (slot.write session row).work other = slot.work other := by
  rw [work_eq_none.mpr (own_write_of_ne differs row slot),
    work_eq_none.mpr (own_of_unlocked unlocked differs)]

theorem own_inserted_of_ne {session other : Session} (differs : session ≠ other) (row : Row) :
    (inserted session row).own other = none :=
  (own_of_pending rfl).trans (if_neg differs)

theorem work_abort_of_ne {session other : Session} (differs : session ≠ other)
    (slot : Slot Session Row) : (slot.abort session).work other = slot.work other :=
  work_congr (own_abort_of_ne differs slot) (slot.committed_abort session)

theorem work_commit_of_ne {session other : Session} (differs : session ≠ other)
    (slot : Slot Session Row) : (slot.commit session).work other = slot.work other := by
  cases written : slot.own session with
  | none => rw [commit_of_none written]
  | some row =>
      have unwritten := own_of_own written differs
      rw [work_eq_none.mpr unwritten,
        work_eq_none.mpr ((own_commit_of_ne differs slot).trans unwritten)]

end Slot

/-! ## The committed rows of a heap -/

theorem map_set_of_eq {A B : Type*} {look : A → B} {items : List A} {index : Nat}
    {item changed : A} (located : items[index]? = some item)
    (same : look changed = look item) : (items.set index changed).map look = items.map look := by
  have kept : (items.map look)[index]? = some (look item) := by
    rw [List.getElem?_map, located, Option.map_some]
  rw [List.map_set, same]
  obtain ⟨inside, value⟩ := List.getElem?_eq_some_iff.mp kept
  rw [← value]
  exact List.set_getElem_self inside

abbrev Heap (Session Row : Type*) := List (Slot Session Row)

omit [DecidableEq Session] in
def committedRows (heap : Heap Session Row) : Multiset Row :=
  (heap.filterMap Slot.committed : List Row)

variable {heap : Heap Session Row} {session : Session}

omit [DecidableEq Session] in
theorem mem_committedRows {row : Row} :
    row ∈ committedRows heap ↔ ∃ slot ∈ heap, slot.committed = some row :=
  Multiset.mem_coe.trans List.mem_filterMap

omit [DecidableEq Session] in
theorem committedRows_congr {other : Heap Session Row}
    (same : other.map Slot.committed = heap.map Slot.committed) :
    committedRows other = committedRows heap := by
  have viaMap : ∀ slots : Heap Session Row,
      slots.filterMap Slot.committed = (slots.map Slot.committed).filterMap id := by
    intro slots
    rw [List.filterMap_map]
    rfl
  rw [committedRows, committedRows, viaMap, viaMap, same]

omit [DecidableEq Session] in
theorem committedRows_write {index : Nat} {slot : Slot Session Row} (row : Row)
    (found : heap[index]? = some slot) :
    committedRows (heap.set index (slot.write session row)) = committedRows heap :=
  committedRows_congr (map_set_of_eq found rfl)

omit [DecidableEq Session] in
theorem committedRows_insert (row : Row) :
    committedRows (heap ++ [Slot.inserted session row]) = committedRows heap := by
  simp [committedRows, Slot.inserted]

theorem committedRows_abort :
    committedRows (heap.map (Slot.abort session)) = committedRows heap := by
  refine committedRows_congr ?_
  rw [List.map_map]
  exact List.map_congr_left fun slot _ => slot.committed_abort session

theorem works_commit_of_ne {other : Session} (differs : session ≠ other) :
    (heap.map (Slot.commit session)).map (Slot.work other) = heap.map (Slot.work other) := by
  rw [List.map_map]
  exact List.map_congr_left fun slot _ => Slot.work_commit_of_ne differs slot

theorem works_abort_of_ne {other : Session} (differs : session ≠ other) :
    (heap.map (Slot.abort session)).map (Slot.work other) = heap.map (Slot.work other) := by
  rw [List.map_map]
  exact List.map_congr_left fun slot _ => Slot.work_abort_of_ne differs slot

theorem works_commit_self :
    ∀ work ∈ (heap.map (Slot.commit session)).map (Slot.work session), work = none := by
  rw [List.map_map]
  refine List.forall_mem_map.mpr fun slot _ => ?_
  exact Slot.work_eq_none.mpr (Slot.own_commit_self session slot)

theorem works_abort_self :
    ∀ work ∈ (heap.map (Slot.abort session)).map (Slot.work session), work = none := by
  rw [List.map_map]
  refine List.forall_mem_map.mpr fun slot _ => ?_
  exact Slot.work_eq_none.mpr (Slot.own_abort_self session slot)

def insertedRow : Option Row × Row → Option Row
  | (none, row) => some row
  | (some _, _) => none

def insertedRows (works : List (Option (Option Row × Row))) : List Row :=
  works.filterMap fun work => work.bind insertedRow

omit [DecidableEq Session] in
@[simp] theorem insertedRows_cons (work : Option (Option Row × Row))
    (works : List (Option (Option Row × Row))) :
    insertedRows (work :: works) = (work.bind insertedRow).toList ++ insertedRows works := by
  rw [insertedRows, List.filterMap_cons]
  cases work.bind insertedRow <;> rfl

omit [DecidableEq Session] in
theorem insertedRows_append (left right : List (Option (Option Row × Row))) :
    insertedRows (left ++ right) = insertedRows left ++ insertedRows right :=
  List.filterMap_append

omit [DecidableEq Session] in
theorem insertedRows_set {works : List (Option (Option Row × Row))} {index : Nat}
    (located : works[index]? = some none) (old row : Row) :
    insertedRows (works.set index (some (some old, row))) = insertedRows works := by
  have viaMap : ∀ all : List (Option (Option Row × Row)),
      insertedRows all = (all.map fun work => work.bind insertedRow).filterMap id := by
    intro all
    rw [List.filterMap_map]
    rfl
  rw [viaMap, viaMap, map_set_of_eq located]
  rfl

/-- A commit makes an edit of each committed row and adds the rows that the session
has inserted. -/
theorem committedRows_commit (edit : Row → Row)
    (edited : ∀ slot ∈ heap, ∀ old, slot.committed = some old →
      (slot.commit session).committed = some (edit old)) :
    committedRows (heap.map (Slot.commit session)) =
      (committedRows heap).map edit +
        (insertedRows (heap.map (Slot.work session)) : Multiset Row) := by
  induction heap with
  | nil => rfl
  | cons slot rest ih =>
      have ih := ih fun other member => edited other (List.mem_cons_of_mem _ member)
      unfold committedRows at ih ⊢
      rw [List.map_cons, List.map_cons, insertedRows_cons]
      cases before : slot.committed with
      | none =>
          have after : (slot.commit session).committed =
              (slot.work session).bind insertedRow := by
            rw [Slot.committed_commit, Slot.work, before, Option.or_none]
            cases slot.own session <;> rfl
          rw [List.filterMap_cons_none before]
          cases isFresh : (slot.work session).bind insertedRow with
          | none =>
              rw [List.filterMap_cons_none (after.trans isFresh)]
              exact ih
          | some row =>
              rw [List.filterMap_cons_some (after.trans isFresh), ← Multiset.cons_coe, ih]
              exact (Multiset.add_cons _ _ _).symm
      | some old =>
          have after := edited slot List.mem_cons_self old before
          have notFresh : (slot.work session).bind insertedRow = none := by
            rw [Slot.work, before]
            cases slot.own session <;> rfl
          rw [List.filterMap_cons_some after, List.filterMap_cons_some before, notFresh,
            ← Multiset.cons_coe, ← Multiset.cons_coe, ih, Multiset.map_cons, Multiset.cons_add]
          rfl

omit [DecidableEq Session] in
theorem pair_le_filterMap {look : Slot Session Row → Option Row} {slot other : Slot Session Row}
    (member : slot ∈ heap) (otherMember : other ∈ heap) (differs : slot ≠ other) {row next : Row}
    (isRow : look slot = some row) (isNext : look other = some next) :
    ({row, next} : Multiset Row) ≤ (heap.filterMap look : List Row) := by
  have slots : ({slot, other} : Multiset (Slot Session Row)) ≤ (heap : Multiset _) := by
    refine (Multiset.le_iff_subset (by simp [differs])).mpr ?_
    intro some isOne
    rcases Multiset.mem_cons.mp isOne with rfl | isOther
    · exact member
    · rw [Multiset.mem_singleton.mp isOther]
      exact otherMember
  have rows := Multiset.filterMap_le_filterMap look slots
  rw [Multiset.filterMap_coe] at rows
  have images : Multiset.filterMap look {slot, other} = {row, next} := by
    rw [Multiset.insert_eq_cons, Multiset.filterMap_cons_some look slot _ isRow,
      ← Multiset.cons_zero other, Multiset.filterMap_cons_some look other _ isNext]
    rfl
  rwa [images] at rows

/-! ## Unique keys -/

/-- The rows that are left when exactly these open transactions commit. -/
def outcome (ends : Session → Bool) (heap : Heap Session Row) : Multiset Row :=
  (heap.filterMap (Slot.version ends) : List Row)

omit [DecidableEq Session] in
theorem outcome_append (ends : Session → Bool) (left right : Heap Session Row) :
    outcome ends (left ++ right) = outcome ends left + outcome ends right := by
  simp [outcome]

omit [DecidableEq Session] in
theorem outcome_none (heap : Heap Session Row) :
    outcome (fun _ => false) heap = committedRows heap := by
  refine congrArg _ (List.filterMap_congr fun slot _ => ?_)
  cases written : slot.pending with
  | none => exact Slot.version_of_quiet written
  | some version => exact (Slot.version_of_pending written).trans (if_neg Bool.false_ne_true)

omit [DecidableEq Session] in
theorem outcome_of_quiet (quiet : ∀ slot ∈ heap, slot.pending = none) (ends : Session → Bool) :
    outcome ends heap = committedRows heap := by
  refine congrArg _ (List.filterMap_congr fun slot member => ?_)
  exact Slot.version_of_quiet (quiet slot member)

omit [DecidableEq Session] in
theorem outcome_map {change : Slot Session Row → Slot Session Row} {ends after : Session → Bool}
    (changes : ∀ slot : Slot Session Row, (change slot).version after = slot.version ends) :
    outcome after (heap.map change) = outcome ends heap := by
  rw [outcome, List.filterMap_map]
  exact congrArg _ (List.filterMap_congr fun slot _ => changes slot)

theorem version_commit (ends : Session → Bool) (slot : Slot Session Row) :
    (slot.commit session).version ends = slot.version (Function.update ends session true) := by
  obtain ⟨committed, pending⟩ := slot
  cases pending with
  | none => rfl
  | some version =>
      by_cases isOwner : version.1 = session
      · simp [Slot.commit, Slot.own, Slot.version, isOwner]
      · simp [Slot.commit, Slot.own, Slot.version, isOwner]

theorem version_abort (ends : Session → Bool) (slot : Slot Session Row) :
    (slot.abort session).version ends = slot.version (Function.update ends session false) := by
  obtain ⟨committed, pending⟩ := slot
  cases pending with
  | none => rfl
  | some version =>
      by_cases isOwner : version.1 = session
      · simp [Slot.abort, Slot.own, Slot.version, isOwner]
      · simp [Slot.abort, Slot.own, Slot.version, isOwner]

omit [DecidableEq Session] in
theorem Slot.version_write {ends : Session → Bool} {slot : Slot Session Row} {row : Row}
    (unlocked : slot.Unlocked session) :
    (slot.write session row).version ends =
      if ends session = true then some row else slot.version ends := by
  have written : (slot.write session row).pending = some (session, row) := rfl
  rw [version_of_pending written, committed_write]
  refine ite_congr rfl (fun _ => rfl) fun undone => ?_
  cases before : slot.pending with
  | none => exact (version_of_quiet before).symm
  | some version =>
      have owner : version.1 = session := unlocked version before
      rw [version_of_pending before, if_neg (owner ▸ undone)]

theorem mem_respected_of_version {ends : Session → Bool} {slot : Slot Session Row} {row : Row}
    (committing : ends session = true) (left : slot.version ends = some row) :
    row ∈ slot.respected session := by
  cases written : slot.pending with
  | none =>
      rw [Slot.version_of_quiet written] at left
      rw [Slot.respected_of_quiet written]
      simpa using left
  | some version =>
      obtain ⟨owner, changed⟩ := version
      rw [Slot.version_of_pending written] at left
      rw [Slot.respected_of_pending written]
      by_cases isOwner : owner = session
      · subst isOwner
        simpa [committing, eq_comm] using left
      · by_cases commits : ends owner = true
        · simp_all
        · simp_all

variable {Key : Type*} {key : Row → Key}

/-- However the open transactions end, no two rows will have one key. -/
def KeysUnique (key : Row → Key) (heap : Heap Session Row) : Prop :=
  ∀ ends, ((outcome ends heap).map key).Nodup

omit [DecidableEq Session] in
theorem KeysUnique.committed (unique : KeysUnique key heap) :
    ((committedRows heap).map key).Nodup := by
  have none := unique fun _ => false
  rwa [outcome_none] at none

omit [DecidableEq Session] in
theorem keysUnique_of_quiet (quiet : ∀ slot ∈ heap, slot.pending = none)
    (unique : ((committedRows heap).map key).Nodup) : KeysUnique key heap := by
  intro ends
  rwa [outcome_of_quiet quiet]

theorem KeysUnique.commit (unique : KeysUnique key heap) :
    KeysUnique key (heap.map (Slot.commit session)) := by
  intro ends
  rw [outcome_map (version_commit ends)]
  exact unique _

theorem KeysUnique.abort (unique : KeysUnique key heap) :
    KeysUnique key (heap.map (Slot.abort session)) := by
  intro ends
  rw [outcome_map (version_abort ends)]
  exact unique _

/-- A version whose key no other slot claims can be put between the others. -/
theorem nodup_outcome_of_free {left right : Heap Session Row} (slot : Slot Session Row) {row : Row}
    (free : ∀ other ∈ left ++ right, ∀ claimed ∈ other.respected session, key claimed ≠ key row)
    {ends : Session → Bool} (others : ((outcome ends (left ++ right)).map key).Nodup)
    (skipped : ends session = false → ((outcome ends (left ++ slot :: right)).map key).Nodup)
    (unlocked : slot.Unlocked session) :
    ((outcome ends (left ++ slot.write session row :: right)).map key).Nodup := by
  cases committing : ends session with
  | false =>
      have same : (slot.write session row).version ends = slot.version ends := by
        rw [Slot.version_write unlocked, if_neg (by rw [committing]; exact Bool.false_ne_true)]
      have whole := skipped committing
      rw [outcome, List.filterMap_append, List.filterMap_cons] at whole ⊢
      rwa [same]
  | true =>
      have isRow : (slot.write session row).version ends = some row := by
        rw [Slot.version_write unlocked, if_pos committing]
      have split : outcome ends (left ++ slot.write session row :: right) =
          row ::ₘ outcome ends (left ++ right) := by
        rw [outcome, outcome, List.filterMap_append, List.filterMap_cons_some isRow,
          List.filterMap_append]
        exact Multiset.coe_eq_coe.mpr List.perm_middle
      rw [split, Multiset.map_cons, Multiset.nodup_cons]
      refine ⟨?_, others⟩
      intro taken
      obtain ⟨claimed, left, same⟩ := Multiset.mem_map.mp taken
      obtain ⟨other, member, isLeft⟩ := List.mem_filterMap.mp (Multiset.mem_coe.mp left)
      exact free other member claimed (mem_respected_of_version committing isLeft) same

theorem KeysUnique.write (unique : KeysUnique key heap) {index : Nat} {slot : Slot Session Row}
    {row : Row} (located : heap[index]? = some slot) (unlocked : slot.Unlocked session)
    (free : ∀ other ∈ heap.eraseIdx index, ∀ claimed ∈ other.respected session,
      key claimed ≠ key row) :
    KeysUnique key (heap.set index (slot.write session row)) := by
  obtain ⟨inside, isSlot⟩ := List.getElem?_eq_some_iff.mp located
  have parts : heap = heap.take index ++ slot :: heap.drop (index + 1) := by
    rw [← isSlot, ← List.drop_eq_getElem_cons inside, List.take_append_drop]
  rw [List.eraseIdx_eq_take_drop_succ] at free
  rw [List.set_eq_take_append_cons_drop, if_pos inside]
  intro ends
  have whole := unique ends
  rw [parts] at whole
  refine nodup_outcome_of_free slot free ?_ (fun _ => whole) unlocked
  have fewer : outcome ends (heap.take index ++ heap.drop (index + 1)) ≤
      outcome ends (heap.take index ++ slot :: heap.drop (index + 1)) :=
    Multiset.coe_le.mpr
      (((List.sublist_cons_self _ _).append_left _).filterMap (Slot.version ends)).subperm
  exact Multiset.nodup_of_le (Multiset.map_le_map fewer) whole

theorem KeysUnique.insert (unique : KeysUnique key heap) {row : Row}
    (free : ∀ other ∈ heap, ∀ claimed ∈ other.respected session, key claimed ≠ key row) :
    KeysUnique key (heap ++ [Slot.inserted session row]) := by
  intro ends
  have blank : outcome ends (heap ++ [⟨none, none⟩]) = outcome ends heap := by
    rw [outcome_append]
    exact Multiset.add_zero _
  refine nodup_outcome_of_free ⟨none, none⟩ ?_ ?_ ?_ ?_
  · rwa [List.append_nil]
  · rw [List.append_nil]
    exact unique ends
  · intro _
    rw [blank]
    exact unique ends
  · intro version member
    cases member

end
end Versions
