import ApostolRates.Library.Versions
import Mathlib.Data.List.Pairwise

/-!
# Slots with marks

A mark is what all versions of a row have in common.  Steps that change a row and keep
its mark keep every mark at its slot, and where each slot has a mark of its own a
version is never a duplicate of a version in another slot.
-/

set_option autoImplicit false

namespace Versions

section
variable {Session Row Mark : Type*}

/-- The committed version and the one that an open transaction has written. -/
def Slot.versions (slot : Slot Session Row) : List Row :=
  slot.committed.toList ++ (slot.pending.map Prod.snd).toList

theorem Slot.mem_versions {slot : Slot Session Row} {row : Row} :
    row ∈ slot.versions ↔
      slot.committed = some row ∨ ∃ owner, slot.pending = some (owner, row) := by
  refine List.mem_append.trans (or_congr Option.mem_toList (Option.mem_toList.trans ?_))
  refine Option.map_eq_some_iff.trans ⟨?_, ?_⟩
  · rintro ⟨⟨owner, version⟩, written, rfl⟩
    exact ⟨owner, written⟩
  · rintro ⟨owner, written⟩
    exact ⟨(owner, row), written, rfl⟩

/-- A version with the mark is at this place. -/
def Stands (mark : Row → Mark) (heap : Heap Session Row) (index : Nat) (found : Mark) : Prop :=
  ∃ slot, heap[index]? = some slot ∧ ∃ version ∈ slot.versions, mark version = found

def Written (mark : Row → Mark) (heap : Heap Session Row) (index : Nat) (session : Session)
    (found : Mark) : Prop :=
  ∃ slot row, heap[index]? = some slot ∧ slot.pending = some (session, row) ∧ mark row = found

variable {mark : Row → Mark} {heap : Heap Session Row} {index : Nat} {found : Mark}

theorem Written.stands {session : Session} (written : Written mark heap index session found) :
    Stands mark heap index found := by
  obtain ⟨slot, row, located, pending, isMark⟩ := written
  exact ⟨slot, located, row, Slot.mem_versions.mpr (.inr ⟨session, pending⟩), isMark⟩

/-! ## Steps -/

theorem stands_map {change : Slot Session Row → Slot Session Row}
    (fewer : ∀ slot, ∀ row ∈ (change slot).versions, row ∈ slot.versions)
    (stands : Stands mark (heap.map change) index found) : Stands mark heap index found := by
  obtain ⟨changed, located, row, member, isMark⟩ := stands
  rw [List.getElem?_map] at located
  obtain ⟨slot, isSlot, rfl⟩ := Option.map_eq_some_iff.mp located
  exact ⟨slot, isSlot, row, fewer slot row member, isMark⟩

theorem written_map {change : Slot Session Row → Slot Session Row} {session : Session}
    (fewer : ∀ slot, ∀ version ∈ (change slot).pending, version ∈ slot.pending)
    (written : Written mark (heap.map change) index session found) :
    Written mark heap index session found := by
  obtain ⟨changed, row, located, pending, isMark⟩ := written
  rw [List.getElem?_map] at located
  obtain ⟨slot, isSlot, rfl⟩ := Option.map_eq_some_iff.mp located
  exact ⟨slot, row, isSlot, fewer slot _ pending, isMark⟩

theorem located_concat {A : Type*} {items : List A} {item value : A} {place : Nat}
    (located : (items ++ [item])[place]? = some value) :
    items[place]? = some value ∨ place = items.length ∧ value = item := by
  rcases lt_trichotomy place items.length with less | rfl | more
  · rw [List.getElem?_append_left less] at located
    exact .inl located
  · rw [List.getElem?_concat_length] at located
    exact .inr ⟨rfl, (Option.some.inj located).symm⟩
  · have inside := (List.getElem?_eq_some_iff.mp located).1
    rw [List.length_append, List.length_singleton] at inside
    omega

theorem stands_insert {session : Session} {row : Row}
    (stands : Stands mark (heap ++ [Slot.inserted session row]) index found) :
    Stands mark heap index found ∨ index = heap.length ∧ found = mark row := by
  obtain ⟨slot, located, version, member, isMark⟩ := stands
  rcases located_concat located with located | ⟨rfl, rfl⟩
  · exact .inl ⟨slot, located, version, member, isMark⟩
  · rcases Slot.mem_versions.mp member with committed | ⟨owner, pending⟩
    · cases committed
    · cases pending
      exact .inr ⟨rfl, isMark.symm⟩

theorem written_insert {session other : Session} {row : Row}
    (written : Written mark (heap ++ [Slot.inserted session row]) index other found) :
    Written mark heap index other found ∨
      index = heap.length ∧ other = session ∧ found = mark row := by
  obtain ⟨slot, version, located, pending, isMark⟩ := written
  rcases located_concat located with located | ⟨rfl, rfl⟩
  · exact .inl ⟨slot, version, located, pending, isMark⟩
  · cases pending
    exact .inr ⟨rfl, rfl, isMark.symm⟩

theorem stands_write {session : Session} {slot : Slot Session Row} {place : Nat} {old row : Row}
    (located : heap[place]? = some slot) (isOld : old ∈ slot.versions)
    (same : mark row = mark old)
    (stands : Stands mark (heap.set place (slot.write session row)) index found) :
    Stands mark heap index found := by
  obtain ⟨changed, isChanged, version, member, isMark⟩ := stands
  by_cases here : place = index
  · subst here
    rw [List.getElem?_set_self (List.getElem?_eq_some_iff.mp located).1] at isChanged
    cases isChanged
    rcases Slot.mem_versions.mp member with committed | ⟨owner, pending⟩
    · exact ⟨slot, located, version, Slot.mem_versions.mpr (.inl committed), isMark⟩
    · cases pending
      exact ⟨slot, located, old, isOld, same.symm.trans isMark⟩
  · rw [List.getElem?_set_ne here] at isChanged
    exact ⟨changed, isChanged, version, member, isMark⟩

theorem written_write {session other : Session} {slot : Slot Session Row} {place : Nat} {row : Row}
    (located : heap[place]? = some slot)
    (written : Written mark (heap.set place (slot.write session row)) index other found) :
    Written mark heap index other found ∨ index = place ∧ other = session ∧ found = mark row := by
  obtain ⟨changed, version, isChanged, pending, isMark⟩ := written
  by_cases here : place = index
  · subst here
    rw [List.getElem?_set_self (List.getElem?_eq_some_iff.mp located).1] at isChanged
    cases isChanged
    cases pending
    exact .inr ⟨rfl, rfl, isMark.symm⟩
  · rw [List.getElem?_set_ne here] at isChanged
    exact .inl ⟨changed, version, isChanged, pending, isMark⟩

/-! ## A mark for each slot -/

/-- The versions of a slot have one mark, and no other slot has it. -/
def Marked (mark : Row → Mark) (heap : Heap Session Row) : Prop :=
  ∀ index other first second, Stands mark heap index first → Stands mark heap other second →
    (first = second ↔ index = other)

variable {after : Heap Session Row}

theorem Marked.of_stands (marked : Marked mark heap)
    (same : ∀ index found, Stands mark after index found → Stands mark heap index found) :
    Marked mark after := fun index other first second isFirst isSecond =>
  marked index other first second (same index first isFirst) (same other second isSecond)

theorem Marked.insert (marked : Marked mark heap) {session : Session} {row : Row}
    (isNew : ∀ index, ¬ Stands mark heap index (mark row)) :
    Marked mark (heap ++ [Slot.inserted session row]) := by
  intro index other first second isFirst isSecond
  have inside : ∀ {place found}, Stands mark heap place found → place < heap.length := by
    rintro place found ⟨slot, located, _⟩
    exact (List.getElem?_eq_some_iff.mp located).1
  rcases stands_insert isFirst with isFirst | ⟨rfl, rfl⟩
  · rcases stands_insert isSecond with isSecond | ⟨rfl, rfl⟩
    · exact marked index other first second isFirst isSecond
    · exact iff_of_false (fun same => isNew index (same ▸ isFirst)) (inside isFirst).ne
  · rcases stands_insert isSecond with isSecond | ⟨rfl, rfl⟩
    · exact iff_of_false (fun same => isNew other (same ▸ isSecond)) (inside isSecond).ne'
    · exact iff_of_true rfl rfl

theorem marked_of_quiet (quiet : ∀ slot ∈ heap, slot.pending = none)
    (distinct : ((committedRows heap).map mark).Nodup) : Marked mark heap := by
  have apart : heap.Pairwise fun slot next => ∀ row, slot.committed = some row →
      ∀ other, next.committed = some other → mark row ≠ mark other := by
    rw [committedRows, Multiset.map_coe, Multiset.coe_nodup, List.nodup_iff_pairwise_ne,
      List.pairwise_map, List.pairwise_filterMap] at distinct
    exact distinct
  have committed : ∀ {index found}, Stands mark heap index found →
      ∃ inside : index < heap.length, ∃ row, heap[index].committed = some row ∧
        mark row = found := by
    rintro index found ⟨slot, located, row, member, isMark⟩
    obtain ⟨inside, rfl⟩ := List.getElem?_eq_some_iff.mp located
    rcases Slot.mem_versions.mp member with committed | ⟨owner, pending⟩
    · exact ⟨inside, row, committed, isMark⟩
    · rw [quiet _ (List.getElem_mem inside)] at pending
      cases pending
  rw [List.pairwise_iff_getElem] at apart
  intro index other first second isFirst isSecond
  obtain ⟨inside, row, isRow, rfl⟩ := committed isFirst
  obtain ⟨otherInside, next, isNext, rfl⟩ := committed isSecond
  constructor
  · intro same
    rcases lt_trichotomy index other with less | equal | more
    · exact absurd same (apart index other inside otherInside less row isRow next isNext)
    · exact equal
    · exact absurd same.symm (apart other index otherInside inside more next isNext row isRow)
  · rintro rfl
    rw [isRow] at isNext
    cases isNext
    rfl

end

/-! ## What a session sees and respects -/

section
variable {Session Row Mark : Type*} [DecidableEq Session] {mark : Row → Mark}
variable {heap : Heap Session Row} {session : Session} {slot : Slot Session Row} {row : Row}

theorem Slot.mem_versions_of_visible (seen : slot.visible session = some row) :
    row ∈ slot.versions := by
  rcases Option.or_eq_some_iff.mp seen with own | ⟨_, committed⟩
  · obtain ⟨⟨owner, version⟩, pending, isOwn⟩ := Option.bind_eq_some_iff.mp own
    dsimp only at isOwn
    split at isOwn
    · cases isOwn
      exact Slot.mem_versions.mpr (.inr ⟨owner, pending⟩)
    · cases isOwn
  · exact Slot.mem_versions.mpr (.inl committed)

theorem Slot.mem_versions_of_respected (respected : row ∈ slot.respected session) :
    row ∈ slot.versions := by
  cases written : slot.pending with
  | none =>
      rw [Slot.respected_of_quiet written] at respected
      exact Slot.mem_versions.mpr (.inl (Option.mem_toList.mp respected))
  | some version =>
      obtain ⟨owner, pending⟩ := version
      rw [Slot.respected_of_pending written] at respected
      split at respected
      · cases List.mem_singleton.mp respected
        exact Slot.mem_versions.mpr (.inr ⟨owner, written⟩)
      · rcases List.mem_cons.mp respected with rfl | committed
        · exact Slot.mem_versions.mpr (.inr ⟨owner, written⟩)
        · exact Slot.mem_versions.mpr (.inl (Option.mem_toList.mp committed))

theorem Slot.mem_versions_of_commit (member : row ∈ (slot.commit session).versions) :
    row ∈ slot.versions := by
  cases written : slot.own session with
  | none => rwa [Slot.commit_of_none written] at member
  | some own =>
      rw [Slot.commit_of_own written] at member
      rcases Slot.mem_versions.mp member with committed | ⟨owner, pending⟩
      · cases committed
        exact Slot.mem_versions_of_visible (Slot.visible_of_own written)
      · cases pending

theorem Slot.mem_versions_of_abort (member : row ∈ (slot.abort session).versions) :
    row ∈ slot.versions := by
  cases written : slot.own session with
  | none => rwa [Slot.abort_of_none written] at member
  | some own =>
      rw [Slot.abort_of_own written] at member
      rcases Slot.mem_versions.mp member with committed | ⟨owner, pending⟩
      · exact Slot.mem_versions.mpr (.inl committed)
      · cases pending

theorem Slot.mem_pending_of_commit {version : Session × Row}
    (member : version ∈ (slot.commit session).pending) : version ∈ slot.pending := by
  cases written : slot.own session with
  | none => rwa [Slot.commit_of_none written] at member
  | some own =>
      rw [Slot.commit_of_own written] at member
      cases member

theorem Slot.mem_pending_of_abort {version : Session × Row}
    (member : version ∈ (slot.abort session).pending) : version ∈ slot.pending := by
  cases written : slot.own session with
  | none => rwa [Slot.abort_of_none written] at member
  | some own =>
      rw [Slot.abort_of_own written] at member
      cases member

theorem not_written_of_own {index : Nat} {found : Mark}
    (unwritten : ∀ slot ∈ heap, slot.own session = none) :
    ¬ Written mark heap index session found := by
  rintro ⟨slot, row, located, pending, _⟩
  have own := unwritten slot (List.mem_of_getElem? located)
  rw [Slot.own_of_pending pending, if_pos rfl] at own
  cases own

/-- A version of a mark that stands at one place only meets no other to respect. -/
theorem Marked.respected_ne (marked : Marked mark heap) {index : Nat} {found : Mark}
    (stands : Stands mark heap index found) :
    ∀ other ∈ heap.eraseIdx index, ∀ claimed ∈ other.respected session, mark claimed ≠ found := by
  intro other member claimed respected same
  obtain ⟨place, differs, located⟩ := List.mem_eraseIdx_iff_getElem?.mp member
  have there : Stands mark heap place (mark claimed) :=
    ⟨other, located, claimed, Slot.mem_versions_of_respected respected, rfl⟩
  exact differs ((marked place index _ _ there stands).mp same)

theorem respected_ne {found : Mark} (isNew : ∀ index, ¬ Stands mark heap index found) :
    ∀ other ∈ heap, ∀ claimed ∈ other.respected session, mark claimed ≠ found := by
  intro other member claimed respected same
  obtain ⟨index, inside, isSlot⟩ := List.mem_iff_getElem.mp member
  exact isNew index ⟨other, List.getElem?_eq_some_iff.mpr ⟨inside, isSlot⟩, claimed,
    Slot.mem_versions_of_respected respected, same⟩

end
end Versions
