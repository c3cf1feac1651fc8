import ApostolRates.Library.Versions

/-!
# How open transactions may end

What is left of a table depends on which of its open transactions will commit.  A write
changes what is left of the endings in which the writer commits and of no others; an end
of a transaction leaves the endings that agree with it.  Where every version that is
written descends from the version that it replaces, whatever is left descends from what
was committed.
-/

set_option autoImplicit false

namespace Versions

section
variable {Session Row : Type*} {heap : Heap Session Row} {slot : Slot Session Row}
variable {ends : Session → Bool} {session : Session} {index : Nat} {old row next : Row}

theorem mem_outcome :
    row ∈ outcome ends heap ↔ ∃ slot ∈ heap, slot.version ends = some row :=
  Multiset.mem_coe.trans List.mem_filterMap

/-! ## Inserts -/

theorem mem_outcome_insert :
    next ∈ outcome ends (heap ++ [Slot.inserted session row]) ↔
      next ∈ outcome ends heap ∨ ends session = true ∧ next = row := by
  rw [outcome_append, Multiset.mem_add]
  refine or_congr Iff.rfl ?_
  have version : (Slot.inserted session row).version ends =
      if ends session = true then some row else none := rfl
  rw [mem_outcome]
  constructor
  · rintro ⟨slot, member, left⟩
    rw [List.mem_singleton.mp member, version, Option.ite_none_right_eq_some] at left
    exact ⟨left.1, (Option.some.inj left.2).symm⟩
  · rintro ⟨committing, rfl⟩
    exact ⟨_, List.mem_singleton_self _, by rw [version, if_pos committing]⟩

/-! ## Writes -/

/-- What is left after a write was there before or is the row. -/
theorem mem_outcome_write (located : heap[index]? = some slot) (unlocked : slot.Unlocked session)
    (left : next ∈ outcome ends (heap.set index (slot.write session row))) :
    next ∈ outcome ends heap ∨ ends session = true ∧ next = row := by
  obtain ⟨changed, member, isLeft⟩ := mem_outcome.mp left
  rcases List.mem_or_eq_of_mem_set member with member | rfl
  · exact .inl (mem_outcome.mpr ⟨changed, member, isLeft⟩)
  · rw [Slot.version_write unlocked] at isLeft
    split at isLeft
    · rename_i committing
      exact .inr ⟨committing, (Option.some.inj isLeft).symm⟩
    · exact .inl (mem_outcome.mpr ⟨slot, List.mem_of_getElem? located, isLeft⟩)

theorem mem_outcome_written (located : heap[index]? = some slot) (committing : ends session = true)
    (unlocked : slot.Unlocked session) :
    row ∈ outcome ends (heap.set index (slot.write session row)) := by
  refine mem_outcome.mpr ⟨_, List.mem_set (List.getElem?_eq_some_iff.mp located).1 _, ?_⟩
  rw [Slot.version_write unlocked, if_pos committing]

variable [DecidableEq Session]

theorem Slot.version_of_visible (unlocked : slot.Unlocked session)
    (committing : ends session = true) : slot.version ends = slot.visible session := by
  cases written : slot.pending with
  | none =>
      rw [Slot.version_of_quiet written, Slot.visible_of_none (Slot.own_of_quiet written)]
  | some version =>
      have owner : version.1 = session := unlocked version written
      rw [Slot.version_of_pending written, if_pos (owner ▸ committing)]
      exact (Slot.visible_of_own ((Slot.own_of_pending written).trans (if_pos owner))).symm

/-- What a session sees is what is left if it alone commits. -/
theorem Slot.version_alone :
    slot.version (fun other => decide (other = session)) = slot.visible session := by
  cases written : slot.pending with
  | none =>
      rw [Slot.version_of_quiet written, Slot.visible_of_none (Slot.own_of_quiet written)]
  | some version =>
      have own : slot.own session = if version.1 = session then some version.2 else none :=
        Slot.own_of_pending written
      by_cases owner : version.1 = session
      · rw [Slot.version_of_pending written, if_pos (decide_eq_true owner)]
        exact (Slot.visible_of_own (own.trans (if_pos owner))).symm
      · rw [Slot.version_of_pending written, if_neg (by simpa using owner)]
        exact (Slot.visible_of_none (own.trans (if_neg owner))).symm

theorem mem_outcome_of_write (located : heap[index]? = some slot)
    (unlocked : slot.Unlocked session) (seen : slot.visible session = some old)
    (left : next ∈ outcome ends heap) :
    next ∈ outcome ends (heap.set index (slot.write session row)) ∨
      ends session = true ∧ next = old := by
  obtain ⟨other, member, isLeft⟩ := mem_outcome.mp left
  obtain ⟨place, isOther⟩ := List.mem_iff_getElem?.mp member
  by_cases here : index = place
  · subst here
    rw [located] at isOther
    cases isOther
    cases committing : ends session with
    | true =>
        rw [Slot.version_of_visible unlocked committing, seen] at isLeft
        exact .inr ⟨rfl, (Option.some.inj isLeft).symm⟩
    | false =>
        refine .inl (mem_outcome.mpr ⟨_, List.mem_set
          (List.getElem?_eq_some_iff.mp located).1 _, ?_⟩)
        rw [Slot.version_write unlocked, if_neg (by simp [committing])]
        exact isLeft
  · refine .inl (mem_outcome.mpr ⟨other, ?_, isLeft⟩)
    rw [← List.getElem?_set_ne here (a := slot.write session row)] at isOther
    exact List.mem_of_getElem? isOther

/-! ## Ends -/

theorem outcome_commit :
    outcome ends (heap.map (Slot.commit session)) =
      outcome (Function.update ends session true) heap :=
  outcome_map (version_commit ends)

theorem outcome_abort :
    outcome ends (heap.map (Slot.abort session)) =
      outcome (Function.update ends session false) heap :=
  outcome_map (version_abort ends)

end

/-! ## Descent -/

section
variable {Session Row : Type*} {heap : Heap Session Row} {slot : Slot Session Row}
variable {ends : Session → Bool} {session : Session} {index : Nat} {old row : Row}
variable {Follows : Row → Row → Prop}

/-- A version that an open transaction has written descends from the one that it replaces. -/
def Slot.Descends (Follows : Row → Row → Prop) (slot : Slot Session Row) : Prop :=
  ∀ old, slot.committed = some old → ∀ version ∈ slot.pending, Follows old version.2

def Descends (Follows : Row → Row → Prop) (heap : Heap Session Row) : Prop :=
  ∀ slot ∈ heap, slot.Descends Follows

theorem descends_of_quiet (quiet : ∀ slot ∈ heap, slot.pending = none) :
    Descends Follows heap := by
  intro slot member old _ version written
  rw [quiet slot member] at written
  cases written

theorem Descends.insert (descends : Descends Follows heap) :
    Descends Follows (heap ++ [Slot.inserted session row]) := by
  intro slot member
  rcases List.mem_append.mp member with member | isNew
  · exact descends slot member
  · rw [List.mem_singleton.mp isNew]
    intro old committed
    cases committed

theorem Slot.Descends.version (descends : slot.Descends Follows)
    (reflexive : ∀ row, Follows row row) (committed : slot.committed = some old) :
    ∃ row, slot.version ends = some row ∧ Follows old row := by
  cases written : slot.pending with
  | none => exact ⟨old, (Slot.version_of_quiet written).trans committed, reflexive old⟩
  | some version =>
      have left : slot.version ends = if ends version.1 = true then some version.2 else some old :=
        committed ▸ Slot.version_of_pending written
      by_cases commits : ends version.1 = true
      · exact ⟨version.2, left.trans (if_pos commits), descends old committed version written⟩
      · exact ⟨old, left.trans (if_neg commits), reflexive old⟩

theorem Descends.rel_outcome (descends : Descends Follows heap)
    (reflexive : ∀ row, Follows row row) (ends : Session → Bool) :
    ∃ kept added, outcome ends heap = kept + added ∧
      Multiset.Rel Follows (committedRows heap) kept := by
  induction heap with
  | nil => exact ⟨0, 0, rfl, Multiset.Rel.zero⟩
  | cons slot rest ih =>
      obtain ⟨kept, added, split, related⟩ :=
        ih fun other member => descends other (List.mem_cons_of_mem _ member)
      unfold outcome at split ⊢
      unfold committedRows at related ⊢
      cases committed : slot.committed with
      | some old =>
          obtain ⟨row, left, follows⟩ :=
            (descends slot List.mem_cons_self).version reflexive committed
          refine ⟨row ::ₘ kept, added, ?_, ?_⟩
          · rw [List.filterMap_cons_some left, ← Multiset.cons_coe, split, Multiset.cons_add]
          · rw [List.filterMap_cons_some committed, ← Multiset.cons_coe]
            exact Multiset.Rel.cons follows related
      | none =>
          rw [List.filterMap_cons_none committed]
          cases left : slot.version ends with
          | none =>
              rw [List.filterMap_cons_none left]
              exact ⟨kept, added, split, related⟩
          | some row =>
              refine ⟨kept, row ::ₘ added, ?_, related⟩
              rw [List.filterMap_cons_some left, ← Multiset.cons_coe, split, Multiset.add_cons]

variable [DecidableEq Session]

theorem Descends.write (descends : Descends Follows heap)
    (transitive : ∀ first second third, Follows first second → Follows second third →
      Follows first third)
    (located : heap[index]? = some slot) (unlocked : slot.Unlocked session)
    (seen : slot.visible session = some old) (follows : Follows old row) :
    Descends Follows (heap.set index (slot.write session row)) := by
  intro changed member
  rcases List.mem_or_eq_of_mem_set member with member | rfl
  · exact descends changed member
  · rintro before committed version isVersion
    cases isVersion
    have committed : slot.committed = some before := committed
    cases written : slot.pending with
    | none =>
        have same : slot.visible session = some before :=
          (Slot.visible_of_none (Slot.own_of_quiet written)).trans committed
        rw [seen] at same
        cases same
        exact follows
    | some version =>
        have owner : version.1 = session := unlocked version written
        have isSeen : slot.visible session = some version.2 :=
          Slot.visible_of_own ((Slot.own_of_pending written).trans (if_pos owner))
        rw [seen] at isSeen
        cases isSeen
        exact transitive _ _ _
          (descends slot (List.mem_of_getElem? located) before committed version written) follows

theorem Descends.commit (descends : Descends Follows heap) :
    Descends Follows (heap.map (Slot.commit session)) := by
  refine List.forall_mem_map.mpr fun slot member => ?_
  cases written : slot.own session with
  | none =>
      rw [Slot.commit_of_none written]
      exact descends slot member
  | some row =>
      rw [Slot.commit_of_own written]
      exact fun _ _ _ isVersion => nomatch isVersion

theorem Descends.abort (descends : Descends Follows heap) :
    Descends Follows (heap.map (Slot.abort session)) := by
  refine List.forall_mem_map.mpr fun slot member => ?_
  cases written : slot.own session with
  | none =>
      rw [Slot.abort_of_none written]
      exact descends slot member
  | some row =>
      rw [Slot.abort_of_own written]
      exact fun _ _ _ isVersion => nomatch isVersion

end
end Versions
