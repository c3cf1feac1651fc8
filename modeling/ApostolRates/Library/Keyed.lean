import Mathlib.Data.List.Nodup
import Mathlib.Tactic.Common

/-!
# Rows under a unique key

A list of rows without two of one key is a finite map from keys to rows.  A row that
is added, an edit that keeps the keys and a selection act on the map key by key, and
whether they keep a second column unique can be read off the map as well.
-/

set_option autoImplicit false

namespace Keyed

variable {Row Key Index : Type*} [DecidableEq Key] {key : Row → Key} {index : Row → Index}
variable {rows : List Row} {row : Row} {given : Key}

def find (key : Row → Key) (rows : List Row) (given : Key) : Option Row :=
  rows.find? fun row => key row = given

theorem find_eq_some (unique : (rows.map key).Nodup) :
    find key rows given = some row ↔ row ∈ rows ∧ key row = given := by
  constructor
  · intro found
    have holds := List.find?_some found
    exact ⟨List.mem_of_find?_eq_some found, by simpa using holds⟩
  · rintro ⟨member, rfl⟩
    cases found : find key rows (key row) with
    | none =>
        rw [find, List.find?_eq_none] at found
        have missed := found row member
        simp at missed
    | some other =>
        have holds := List.find?_some found
        rw [List.inj_on_of_nodup_map unique (List.mem_of_find?_eq_some found) member
          (by simpa using holds)]

theorem find_eq_none : find key rows given = none ↔ ∀ row ∈ rows, key row ≠ given := by
  simp [find]

theorem forall_mem_iff (unique : (rows.map key).Nodup) {holds : Row → Prop} :
    (∀ row ∈ rows, holds row) ↔ ∀ given row, find key rows given = some row → holds row := by
  constructor
  · intro all given row found
    exact all row ((find_eq_some unique).mp found).1
  · intro all row member
    exact all (key row) row ((find_eq_some unique).mpr ⟨member, rfl⟩)

/-! ## Changes -/

theorem find_concat (unique : ((rows ++ [row]).map key).Nodup) :
    find key (rows ++ [row]) given = if key row = given then some row else find key rows given := by
  split
  · rename_i isKey
    exact (find_eq_some unique).mpr ⟨by simp, isKey⟩
  · rename_i differs
    simp [find, differs]

theorem find_map {edit : Row → Row} (keeps : ∀ row, key (edit row) = key row) :
    find key (rows.map edit) given = (find key rows given).map edit := by
  simp only [find, List.find?_map, Function.comp_def, keeps]

theorem find_filter (unique : (rows.map key).Nodup) (keep : Row → Bool) :
    find key (rows.filter keep) given = (find key rows given).filter keep := by
  have fewer : ((rows.filter keep).map key).Nodup := unique.sublist (List.filter_sublist.map key)
  refine Option.ext fun row => ?_
  rw [find_eq_some fewer, Option.filter_eq_some_iff, find_eq_some unique, List.mem_filter]
  tauto

/-! ## A second unique column -/

omit [DecidableEq Key] in
theorem nodup_concat : ((rows ++ [row]).map index).Nodup ↔
    (rows.map index).Nodup ∧ ∀ other ∈ rows, index other ≠ index row := by
  rw [List.map_append, List.nodup_append]
  simp

omit [DecidableEq Key] in
/-- An edit of the row under one key keeps the column unique unless it gives the row
what another row has. -/
theorem nodup_map_edit {edit : Row → Row} (unique : (rows.map key).Nodup)
    (indexUnique : (rows.map index).Nodup) (member : row ∈ rows)
    (others : ∀ other ∈ rows, key other ≠ key row → index (edit other) = index other) :
    ((rows.map edit).map index).Nodup ↔
      ∀ other ∈ rows, key other ≠ key row → index other ≠ index (edit row) := by
  rw [List.map_map, List.nodup_map_iff_inj_on (List.Nodup.of_map key unique)]
  constructor
  · intro injective other otherMember differs same
    refine differs (congrArg key (injective other otherMember row member ?_))
    rw [Function.comp_apply, others other otherMember differs, same, Function.comp_apply]
  · intro apart left leftMember right rightMember same
    simp only [Function.comp_apply] at same
    by_cases leftIs : key left = key row <;> by_cases rightIs : key right = key row
    · exact List.inj_on_of_nodup_map unique leftMember rightMember (leftIs.trans rightIs.symm)
    · rw [others right rightMember rightIs,
        List.inj_on_of_nodup_map unique leftMember member leftIs] at same
      exact absurd same.symm (apart right rightMember rightIs)
    · rw [others left leftMember leftIs,
        List.inj_on_of_nodup_map unique rightMember member rightIs] at same
      exact absurd same (apart left leftMember leftIs)
    · rw [others left leftMember leftIs, others right rightMember rightIs] at same
      exact List.inj_on_of_nodup_map indexUnique leftMember rightMember same

end Keyed
