import ApostolRates.Model.Timeline

/-!
# What is read at an instant

The rows that `get_rate` reads and the answers it can give, in terms of the
timeline of the pair.
-/

set_option autoImplicit false

namespace ApostolRates

open ThreeValued ValidTime

theorem selectRows_map_value (rate : RateTable) (currencyFrom currencyTo : Uuid)
    (instant : Timestamptz) :
    (selectRows rate.rows (some currencyFrom) (some currencyTo) (some instant)).map
        RateRow.value =
      valuesAt instant (rate.timeline (currencyFrom, currencyTo)) := by
  rw [valuesAt, RateTable.timeline, ← selectRows_map_period, Multiset.map_map]
  rfl

theorem card_selectRows (rate : RateTable) (currencyFrom currencyTo : Uuid)
    (instant : Timestamptz) :
    (selectRows rate.rows (some currencyFrom) (some currencyTo) (some instant)).card =
      (covering instant (rate.timeline (currencyFrom, currencyTo))).card := by
  rw [RateTable.timeline, ← selectRows_map_period, Multiset.card_map]

theorem selectRows_ne_zero_iff (rate : RateTable) (currencyFrom currencyTo : Uuid)
    (instant : Timestamptz) :
    selectRows rate.rows (some currencyFrom) (some currencyTo) (some instant) ≠ 0 ↔
      ∃ period ∈ rate.timeline (currencyFrom, currencyTo), period.Covers instant := by
  rw [← Multiset.card_pos, ← Multiset.card_map RateRow.period, selectRows_map_period,
    Multiset.card_pos_iff_exists_mem]
  simp only [mem_covering]
  rfl

theorem getRate_ne_none_iff (scan : Scan) (rate : RateTable)
    (pCurrencyFrom pCurrencyTo : Option Uuid) (pDateFrom : Option Timestamptz) :
    getRate scan rate pCurrencyFrom pCurrencyTo pDateFrom ≠ none ↔
      selectRows rate.rows pCurrencyFrom pCurrencyTo pDateFrom ≠ 0 := by
  rw [getRate, ne_eq, Option.map_eq_none_iff, Scan.selectInto_eq_none]

theorem getRate_of_values {scan : Scan} {rate : RateTable} {pCurrencyFrom pCurrencyTo : Option Uuid}
    {pDateFrom : Option Timestamptz} {value : Numeric}
    (matched : selectRows rate.rows pCurrencyFrom pCurrencyTo pDateFrom ≠ 0)
    (values : ∀ row ∈ selectRows rate.rows pCurrencyFrom pCurrencyTo pDateFrom,
      row.value = value) :
    getRate scan rate pCurrencyFrom pCurrencyTo pDateFrom = some value := by
  unfold getRate
  cases taken : scan.selectInto (selectRows rate.rows pCurrencyFrom pCurrencyTo pDateFrom) with
  | none => exact absurd (Scan.selectInto_eq_none.mp taken) matched
  | some row => rw [Option.map_some, values row (Scan.selectInto_mem taken)]

theorem getRate_of_card_le_one (scan : Scan) {rate : RateTable} {currencyFrom currencyTo : Uuid}
    {instant : Timestamptz}
    (single : (selectRows rate.rows (some currencyFrom) (some currencyTo)
      (some instant)).card ≤ 1) :
    (selectRows rate.rows (some currencyFrom) (some currencyTo) (some instant)).map
        RateRow.value =
      ((getRate scan rate (some currencyFrom) (some currencyTo) (some instant)).toList :
        Multiset Numeric) := by
  unfold getRate
  generalize selectRows rate.rows (some currencyFrom) (some currencyTo) (some instant) = rows
    at single ⊢
  cases taken : scan.selectInto rows with
  | none =>
      rw [Scan.selectInto_eq_none.mp taken]
      rfl
  | some row =>
      have member := Scan.selectInto_mem taken
      have one : rows.card = 1 :=
        le_antisymm single (Multiset.card_pos.mpr fun none => by simp [none] at member)
      obtain ⟨only, alone⟩ := Multiset.card_eq_one.mp one
      rw [alone, Multiset.mem_singleton] at member
      rw [alone, member]
      rfl

theorem option_eq_of_toList {α : Type} {left right : Option α}
    (same : (left.toList : Multiset α) = (right.toList : Multiset α)) : left = right := by
  cases left <;> cases right <;> simp_all

/-- The answers `get_rate` can give are the values of the matching rows. -/
theorem getRate_answers (rate : RateTable) (pCurrencyFrom pCurrencyTo : Option Uuid)
    (pDateFrom : Option Timestamptz) (answer : Option Numeric) :
    (∃ look, getRate look rate pCurrencyFrom pCurrencyTo pDateFrom = answer) ↔
      match answer with
      | none => (selectRows rate.rows pCurrencyFrom pCurrencyTo pDateFrom).map RateRow.value = 0
      | some value =>
          value ∈ (selectRows rate.rows pCurrencyFrom pCurrencyTo pDateFrom).map RateRow.value := by
  cases answer with
  | none =>
      simp only [getRate, Option.map_eq_none_iff, Scan.selectInto_eq_none, Multiset.map_eq_zero]
      exact ⟨fun ⟨_, nothing⟩ => nothing, fun nothing => ⟨.any, nothing⟩⟩
  | some value =>
      simp only [getRate, Option.map_eq_some_iff, Multiset.mem_map]
      constructor
      · rintro ⟨look, row, taken, same⟩
        exact ⟨row, Scan.selectInto_mem taken, same⟩
      · rintro ⟨row, member, same⟩
        exact ⟨.preferring row, row, Scan.selectInto_preferring member, same⟩

end ApostolRates
