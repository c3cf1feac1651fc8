import ApostolRates.History
import ApostolRates.Library.AsOf

/-!
# The rate table as an as-of map

As long as no call of a pair is dated before the first one, the timeline of the
pair is the chain of the writes made so far: one period a date, each running to
the next.  `update_rate` then writes into that chain and `get_rate` looks it up.
-/

set_option autoImplicit false

namespace ApostolRates

open ThreeValued ValidTime Rollback

/-- The dated values that the calls write for a pair, in the order of the calls. -/
def writesOf (pair : Uuid × Uuid) (calls : List Call) : List (Timestamptz × Numeric) :=
  (calls.filter fun call => call.update.pair = pair).map fun call =>
    (call.update.date, call.update.value)

/-- No call for a pair is dated before the first call for it. -/
def FirstIsEarliest (calls : List Call) : Prop :=
  ∀ pair, ∀ first ∈ (writesOf pair calls).head?, ∀ write ∈ writesOf pair calls, first.1 ≤ write.1

theorem writesOf_concat (calls : List Call) (call : Call) :
    writesOf call.update.pair (calls ++ [call]) =
      writesOf call.update.pair calls ++ [(call.update.date, call.update.value)] := by
  simp [writesOf]

theorem writesOf_concat_of_ne {pair : Uuid × Uuid} {call : Call} (calls : List Call)
    (differs : pair ≠ call.update.pair) :
    writesOf pair (calls ++ [call]) = writesOf pair calls := by
  simp [writesOf, Ne.symm differs]

theorem mem_writesOf {pair : Uuid × Uuid} {calls : List Call} {write : Timestamptz × Numeric}
    (member : write ∈ writesOf pair calls) : ∃ call ∈ calls, call.update.date = write.1 := by
  obtain ⟨call, kept, rfl⟩ := List.mem_map.mp member
  exact ⟨call, (List.mem_filter.mp kept).1, rfl⟩

theorem FirstIsEarliest.of_concat {calls : List Call} {call : Call}
    (earliest : FirstIsEarliest (calls ++ [call])) : FirstIsEarliest calls := by
  intro pair first head write member
  have grows : ∃ rest, writesOf pair (calls ++ [call]) = writesOf pair calls ++ rest :=
    ⟨writesOf pair [call], by simp [writesOf]⟩
  obtain ⟨rest, split⟩ := grows
  refine earliest pair first ?_ write (split ▸ List.mem_append_left _ member)
  rw [split, List.head?_append]
  rw [Option.mem_def] at head
  simp [head]

theorem firstIsEarliest_of_onePair {calls : List Call} {pair : Uuid × Uuid}
    (same : ∀ call ∈ calls, call.update.pair = pair)
    (earliest : ∀ first ∈ calls.head?, ∀ call ∈ calls, first.update.date ≤ call.update.date) :
    FirstIsEarliest calls := by
  intro other first head write member
  by_cases isPair : other = pair
  · have all : writesOf other calls =
        calls.map fun call => (call.update.date, call.update.value) := by
      rw [writesOf, List.filter_eq_self.mpr]
      exact fun call callMember => decide_eq_true ((same call callMember).trans isPair.symm)
    rw [all, List.head?_map] at head
    obtain ⟨call, isFirst, rfl⟩ := Option.map_eq_some_iff.mp head
    obtain ⟨given, givenMember, date⟩ := mem_writesOf member
    exact date ▸ earliest call isFirst given givenMember
  · obtain ⟨call, kept, _⟩ := List.mem_map.mp member
    obtain ⟨callMember, own⟩ := List.mem_filter.mp kept
    exact absurd ((of_decide_eq_true own).symm.trans (same call callMember)) isPair

section
variable {zone : TimeZone} {currency : CurrencyTable} {rate : RateTable} {update : Update}

theorem apply_chain (scan : Scan) {kept : List (Timestamptz × Numeric)}
    (known : update.Known currency) (below : update.date < zone.maxDate)
    (ascending : Ascending kept)
    (notBefore : ∀ entry ∈ kept.head?, entry.1 ≤ update.date)
    (chained : rate.timeline update.pair = chain zone.maxDate kept) :
    ∃ after, update.apply zone currency scan rate = .ok after ∧
      after.timeline update.pair =
        chain zone.maxDate (write update.date update.value kept) := by
  have picks := update.taken_picks scan rate
  rw [chained] at picks
  have revised : revise zone.maxDate update.date update.value
      ((update.taken scan rate).map RateRow.period) (chain zone.maxDate kept) =
        chain zone.maxDate (write update.date update.value kept) :=
    revise_chain kept ascending below notBefore picks
  have distinct := distinct_chain zone.maxDate
    (ascending_write update.date update.value kept ascending)
  obtain ⟨after, success⟩ := updateRate_succeeds_iff.mpr
    ⟨by rw [chained, revised]; exact distinct, Or.inr known⟩
  refine ⟨after, success, ?_⟩
  rw [(updateRate_ok success).1, chained, revised]

end

/-- The simulation: no call fails, and every timeline is the chain of its writes. -/
theorem runCalls_chain (zone : TimeZone) (currency : CurrencyTable) (calls : List Call)
    (known : ∀ call ∈ calls, call.update.Known currency)
    (below : ∀ call ∈ calls, call.update.date < zone.maxDate)
    (earliest : FirstIsEarliest calls) :
    AllSucceed (Call.step zone currency) .empty calls ∧
      ∀ pair, (runCalls zone currency calls).timeline pair =
        chain zone.maxDate (entries (writesOf pair calls)) := by
  induction calls using List.reverseRecOn with
  | nil => exact ⟨allSucceed_nil _ _, fun _ => rfl⟩
  | append_singleton calls call ih =>
      obtain ⟨succeed, chained⟩ := ih
        (fun other member => known other (List.mem_append_left _ member))
        (fun other member => below other (List.mem_append_left _ member)) earliest.of_concat
      have isLast : call ∈ calls ++ [call] := by simp
      have notBefore : ∀ entry ∈ (entries (writesOf call.update.pair calls)).head?,
          entry.1 ≤ call.update.date := by
        intro entry head
        cases shape : writesOf call.update.pair calls with
        | nil => simp [shape, entries] at head
        | cons first rest =>
            have firstEarly := earliest call.update.pair first
              (by rw [writesOf_concat, shape]; rfl) (call.update.date, call.update.value)
              (by simp [writesOf_concat])
            exact (head_entries_le head (by simp [shape])).trans firstEarly
      obtain ⟨after, success, own⟩ := apply_chain call.scan (known call isLast)
        (below call isLast) (ascending_entries _) notBefore (chained call.update.pair)
      have settled : runCalls zone currency (calls ++ [call]) = after := by
        rw [runCalls, run_concat]
        exact call.settle_ok success
      refine ⟨allSucceed_concat _ _ succeed ⟨after, success⟩, fun pair => ?_⟩
      rw [settled]
      by_cases same : pair = call.update.pair
      · rw [same, own, writesOf_concat, entries_concat]
      · rw [(updateRate_ok success).2 pair same, writesOf_concat_of_ne calls same]
        exact chained pair

section
variable {zone : TimeZone} {rate : RateTable} {currencyFrom currencyTo : Uuid}
variable {kept : List (Timestamptz × Numeric)} {instant : Timestamptz}

theorem getRate_chain (scan : Scan) (ascending : Ascending kept)
    (chained : rate.timeline (currencyFrom, currencyTo) = chain zone.maxDate kept)
    (below : instant < zone.maxDate) :
    getRate scan rate (some currencyFrom) (some currencyTo) (some instant) =
      (lookUp instant kept).map Prod.snd := by
  have values := selectRows_map_value rate currencyFrom currencyTo instant
  rw [chained, valuesAt_chain kept ascending below] at values
  have single : (selectRows rate.rows (some currencyFrom) (some currencyTo)
      (some instant)).card ≤ 1 := by
    rw [← Multiset.card_map RateRow.value, values, Multiset.coe_card]
    cases lookUp instant kept <;> simp
  rw [getRate_of_card_le_one scan single] at values
  exact option_eq_of_toList values

theorem selectRows_chain_eq_zero
    (chained : rate.timeline (currencyFrom, currencyTo) = chain zone.maxDate kept)
    (ascending : Ascending kept) (dated : ∀ entry ∈ kept, entry.1 < zone.maxDate)
    (outside : (∀ entry ∈ kept, instant < entry.1) ∨ zone.maxDate ≤ instant) :
    selectRows rate.rows (some currencyFrom) (some currencyTo) (some instant) = 0 := by
  rw [← Multiset.card_eq_zero, card_selectRows, chained, Multiset.card_eq_zero]
  rcases outside with before | late
  · rcases lt_or_ge instant (headStart zone.maxDate kept) with early | reached
    · exact covering_chain_eq_zero ascending early
    · cases kept with
      | nil => rfl
      | cons entry rest => exact absurd (before entry List.mem_cons_self) (not_lt.mpr reached)
  · exact covering_chain_of_top_le dated late

end

/-- Calls with known currencies, dated below `max_date()` and none before the first
of its pair, never fail and leave the as-of map of what they write: `get_rate`
looks it up, and the rows of a pair are one for each date written, from one date
to the next and from the last to `max_date()`. -/
theorem rate_table_is_as_of_map (zone : TimeZone) (currency : CurrencyTable) (calls : List Call)
    (known : ∀ call ∈ calls, call.update.Known currency)
    (below : ∀ call ∈ calls, call.update.date < zone.maxDate)
    (earliest : FirstIsEarliest calls) :
    AllSucceed (Call.step zone currency) .empty calls ∧
      ∀ currencyFrom currencyTo,
        (∀ instant,
          (∀ scan, getRate scan (runCalls zone currency calls) (some currencyFrom)
              (some currencyTo) (some instant) =
            if instant < zone.maxDate then asOf instant (writesOf (currencyFrom, currencyTo) calls)
            else none) ∧
          ((∀ write ∈ writesOf (currencyFrom, currencyTo) calls, instant < write.1) ∨
              zone.maxDate ≤ instant →
            selectRows (runCalls zone currency calls).rows (some currencyFrom) (some currencyTo)
              (some instant) = 0)) ∧
        ∃ kept, Ascending kept ∧
          (∀ date, date ∈ kept.map Prod.fst ↔
            date ∈ (writesOf (currencyFrom, currencyTo) calls).map Prod.fst) ∧
          pairRows (runCalls zone currency calls).rows (currencyFrom, currencyTo) =
            ((chain zone.maxDate kept).map (rowOf (currencyFrom, currencyTo)) :
              List RateRow) := by
  obtain ⟨succeed, chained⟩ := runCalls_chain zone currency calls known below earliest
  refine ⟨succeed, fun currencyFrom currencyTo => ?_⟩
  have chained := chained (currencyFrom, currencyTo)
  have ascending := ascending_entries (writesOf (currencyFrom, currencyTo) calls)
  have dated : ∀ entry ∈ entries (writesOf (currencyFrom, currencyTo) calls),
      entry.1 < zone.maxDate := by
    intro entry member
    obtain ⟨seen, seenMember, same⟩ := List.mem_map.mp
      ((dates_entries _ entry.1).mp (List.mem_map_of_mem member))
    obtain ⟨call, callMember, date⟩ := mem_writesOf seenMember
    rw [← same, ← date]
    exact below call callMember
  have nothing : ∀ instant, (∀ write ∈ writesOf (currencyFrom, currencyTo) calls,
      instant < write.1) ∨ zone.maxDate ≤ instant →
      selectRows (runCalls zone currency calls).rows (some currencyFrom) (some currencyTo)
        (some instant) = 0 := by
    intro instant outside
    refine selectRows_chain_eq_zero chained ascending dated (outside.imp_left ?_)
    intro before entry member
    obtain ⟨seen, seenMember, same⟩ := List.mem_map.mp
      ((dates_entries _ entry.1).mp (List.mem_map_of_mem member))
    exact same ▸ before seen seenMember
  refine ⟨fun instant => ⟨fun scan => ?_, nothing instant⟩, _, ascending,
    fun date => dates_entries _ date, ?_⟩
  · split
    · rename_i early
      rw [getRate_chain scan ascending chained early, lookUp_entries]
      rfl
    · rename_i late
      by_contra found
      exact (getRate_ne_none_iff scan _ _ _ _).mp found
        (nothing instant (Or.inr (not_lt.mp late)))
  · rw [pairRows_eq]
    exact congrArg (Multiset.map (rowOf (currencyFrom, currencyTo))) chained

/-- Two dates for USD to RUB, then the first of them again with another value. -/
noncomputable def revisedCalls : List Call :=
  [⟨firstRate, .any⟩, ⟨laterRate, .any⟩, ⟨⟨usd.id, rub.id, .finite 96 0, .onDay 9000⟩, .any⟩]

theorem revisedCalls_as_of_map :
    (∀ call ∈ revisedCalls, call.update.Known .init) ∧
      (∀ call ∈ revisedCalls, call.update.date < TimeZone.utc.maxDate) ∧
      FirstIsEarliest revisedCalls ∧
      ∀ scan, getRate scan (runCalls .utc .init revisedCalls) (some usd.id) (some rub.id)
          (some (.onDay 9002)) = some (.finite 96 0) ∧
        getRate scan (runCalls .utc .init revisedCalls) (some usd.id) (some rub.id)
          (some (.onDay 9007)) = some (.finite 97 0) := by
  have known : ∀ call ∈ revisedCalls, call.update.Known .init := by decide
  have below : ∀ call ∈ revisedCalls, call.update.date < TimeZone.utc.maxDate := by decide
  have onePair : ∀ call ∈ revisedCalls, call.update.pair = (usd.id, rub.id) := by decide
  have earliest : FirstIsEarliest revisedCalls := firstIsEarliest_of_onePair onePair (by decide)
  have answers := (rate_table_is_as_of_map .utc .init revisedCalls known below earliest).2
    usd.id rub.id
  exact ⟨known, below, earliest, fun scan =>
    ⟨(answers.1 (.onDay 9002)).1 scan, (answers.1 (.onDay 9007)).1 scan⟩⟩

end ApostolRates
