import ApostolRates.Database

/-!
# Where the stored rates come from

Every row of the table is made of what some transaction of the run gave for its pair:
its value, its start and, unless it is `max_date()`, its end.  The numbers that a
callback gives fit the template that it reads them with, so that a table filled by
callbacks holds nothing else.
-/

set_option autoImplicit false

namespace ApostolRates

open ThreeValued ValidTime Rollback

/-! ## Rows of given rates -/

/-- The row is made of updates that were given for its pair and of a `max_date()`. -/
structure RateRow.MadeOf (given : Update → Prop) (top : Timestamptz → Prop) (row : RateRow) :
    Prop where
  value : ∃ update, given update ∧ update.pair = row.pair ∧ update.value = row.value
  start : ∃ update, given update ∧ update.pair = row.pair ∧ update.date = row.validFromDate
  stop : top row.validToDate ∨
    ∃ update, given update ∧ update.pair = row.pair ∧ update.date = row.validToDate

section
variable {given : Update → Prop} {top : Timestamptz → Prop} {row : RateRow} {update : Update}

theorem RateRow.MadeOf.mono {more : Update → Prop} {tops : Timestamptz → Prop}
    (made : row.MadeOf given top) (grows : ∀ update, given update → more update)
    (topGrows : ∀ date, top date → tops date) : row.MadeOf more tops := by
  obtain ⟨⟨valued, valuedGiven, sameValue⟩, ⟨started, startedGiven, sameStart⟩, stop⟩ := made
  refine ⟨⟨valued, grows _ valuedGiven, sameValue⟩, ⟨started, grows _ startedGiven, sameStart⟩, ?_⟩
  rcases stop with isTop | ⟨stopped, stoppedGiven, sameStop⟩
  · exact Or.inl (topGrows _ isTop)
  · exact Or.inr ⟨stopped, grows _ stoppedGiven, sameStop⟩

theorem RateRow.MadeOf.setValue (made : row.MadeOf given top) (isGiven : given update) :
    (update.setValue row).MadeOf given top := by
  unfold Update.setValue
  split
  · rename_i inForce
    have samePair := ((row.inForce_iff _ _ _).mp inForce).1
    exact ⟨⟨update, isGiven, samePair.symm, rfl⟩, made.start, made.stop⟩
  · exact made

theorem RateRow.MadeOf.setEnd (made : row.MadeOf given top) (isGiven : given update) :
    (update.setEnd row).MadeOf given top := by
  unfold Update.setEnd
  split
  · rename_i inForce
    have samePair := ((row.inForce_iff _ _ _).mp inForce).1
    exact ⟨made.value, made.start, Or.inr ⟨update, isGiven, samePair.symm, rfl⟩⟩
  · exact made

theorem Update.newRow_madeOf {zone : TimeZone} {found : Option RateRow} (isGiven : given update)
    (isTop : top zone.maxDate)
    (made : ∀ row, found = some row → row.pair = update.pair ∧ row.MadeOf given top) :
    (update.newRow zone found).MadeOf given top := by
  refine ⟨⟨update, isGiven, rfl, rfl⟩, ⟨update, isGiven, rfl, rfl⟩, ?_⟩
  cases found with
  | none => exact Or.inl isTop
  | some row =>
      obtain ⟨samePair, rowMade⟩ := made row rfl
      rcases rowMade.stop with rowTop | ⟨stopped, stoppedGiven, same, date⟩
      · exact Or.inl rowTop
      · exact Or.inr ⟨stopped, stoppedGiven, same.trans samePair, date⟩

variable {zone : TimeZone} {currency : CurrencyTable} {scan : Scan} {rate after : RateTable}

theorem madeOf_apply (made : ∀ row ∈ rate.rows, row.MadeOf given top) (isGiven : given update)
    (isTop : top zone.maxDate) (success : update.apply zone currency scan rate = .ok after) :
    ∀ row ∈ after.rows, row.MadeOf given top := by
  have stored := ((update.apply_eq_ok_iff zone currency scan rate).mp success).1
  intro row member
  rw [← stored, Update.rows] at member
  split at member
  · obtain ⟨old, oldMember, rfl⟩ := Multiset.mem_map.mp member
    exact (made old oldMember).setValue isGiven
  · rcases Multiset.mem_cons.mp member with rfl | member
    · refine update.newRow_madeOf isGiven isTop fun row taken => ?_
      obtain ⟨rowMember, samePair, _⟩ := mem_selectRows.mp (Scan.selectInto_mem taken)
      exact ⟨samePair, made row rowMember⟩
    · obtain ⟨old, oldMember, rfl⟩ := Multiset.mem_map.mp member
      exact (made old oldMember).setEnd isGiven

theorem madeOf_write {context : Context} {updates : List Update}
    (made : ∀ row ∈ rate.rows, row.MadeOf given top) (areGiven : ∀ update ∈ updates, given update)
    (isTop : top context.zone.maxDate)
    (written : updates.foldlM context.write rate = .ok after) :
    ∀ row ∈ after.rows, row.MadeOf given top := by
  induction updates generalizing rate with
  | nil =>
      cases written
      exact made
  | cons update rest ih =>
      obtain ⟨middle, head, tail⟩ := loop_cons_ok.mp written
      exact ih (madeOf_apply made (areGiven update List.mem_cons_self) isTop head)
        (fun other member => areGiven other (List.mem_cons_of_mem _ member)) tail

theorem Transaction.madeOf {transaction : Transaction} {tables tablesAfter : Tables}
    (made : ∀ row ∈ tables.rate.rows, row.MadeOf given top)
    (areGiven : ∀ updates, transaction.updates tables.currency = .ok updates →
      ∀ update ∈ updates, given update)
    (isTop : top transaction.zone.maxDate)
    (success : transaction.execute tables = .ok tablesAfter) :
    ∀ row ∈ tablesAfter.rate.rows, row.MadeOf given top := by
  cases Transaction.execute_cases success with
  | register | rename | remove => exact made
  | write rate updates asked written =>
      refine madeOf_write made (fun update member => ?_) isTop written
      rcases asked with asked | rfl
      · exact areGiven updates asked update member
      · exact absurd member List.not_mem_nil

end

/-! ## Runs -/

/-- Some transaction of the run asks for the update, by the currencies of its moment. -/
def GivenIn (transactions : List Transaction) (update : Update) : Prop :=
  ∃ earlier transaction updates, earlier ++ [transaction] <+: transactions ∧
    transaction.updates (Database.empty.run earlier).currency = .ok updates ∧ update ∈ updates

def TopIn (transactions : List Transaction) (date : Timestamptz) : Prop :=
  ∃ transaction ∈ transactions, transaction.zone.maxDate = date

theorem madeOf_run (transactions : List Transaction) :
    ∀ row ∈ (Database.empty.run transactions).rate.rows,
      row.MadeOf (GivenIn transactions) (TopIn transactions) := by
  induction transactions using List.reverseRecOn with
  | nil => exact fun _ member => absurd member (Multiset.notMem_zero _)
  | append_singleton transactions transaction ih =>
      have grown : ∀ row ∈ (Database.empty.run transactions).rate.rows,
          row.MadeOf (GivenIn (transactions ++ [transaction]))
            (TopIn (transactions ++ [transaction])) := by
        intro row member
        refine (ih row member).mono ?_ ?_
        · rintro update ⟨earlier, last, updates, isPrefix, asked, updateMember⟩
          exact ⟨earlier, last, updates, isPrefix.trans (List.prefix_append _ _), asked,
            updateMember⟩
        · rintro date ⟨other, otherMember, same⟩
          exact ⟨other, List.mem_append_left _ otherMember, same⟩
      rcases run_concat_cases Database.step Database.empty transactions transaction with
        ⟨_, _, same⟩ | success
      · rw [Database.run, same]
        exact grown
      · refine Transaction.madeOf grown (fun updates asked update member => ?_)
          ⟨transaction, by simp, rfl⟩ (Database.step_eq_ok.mp success)
        exact ⟨transactions, transaction, updates, List.prefix_refl _, asked, member⟩

/-- No transaction invents anything: every stored value and every start was given for
its pair by some transaction of the run, and every end as well unless it is the
`max_date()` of one. -/
theorem stored_rates_were_given (transactions : List Transaction) (row : RateRow)
    (member : row ∈ (Database.empty.run transactions).rate.rows) :
    (∃ update, GivenIn transactions update ∧ update.pair = row.pair ∧
        update.value = row.value) ∧
      (∃ update, GivenIn transactions update ∧ update.pair = row.pair ∧
        update.date = row.validFromDate) ∧
      ((∃ transaction ∈ transactions, transaction.zone.maxDate = row.validToDate) ∨
        ∃ update, GivenIn transactions update ∧ update.pair = row.pair ∧
          update.date = row.validToDate) :=
  have made := madeOf_run transactions row member
  ⟨made.value, made.start, made.stop⟩

theorem first_rate_was_given :
    ∃ update, GivenIn (openingTransactions ++ [firstDelivery]) update ∧
      update.pair = (usd.id, rub.id) ∧ update.value = .finite 96245026 6 :=
  (stored_rates_were_given (openingTransactions ++ [firstDelivery])
    ⟨usd.id, rub.id, .finite 96245026 6, .onDay 9000, TimeZone.utc.maxDate⟩
    (Multiset.mem_singleton_self _)).1

/-! ## What a callback can give -/

/-- A decimal with at most that many digits before and after the point. -/
def Numeric.Fits (pre post : Nat) : Numeric → Prop
  | .finite unscaled scale => scale ≤ post ∧ unscaled.natAbs < 10 ^ (pre + scale)
  | _ => False

section
variable {post : Nat} {np : NumProc}

theorem NumProc.readByte_readPost (bounded : np.readPost ≤ post) (byte : UInt8) :
    (np.readByte post byte).readPost ≤ post := by
  unfold NumProc.readByte
  split
  · split
    · exact bounded
    · rename_i room
      unfold NumProc.pushDigit
      split
      · rename_i isDec
        rw [isDec, Bool.true_and, beq_iff_eq] at room
        exact Nat.lt_of_le_of_ne bounded room
      · exact bounded
  · split <;> exact bounded

theorem NumProc.numpartFromChar_readPost (bounded : np.readPost ≤ post) (pattern : NumPattern)
    (input : List UInt8) : (np.numpartFromChar post pattern input).1.readPost ≤ post := by
  unfold NumProc.numpartFromChar
  dsimp only
  by_cases signed : np.sign = .space ∧ pattern ≠ .dec ∧ np.nothingRead = true
  · -- the sign is no digit
    rw [if_pos signed]
    split
    · split <;> exact bounded
    · split <;> exact NumProc.readByte_readPost (by exact bounded) _
  · rw [if_neg signed]
    split
    · exact bounded
    · exact NumProc.readByte_readPost bounded _

theorem NumProc.processor_readPost (bounded : np.readPost ≤ post) (patterns : List NumPattern)
    (input : List UInt8) : (np.processor post patterns input).readPost ≤ post := by
  induction patterns generalizing np input with
  | nil => exact bounded
  | cons pattern patterns ih =>
      cases input with
      | nil => exact bounded
      | cons byte rest => exact ih (np.numpartFromChar_readPost bounded pattern (byte :: rest)) _

theorem toNumber_fits {text : Option String} {template : List NumPattern} {value : Numeric}
    (read : toNumber text template = .ok (some value)) :
    value.Fits (templatePre template) (templatePost template) := by
  cases text with
  | none => cases read
  | some text =>
      obtain ⟨number, isNumber, same⟩ := except_map_eq_ok.mp read
      cases same
      unfold NumProc.numericIn at isNumber
      split at isNumber
      · cases isNumber
      · split at isNumber
        · cases isNumber
        · rename_i inRange
          cases isNumber
          refine ⟨NumProc.processor_readPost (Nat.zero_le _) _ _, ?_⟩
          split <;> simpa using inRange

end

def Transaction.CallsBack (transaction : Transaction) : Prop :=
  match transaction.statement with
  | .updateRate _ _ _ _ | .updateRateNow _ _ _ => False
  | _ => True

/-- Where only callbacks write, whatever they are answered and in whatever order they
run, every stored value is a finite decimal with at most eight digits after the point
and less than 10^9 in magnitude. -/
theorem callback_values_fit (transactions : List Transaction)
    (callBack : ∀ transaction ∈ transactions, transaction.CallsBack) (row : RateRow)
    (member : row ∈ (Database.empty.run transactions).rate.rows) : row.value.Fits 9 8 := by
  obtain ⟨update, ⟨earlier, transaction, updates, isPrefix, asked, updateMember⟩, _, same⟩ :=
    (madeOf_run transactions row member).value
  have calls := callBack transaction (isPrefix.subset (by simp))
  unfold Transaction.CallsBack at calls
  unfold Transaction.updates at asked
  rw [← same]
  cases statement : transaction.statement with
  | updateRate | updateRateNow =>
      rw [statement] at calls
      exact calls.elim
  | exchangeRateDone pRequest =>
      rw [statement] at asked
      obtain ⟨_, each⟩ := replyUpdates_spec asked
      obtain ⟨_, _, _, text, number⟩ := each update updateMember
      exact toNumber_fits number
  | _ =>
      rw [statement] at asked
      cases asked
      exact absurd updateMember List.not_mem_nil

theorem first_values_fit :
    (∀ transaction ∈ openingTransactions ++ [firstDelivery], transaction.CallsBack) ∧
      (.finite 96245026 6 : Numeric).Fits 9 8 := by
  have callBack : ∀ transaction ∈ openingTransactions ++ [firstDelivery],
      transaction.CallsBack := by
    simp [openingTransactions, firstDelivery, sampleTransaction, Transaction.CallsBack,
      Currency.create]
  have stored : (⟨usd.id, rub.id, .finite 96245026 6, .onDay 9000, TimeZone.utc.maxDate⟩ : RateRow)
      ∈ (Database.empty.run (openingTransactions ++ [firstDelivery])).rate.rows :=
    Multiset.mem_singleton_self _
  exact ⟨callBack, callback_values_fit _ callBack _ stored⟩

end ApostolRates
