import ApostolRates.Exchange

/-!
# Order and unknown keys

Turns with different known keys can be exchanged, and turns with unknown keys do
nothing.  So replies that agree on the known keys lead to the same table, and
whether a batch is undone does not depend on the order of its entries.
-/

set_option autoImplicit false

namespace ApostolRates

open ThreeValued ValidTime Rollback

def isKnown (currency : CurrencyTable) (e : String × Option String) : Bool :=
  (currency.selectId (some e.1)).isSome

theorem loop_known_only (context : Context) (uCurrencyFrom : Uuid) (rate : RateTable)
    (entries : List (String × Option String)) :
    entries.foldlM (loopStep context uCurrencyFrom) rate =
      (entries.filter (isKnown context.currency)).foldlM (loopStep context uCurrencyFrom) rate := by
  refine loop_filter entries (isKnown context.currency) ?_ rate
  intro e _ unknown before
  exact loopStep_unknown (by simpa [isKnown] using unknown)

theorem loopStep_exchange {context : Context} {uCurrencyFrom : Uuid}
    {first second : String × Option String} {before middle after : RateTable}
    (apart : first.1 ≠ second.1)
    (firstKnown : isKnown context.currency first = true)
    (secondKnown : isKnown context.currency second = true)
    (firstSuccess : loopStep context uCurrencyFrom before first = .ok middle)
    (secondSuccess : loopStep context uCurrencyFrom middle second = .ok after) :
    ∃ other, loopStep context uCurrencyFrom before second = .ok other ∧
      loopStep context uCurrencyFrom other first = .ok after := by
  obtain ⟨firstTo, firstFound⟩ := Option.isSome_iff_exists.mp firstKnown
  obtain ⟨secondTo, secondFound⟩ := Option.isSome_iff_exists.mp secondKnown
  obtain ⟨firstValue, firstNumber, firstApplied⟩ := (loopStep_known firstFound).mp firstSuccess
  obtain ⟨secondValue, secondNumber, secondApplied⟩ :=
    (loopStep_known secondFound).mp secondSuccess
  have differs : firstTo ≠ secondTo := by
    rintro rfl
    exact apart (CurrencyTable.selectId_injective firstFound secondFound)
  have pairs : (⟨uCurrencyFrom, firstTo, firstValue, context.now⟩ : Update).pair ≠
      (⟨uCurrencyFrom, secondTo, secondValue, context.now⟩ : Update).pair :=
    fun same => differs (congrArg Prod.snd same)
  obtain ⟨other, otherApplied, lastApplied⟩ := apply_exchange pairs firstApplied secondApplied
  exact ⟨other, (loopStep_known secondFound).mpr ⟨secondValue, secondNumber, otherApplied⟩,
    (loopStep_known firstFound).mpr ⟨firstValue, firstNumber, lastApplied⟩⟩

/-- Two loops over the same known entries, in whatever order, leave the same table
or both are undone. -/
theorem loop_known_perm (context : Context) (uCurrencyFrom : Uuid) (rate : RateTable)
    {left right : List (String × Option String)} (keys : (left.map Prod.fst).Nodup)
    (perm : (left.filter (isKnown context.currency)).Perm
      (right.filter (isKnown context.currency))) :
    undoing rate (left.foldlM (loopStep context uCurrencyFrom) rate) =
      undoing rate (right.foldlM (loopStep context uCurrencyFrom) rate) := by
  rw [loop_known_only context uCurrencyFrom rate left,
    loop_known_only context uCurrencyFrom rate right]
  refine undoing_loop_perm perm ?_ rate
  intro first firstMember second secondMember before middle after firstSuccess secondSuccess
  obtain ⟨firstIn, firstKnown⟩ := List.mem_filter.mp firstMember
  obtain ⟨secondIn, secondKnown⟩ := List.mem_filter.mp secondMember
  by_cases same : first.1 = second.1
  · obtain rfl : first = second := List.inj_on_of_nodup_map keys firstIn secondIn same
    exact ⟨middle, firstSuccess, secondSuccess⟩
  · exact loopStep_exchange same firstKnown secondKnown firstSuccess secondSuccess

theorem known_entries_perm (currency : CurrencyTable) {left right : List (String × Jsonb)}
    (leftKeys : (left.map Prod.fst).Nodup) (rightKeys : (right.map Prod.fst).Nodup)
    (sameKnown : ∀ key, currency.selectId (some key) ≠ none →
      Jsonb.field key left = Jsonb.field key right) :
    ((entryTexts left).filter (isKnown currency)).Perm
      ((entryTexts right).filter (isKnown currency)) := by
  have nodup : ∀ fields : List (String × Jsonb), (fields.map Prod.fst).Nodup →
      ((entryTexts fields).filter (isKnown currency)).Nodup := fun fields keys =>
    (List.Nodup.of_map Prod.fst ((entryTexts_keys fields).symm ▸ keys)).filter _
  have transfer : ∀ one other : List (String × Jsonb), (one.map Prod.fst).Nodup →
      (other.map Prod.fst).Nodup → (∀ key, currency.selectId (some key) ≠ none →
        Jsonb.field key one = Jsonb.field key other) →
      ∀ e, e ∈ (entryTexts one).filter (isKnown currency) →
        e ∈ (entryTexts other).filter (isKnown currency) := by
    intro one other oneKeys otherKeys agree e member
    obtain ⟨listed, known⟩ := List.mem_filter.mp member
    obtain ⟨json, found, text⟩ := (mem_entryTexts_iff oneKeys).mp listed
    rw [agree e.1 (Option.isSome_iff_ne_none.mp known)] at found
    exact List.mem_filter.mpr ⟨(mem_entryTexts_iff otherKeys).mpr ⟨json, found, text⟩, known⟩
  refine (List.perm_ext_iff_of_nodup (nodup left leftKeys) (nodup right rightKeys)).mpr fun e => ?_
  exact ⟨transfer left right leftKeys rightKeys sameKnown e,
    transfer right left rightKeys leftKeys (fun key known => (sameKnown key known).symm) e⟩

section
variable {left right : List (String × Jsonb)}
variable {leftRates rightRates : List (String × Jsonb)}

theorem jsonbToRecord_cases (runtime : Runtime)
    (sameFields : ∀ name, name ≠ "rates" → Jsonb.field name left = Jsonb.field name right)
    (leftFound : Jsonb.field "rates" left = some (.object leftRates))
    (rightFound : Jsonb.field "rates" right = some (.object rightRates)) :
    (∃ failure, jsonbToRecord runtime (some (.object left)) = .error failure ∧
        jsonbToRecord runtime (some (.object right)) = .error failure) ∨
      ∃ success base date,
        jsonbToRecord runtime (some (.object left)) =
          .ok ⟨success, base, date, some (.object leftRates)⟩ ∧
        jsonbToRecord runtime (some (.object right)) =
          .ok ⟨success, base, date, some (.object rightRates)⟩ := by
  have texts : ∀ name, name ≠ "rates" → Jsonb.fieldText name right = Jsonb.fieldText name left := by
    intro name differs
    rw [Jsonb.fieldText, Jsonb.fieldText, sameFields name differs]
  simp only [jsonbToRecord, Jsonb.fieldJsonb_of_object leftFound,
    Jsonb.fieldJsonb_of_object rightFound, texts "success" (by decide),
    texts "date" (by decide), texts "base" (by decide)]
  cases strict Jsonb.boolIn (Jsonb.fieldText "success" left) with
  | error failure => exact Or.inl ⟨failure, rfl, rfl⟩
  | ok success =>
      cases strict runtime.dateIn (Jsonb.fieldText "date" left) with
      | error failure => exact Or.inl ⟨failure, rfl, rfl⟩
      | ok date => exact Or.inr ⟨success, _, date, rfl, rfl⟩

end

theorem processReply_perm (context : Context) (rate : RateTable) (success : Option Bool)
    (base : Option String) (date : Option Date) {left right : List (String × Jsonb)}
    (leftKeys : (left.map Prod.fst).Nodup) (rightKeys : (right.map Prod.fst).Nodup)
    (sameKnown : ∀ key, context.currency.selectId (some key) ≠ none →
      Jsonb.field key left = Jsonb.field key right) :
    undoing rate (processReply context rate ⟨success, base, date, some (.object left)⟩) =
      undoing rate (processReply context rate ⟨success, base, date, some (.object right)⟩) := by
  unfold processReply
  by_cases refused : Holds (negate success)
  · simp only [refused, if_true]
  · simp only [refused, if_false]
    cases context.currency.selectId base with
    | none => rfl
    | some uCurrencyFrom =>
        exact loop_known_perm context uCurrencyFrom rate ((entryTexts_keys left).symm ▸ leftKeys)
          (known_entries_perm context.currency leftKeys rightKeys sameKnown)

section
variable {context : Context} (rate : RateTable) {f : Fetch}

theorem exchangeRateBlock_latest (answered : f.status.getD 0 = 200) (isLatest : f.IsLatest) :
    exchangeRateBlock context rate f =
      (decodeReply context.runtime f.response >>= fun r => processReply context rate r) := by
  rw [exchangeRateBlock, if_pos answered, if_pos isLatest]

theorem exchangeRateBlock_other (answered : f.status.getD 0 = 200) (other : ¬ f.IsLatest) :
    exchangeRateBlock context rate f = .ok rate := by
  rw [exchangeRateBlock, if_pos answered, if_neg other]

theorem exchangeRateBlock_unanswered (unanswered : ¬ f.status.getD 0 = 200) :
    undoing rate (exchangeRateBlock context rate f) = rate := by
  rw [exchangeRateBlock, if_neg unanswered]
  cases context.runtime.failureNotice f <;> rfl

end

/-- Two requests with one status, agent and command, whose responses are objects that
agree outside of `rates` and hold the same entries for the codes of currencies
there, lead to the same table: other keys and the order of the entries do not matter. -/
theorem exchange_known_only (context : Context) (rate : RateTable) (left right : Uuid)
    (leftFetch rightFetch : Fetch)
    (leftFields rightFields leftRates rightRates : List (String × Jsonb))
    (leftRequest : context.httpFetch left = some leftFetch)
    (rightRequest : context.httpFetch right = some rightFetch)
    (sameStatus : leftFetch.status = rightFetch.status)
    (sameAgent : leftFetch.agent = rightFetch.agent)
    (sameCommand : leftFetch.command = rightFetch.command)
    (leftParses : context.runtime.Parses leftFetch.response leftFields)
    (rightParses : context.runtime.Parses rightFetch.response rightFields)
    (sameFields : ∀ name, name ≠ "rates" →
      Jsonb.field name leftFields = Jsonb.field name rightFields)
    (leftFound : Jsonb.field "rates" leftFields = some (.object leftRates))
    (rightFound : Jsonb.field "rates" rightFields = some (.object rightRates))
    (sameKnown : ∀ key, context.currency.selectId (some key) ≠ none →
      Jsonb.field key leftRates = Jsonb.field key rightRates) :
    exchangeRateDone context rate left = exchangeRateDone context rate right := by
  have leftKeys := leftParses.keys leftFound
  have rightKeys := rightParses.keys rightFound
  unfold exchangeRateDone
  simp only [leftRequest, rightRequest, Option.getD_some]
  congr 1
  by_cases answered : leftFetch.status.getD 0 = 200
  · have rightAnswered : rightFetch.status.getD 0 = 200 := sameStatus ▸ answered
    by_cases isLatest : leftFetch.IsLatest
    · have rightLatest : rightFetch.IsLatest := by
        rwa [Fetch.IsLatest, sameAgent, sameCommand] at isLatest
      rw [exchangeRateBlock_latest rate answered isLatest,
        exchangeRateBlock_latest rate rightAnswered rightLatest,
        decodeReply_of_parses leftParses, decodeReply_of_parses rightParses]
      rcases jsonbToRecord_cases context.runtime sameFields leftFound rightFound with
        ⟨failure, leftRecord, rightRecord⟩ | ⟨success, base, date, leftRecord, rightRecord⟩
      · rw [leftRecord, rightRecord]
      · rw [leftRecord, rightRecord]
        exact processReply_perm context rate success base date leftKeys rightKeys sameKnown
    · have rightOther : ¬ rightFetch.IsLatest := by
        rwa [Fetch.IsLatest, sameAgent, sameCommand] at isLatest
      rw [exchangeRateBlock_other rate answered isLatest,
        exchangeRateBlock_other rate rightAnswered rightOther]
  · have rightUnanswered : ¬ rightFetch.status.getD 0 = 200 := sameStatus ▸ answered
    rw [exchangeRateBlock_unanswered rate answered,
      exchangeRateBlock_unanswered rate rightUnanswered]

theorem exchange_mixed_reply :
    sampleContext.runtime.Parses (latestFetch plainText).response (replyFields plainRates) ∧
      sampleContext.runtime.Parses (latestFetch mixedText).response (replyFields mixedRates) ∧
      exchangeRateDone sampleContext .empty 1 = exchangeRateDone sampleContext .empty 2 := by
  refine ⟨plain_parses, mixed_parses, ?_⟩
  refine exchange_known_only sampleContext .empty 1 2 (latestFetch plainText)
    (latestFetch mixedText) (replyFields plainRates) (replyFields mixedRates) plainRates mixedRates
    rfl rfl rfl rfl rfl plain_parses mixed_parses ?_ rfl rfl ?_
  · intro name differs
    have other : (name == "rates") = false := by simpa using differs
    simp [Jsonb.field, replyFields, List.lookup_cons, other]
  · intro key known
    obtain ⟨id, found⟩ := Option.ne_none_iff_exists'.mp known
    obtain ⟨row, member, code, _⟩ := CurrencyTable.selectId_eq_some found
    have other : (key == "XYZ") = false := by
      have codes : ∀ stored ∈ CurrencyTable.init.rows, stored.code ≠ "XYZ" := by decide
      rw [Option.some.inj code]
      simpa using codes row member
    simp [Jsonb.field, plainRates, mixedRates, List.lookup_cons, other]

end ApostolRates
