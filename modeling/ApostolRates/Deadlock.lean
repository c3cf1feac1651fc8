import ApostolRates.Library.Keyed
import ApostolRates.Library.Waiting
import ApostolRates.Ranked
import ApostolRates.Unblocked
import Mathlib.Data.String.Basic

/-!
# No deadlock

Transactions that give the same pairs wait for each other's rows.  A callback comes to
its pairs in the order in which `jsonb` keeps the keys of the rates, which is the same
for all of them, and to the rows of a pair in one order as well: who is waited for
has always got further than who waits.
-/

set_option autoImplicit false

namespace ApostolRates

open ThreeValued ValidTime Rollback Versions Waiting Relation

/-! ## Waiting -/

/-- An index entry of the row waits for the end of the other session. -/
def KeyHeld (session other : Session) (row : RateRow) (slots : Heap Session RateRow) : Prop :=
  ∃ slot ∈ slots, (∃ version, slot.pending = some (other, version)) ∧
    ∃ claimed ∈ slot.respected session, claimed.key = row.key

namespace Sessions

/-- The session waits for the end of the other one: the row that its `UPDATE` comes to is
locked, or an index entry of the row that it writes may become a duplicate. -/
def WaitsFor (zone : TimeZone) (sessions : Sessions) (session other : Session) : Prop :=
  other ≠ session ∧
    match sessions.calls session, sessions.world.phase session with
    | .ok update :: _, .updating found (index :: _) =>
        ∃ slot, sessions.world.heap[index]? = some slot ∧
          ((∃ version, slot.pending = some (other, version)) ∨
            ∃ row, slot.visible session = some row ∧ update.Matches row ∧
              KeyHeld session other (update.edit found row)
                (sessions.world.heap.eraseIdx index))
    | .ok update :: _, .inserting found =>
        KeyHeld session other (update.newRow zone found) sessions.world.heap
    | _, _ => False

/-- The running call raises: its entry cannot be read, or it inserts a rate between
currencies that are not there. -/
def Raises (currency : CurrencyTable) (sessions : Sessions) (session : Session) : Prop :=
  match sessions.calls session, sessions.world.phase session with
  | .error _ :: _, _ => True
  | .ok update :: _, .inserting _ => ¬ update.Known currency
  | _, _ => False

end Sessions

section
variable {Rank : Type} [LinearOrder Rank] {rank : Uuid × Uuid → Rank}
variable {scripts : Session → List (Except PgError Update)} {rows : Multiset RateRow}
variable {zone : TimeZone} {currency : CurrencyTable} {sessions after : Sessions}
variable {session : Session} {update : Update} {rest : List (Except PgError Update)}
variable {found : Option RateRow}

theorem RateRow.origin_of_key {row other : RateRow} (same : other.key = row.key) :
    other.origin = row.origin := by
  simp only [RateRow.key, Prod.mk.injEq] at same
  exact Prod.ext (RateRow.pair_of_key (by simp only [RateRow.key, Prod.mk.injEq]; exact same))
    same.2.2.1

theorem Sessions.Ranked.keyFree_edit (ranked : sessions.Ranked rank scripts) {index : Nat}
    {slot : Slot Session RateRow} {row : RateRow}
    (isSlot : sessions.world.heap[index]? = some slot)
    (isSeen : slot.visible session = some row) :
    World.KeyFree session (update.edit found row) (sessions.world.heap.eraseIdx index) := by
  have isThere : Stands RateRow.origin sessions.world.heap index row.origin :=
    ⟨slot, isSlot, row, Slot.mem_versions_of_visible isSeen, rfl⟩
  intro other member claimed respected same
  refine ranked.marked.respected_ne isThere other member claimed respected ?_
  exact (RateRow.origin_of_key same).trans (update.edit_origin row)

theorem Sessions.Ranked.keyFree_newRow (ranked : sessions.Ranked rank scripts)
    (calls : sessions.calls session = .ok update :: rest)
    (inserting : sessions.world.phase session = .inserting found) :
    World.KeyFree session (update.newRow zone found) sessions.world.heap := by
  have isNew := ranked.isNew session (by rw [inserting]; exact id) update
    (by rw [inserting, calls]; exact List.mem_cons_self)
  intro other member claimed respected same
  exact respected_ne isNew other member claimed respected (RateRow.origin_of_key same)

theorem not_keyHeld {other : Session} {row : RateRow} {slots : Heap Session RateRow}
    (free : World.KeyFree session row slots) : ¬ KeyHeld session other row slots := by
  rintro ⟨slot, member, _, claimed, respected, same⟩
  exact free slot member claimed respected same

/-- Who waits has come to a row of its pair that the other one has written. -/
theorem Sessions.Ranked.waitsFor_written (ranked : sessions.Ranked rank scripts) {other : Session}
    (waits : sessions.WaitsFor zone session other) :
    ∃ update rest found index later origin,
      sessions.calls session = .ok update :: rest ∧
      sessions.world.phase session = .updating found (index :: later) ∧
      Written RateRow.origin sessions.world.heap index other origin ∧
      origin.1 = update.pair := by
  obtain ⟨_, waits⟩ := waits
  split at waits
  · rename_i update rest found index later calls updating
    obtain ⟨slot, isSlot, locked | ⟨row, isSeen, _, held⟩⟩ := waits
    · obtain ⟨version, pending⟩ := locked
      have written : Written RateRow.origin sessions.world.heap index other version.origin :=
        ⟨slot, version, isSlot, pending, rfl⟩
      refine ⟨update, rest, found, index, later, version.origin, calls, updating, written, ?_⟩
      exact ranked.located session update rest calls index
        (by rw [updating]; exact List.mem_cons_self) _ written.stands
    · exact absurd held (not_keyHeld (ranked.keyFree_edit isSlot isSeen))
  · rename_i update rest found calls inserting
    exact absurd waits (not_keyHeld (ranked.keyFree_newRow calls inserting))
  · exact absurd waits id

/-- Who is waited for is further on. -/
theorem Sessions.Ranked.further (ranked : sessions.Ranked rank scripts) (session other : Session)
    (waits : sessions.WaitsFor zone session other) :
    place rank (sessions.calls session) (sessions.world.phase session) <
      place rank (sessions.calls other) (sessions.world.phase other) := by
  obtain ⟨update, rest, found, index, later, origin, calls, updating, written, isPair⟩ :=
    ranked.waitsFor_written waits
  have passed := ranked.passed other index origin written
  rwa [isPair, ← place_updating, ← updating, ← calls] at passed

def Sessions.holders (sessions : Sessions) : Finset Session :=
  (sessions.world.heap.filterMap fun slot => slot.pending.map Prod.fst).toFinset

theorem Sessions.mem_holders_iff :
    session ∈ sessions.holders ↔
      ∃ index origin, Written RateRow.origin sessions.world.heap index session origin := by
  unfold Sessions.holders
  rw [List.mem_toFinset, List.mem_filterMap]
  constructor
  · rintro ⟨slot, member, isOwner⟩
    obtain ⟨⟨_, row⟩, pending, rfl⟩ := Option.map_eq_some_iff.mp isOwner
    obtain ⟨index, inside, isSlot⟩ := List.mem_iff_getElem.mp member
    exact ⟨index, row.origin, slot, row, List.getElem?_eq_some_iff.mpr ⟨inside, isSlot⟩, pending,
      rfl⟩
  · rintro ⟨index, origin, slot, row, located, pending, _⟩
    exact ⟨slot, List.mem_of_getElem? located, by rw [pending]; rfl⟩

/-- Who waits is led to an open session that does not. -/
theorem Sessions.Ranked.exists_free (ranked : sessions.Ranked rank scripts)
    (isOpen : ¬ (sessions.world.phase session).Ended) :
    ∃ next, ReflTransGen (sessions.WaitsFor zone) session next ∧
      (∀ other, ¬ sessions.WaitsFor zone next other) ∧
      ¬ (sessions.world.phase next).Ended := by
  have held : ∀ waiting other, sessions.WaitsFor zone waiting other → other ∈ sessions.holders := by
    intro waiting other waits
    obtain ⟨_, _, _, _, _, _, _, _, written, _⟩ := ranked.waitsFor_written waits
    exact Sessions.mem_holders_iff.mpr ⟨_, _, written⟩
  obtain ⟨next, chain, free⟩ := Waiting.exists_free ranked.further sessions.holders held session
  refine ⟨next, chain, free, ?_⟩
  rcases ReflTransGen.cases_tail chain with rfl | ⟨before, _, waits⟩
  · exact isOpen
  · obtain ⟨_, _, _, index, _, origin, _, _, written, _⟩ := ranked.waitsFor_written waits
    exact ranked.holding next index origin written

theorem Sessions.Ranked.unhindered (ranked : sessions.Ranked rank scripts)
    (isOpen : ¬ (sessions.world.phase session).Ended)
    (free : ∀ other, ¬ sessions.WaitsFor zone session other)
    (sound : ¬ sessions.Raises currency session) :
    sessions.Unhindered zone currency session where
  begun := ranked.begun session isOpen
  readable call rest calls := by
    cases call with
    | ok update => exact ⟨update, rfl⟩
    | error failure =>
        refine absurd ?_ sound
        unfold Sessions.Raises
        rw [calls]
        trivial
  takes update rest found index later calls updating := by
    have inside := ranked.inside session index (by rw [updating]; exact List.mem_cons_self)
    have isSlot := List.getElem?_eq_getElem inside
    refine ⟨_, isSlot, fun version pending => ?_, fun row isSeen _ =>
      ranked.keyFree_edit isSlot isSeen⟩
    by_contra foreign
    refine free version.1 ⟨foreign, ?_⟩
    rw [calls, updating]
    exact ⟨_, isSlot, .inl ⟨version.2, pending⟩⟩
  inserts update rest found calls inserting := by
    refine ⟨?_, ranked.keyFree_newRow calls inserting⟩
    by_contra unknown
    refine sound ?_
    unfold Sessions.Raises
    rw [calls, inserting]
    exact unknown

/-! ## Everybody can end -/

theorem Sessions.advance_written {turn : Turn}
    (success : sessions.advance zone currency turn = some after) {other : Session} {index : Nat}
    {origin : (Uuid × Uuid) × Timestamptz}
    (written : Written RateRow.origin after.world.heap index other origin) :
    Written RateRow.origin sessions.world.heap index other origin ∨ other = turn.session := by
  cases turn with
  | call event =>
      obtain ⟨update, rest, world, _, within, advanced, rfl⟩ := Sessions.advance_call success
      cases event with
      | select session found =>
          obtain ⟨_, _, rfl⟩ := World.advance_select advanced
          exact .inl written
      | startUpdate session =>
          obtain ⟨_, _, rfl⟩ := World.advance_startUpdate advanced
          exact .inl written
      | updateRow session place =>
          obtain ⟨_, _, _, _, _, isSlot, _, ⟨_, _, _, _, rfl⟩ | ⟨_, rfl⟩⟩ :=
            World.advance_updateRow advanced
          · exact (written_write isSlot written).imp_right fun new => new.2.1
          · exact .inl written
      | finishUpdate session =>
          obtain ⟨_, _, rfl⟩ := World.advance_finishUpdate advanced
          exact .inl written
      | insert session =>
          obtain ⟨_, _, _, _, rfl⟩ := World.advance_insert advanced
          exact (written_insert written).imp_right fun new => new.2.1
      | commit session => exact absurd within id
      | abort session => exact absurd within id
  | next session =>
      obtain ⟨_, _, _, _, _, rfl⟩ := Sessions.advance_next success
      exact .inl written
  | commit session =>
      obtain ⟨_, _, rfl⟩ := Sessions.advance_commit success
      exact .inl (written_map (fun _ _ => Slot.mem_pending_of_commit) written)
  | abort session =>
      obtain ⟨_, rfl⟩ := Sessions.advance_abort success
      exact .inl (written_map (fun _ _ => Slot.mem_pending_of_abort) written)

/-- The call cannot be made: it cannot be read, or its currencies are not all there. -/
def Impossible (currency : CurrencyTable) (call : Except PgError Update) : Prop :=
  ∀ update, call = .ok update → ¬ update.Known currency

theorem Sessions.Raises.impossible (raises : sessions.Raises currency session) :
    ∃ call ∈ sessions.calls session, Impossible currency call := by
  unfold Sessions.Raises at raises
  split at raises
  · rename_i failure rest calls
    exact ⟨.error failure, by rw [calls]; exact List.mem_cons_self, fun _ same => nomatch same⟩
  · rename_i update rest found calls inserting
    refine ⟨.ok update, by rw [calls]; exact List.mem_cons_self, fun _ same => ?_⟩
    cases same
    exact raises
  · exact absurd raises id

theorem Sessions.Ranked.less_abort (ranked : sessions.Ranked rank scripts)
    (isOpen : ¬ (sessions.world.phase session).Ended)
    (raises : sessions.Raises currency session) :
    Sessions.Less (({ sessions with world := sessions.world.abortOf session } : Sessions).left
      session) (sessions.left session) := by
  refine .right _ (.left _ _ ?_)
  have aborted : (sessions.world.abortOf session).phase session = .aborted :=
    Function.update_self _ _ _
  dsimp only
  rw [aborted]
  unfold Sessions.Raises at raises
  split at raises
  · rename_i failure rest calls
    have idle : sessions.world.phase session = .idle := by
      by_contra begun
      obtain ⟨update, others, isCalls⟩ := ranked.begun session isOpen begun
      rw [calls] at isCalls
      cases isCalls
    rw [idle]
    decide
  · rename_i update rest found calls inserting
    rw [inserting]
    exact Nat.one_pos
  · exact absurd raises id

variable (zone currency) in
/-- As long as a session is open somebody can take a step towards the end of its
transaction, or aborts because its call raises. -/
theorem Sessions.Ranked.progress (ranked : sessions.Ranked rank scripts)
    (isOpen : ¬ (sessions.world.phase session).Ended) :
    ∃ turn after, (turn.session = session ∨ turn.session ∈ sessions.holders) ∧
      sessions.advanceInOrder zone currency turn = some after ∧
      Sessions.Less (after.left turn.session) (sessions.left turn.session) ∧
      (after.world.phase turn.session = .aborted →
        ∃ call ∈ sessions.calls turn.session, Impossible currency call) := by
  obtain ⟨next, chain, free, nextOpen⟩ := ranked.exists_free isOpen
  have mine : next = session ∨ next ∈ sessions.holders := by
    rcases ReflTransGen.cases_tail chain with same | ⟨before, _, waits⟩
    · exact .inl same
    · obtain ⟨_, _, _, _, _, _, _, _, written, _⟩ := ranked.waitsFor_written waits
      exact .inr (Sessions.mem_holders_iff.mpr ⟨_, _, written⟩)
  by_cases raises : sessions.Raises currency next
  · refine ⟨.abort next, { sessions with world := sessions.world.abortOf next }, mine,
      Sessions.advanceInOrder_eq_some.mpr ⟨trivial, ?_⟩, ranked.less_abort nextOpen raises,
      fun _ => raises.impossible⟩
    simp [Sessions.advance, nextOpen]
  · obtain ⟨turn, after, rfl, first, possible, notAborted, less⟩ :=
      (ranked.unhindered nextOpen free raises).canGoOn nextOpen
    exact ⟨turn, after, mine, Sessions.advanceInOrder_eq_some.mpr ⟨first, possible⟩, less,
      fun aborted => absurd aborted notAborted⟩

variable (rank scripts currency) in
structure Sessions.Closing (parties : Finset Session) (sessions begun : Sessions) : Prop where
  ranked : sessions.Ranked rank scripts
  held : ∀ session index origin,
    Written RateRow.origin sessions.world.heap index session origin → session ∈ parties
  aborts : ∀ session, sessions.world.phase session = .aborted →
    begun.world.phase session = .aborted ∨ ∃ call ∈ scripts session, Impossible currency call

theorem Sessions.Closing.step {parties : Finset Session} {begun : Sessions}
    (closing : sessions.Closing rank scripts currency parties begun)
    (orderly : Orderly rank rows scripts) (zone : TimeZone) (member : session ∈ parties)
    (isOpen : ¬ (sessions.world.phase session).Ended) :
    ∃ turn after, ∃ party ∈ parties, sessions.advanceInOrder zone currency turn = some after ∧
      after.Closing rank scripts currency parties begun ∧
      Sessions.Less (after.left party) (sessions.left party) ∧
      ∀ other, other ≠ party → after.left other = sessions.left other := by
  obtain ⟨turn, after, mine, success, less, gaveUp⟩ :=
    closing.ranked.progress zone currency isOpen
  have possible := (Sessions.advanceInOrder_eq_some.mp success).2
  have isParty : turn.session ∈ parties := by
    rcases mine with same | holds
    · rw [same]
      exact member
    · obtain ⟨index, origin, written⟩ := Sessions.mem_holders_iff.mp holds
      exact closing.held _ index origin written
  refine ⟨turn, after, turn.session, isParty, success,
    ⟨closing.ranked.advance orderly success, ?_, ?_⟩, less, ?_⟩
  · intro other index origin written
    rcases Sessions.advance_written possible written with before | rfl
    · exact closing.held other index origin before
    · exact isParty
  · intro other aborted
    by_cases same : other = turn.session
    · subst same
      obtain ⟨call, called, impossible⟩ := gaveUp aborted
      exact .inr ⟨call, (closing.ranked.scripts _).subset called, impossible⟩
    · rw [(Sessions.advance_others possible same).2] at aborted
      exact closing.aborts other aborted
  · intro other differs
    obtain ⟨sameCalls, samePhase⟩ := Sessions.advance_others possible differs
    rw [Sessions.left, Sessions.left, sameCalls, samePhase]

variable (zone currency) in
theorem Sessions.Ranked.all_end (orderly : Orderly rank rows scripts)
    (ranked : sessions.Ranked rank scripts) (parties : Finset Session) :
    ∃ turns last, sessions.runInOrder zone currency turns = some last ∧
      ∀ session ∈ parties, (last.world.phase session).Ended ∧
        (last.world.phase session = .aborted →
          sessions.world.phase session = .aborted ∨
            ∃ call ∈ scripts session, Impossible currency call) := by
  obtain ⟨turns, last, runs, closing, ended⟩ := all_done Sessions.less_wellFounded Sessions.left
    (fun reached => reached.Closing rank scripts currency (parties ∪ sessions.holders) sessions)
    (fun reached session => (reached.world.phase session).Ended) (parties ∪ sessions.holders)
    (fun before closing waiting member isOpen => closing.step orderly zone member isOpen)
    ⟨ranked, fun session index origin written =>
      Finset.mem_union_right _ (Sessions.mem_holders_iff.mpr ⟨index, origin, written⟩),
      fun _ => .inl⟩
  exact ⟨turns, last, runs, fun session member =>
    ⟨ended session (Finset.mem_union_left _ member), closing.aborts session⟩⟩

end

/-! ## Transactions -/

/-- `jsonb` keeps the keys of an object in an order of its own. -/
def Runtime.SortsKeys {Place : Type} [LT Place] (keyPlace : String → Place) (runtime : Runtime) :
    Prop :=
  ∀ response fields name entries, runtime.Parses response fields →
    Jsonb.field name fields = some (.object entries) →
      (entries.map Prod.fst).Pairwise fun key next => keyPlace key < keyPlace next

def CurrencyTable.codePlace {Place : Type} (currency : CurrencyTable) (keyPlace : String → Place)
    (pair : Uuid × Uuid) : WithBot Place :=
  match Keyed.find Currency.id currency.rows pair.2 with
  | some row => (keyPlace row.code : WithBot Place)
  | none => ⊥

section
variable {Place : Type} {keyPlace : String → Place} {currency : CurrencyTable}

theorem CurrencyTable.codePlace_of_selectId {code : String} {id : Uuid}
    (known : currency.selectId (some code) = some id) (base : Uuid) :
    currency.codePlace keyPlace (base, id) = (keyPlace code : WithBot Place) := by
  obtain ⟨row, member, isCode, isId⟩ := currency.selectId_eq_some known
  have found := (Keyed.find_eq_some currency.idUnique).mpr ⟨member, isId⟩
  rw [codePlace, found, Option.some.inj isCode]

variable [LinearOrder Place]

theorem attempts_ascending (context : Context) (uCurrencyFrom : Uuid)
    {entries : List (String × Option String)}
    (sorted : (entries.map Prod.fst).Pairwise fun key next => keyPlace key < keyPlace next) :
    ((attempts (entryUpdate context uCurrencyFrom) entries).filterMap Except.toOption).Pairwise
      fun earlier later => context.currency.codePlace keyPlace earlier.pair <
        context.currency.codePlace keyPlace later.pair := by
  have isPlaced : ∀ e update, entryUpdate context uCurrencyFrom e = .ok (some update) →
      context.currency.codePlace keyPlace update.pair = (keyPlace e.1 : WithBot Place) := by
    intro e update isRead
    obtain ⟨uCurrencyTo, _, known, _, rfl⟩ := entryUpdate_eq_some.mp isRead
    exact CurrencyTable.codePlace_of_selectId known uCurrencyFrom
  rw [List.pairwise_map] at sorted
  induction entries with
  | nil => exact List.Pairwise.nil
  | cons e rest ih =>
      obtain ⟨first, sorted⟩ := List.pairwise_cons.mp sorted
      rw [attempts_cons, List.filterMap_append]
      cases head : entryUpdate context uCurrencyFrom e with
      | error failure => exact ih sorted
      | ok act =>
          cases act with
          | none => exact ih sorted
          | some update =>
              refine List.pairwise_cons.mpr ⟨fun later member => ?_, ih sorted⟩
              obtain ⟨attempt, attemptMember, isLater⟩ := List.mem_filterMap.mp member
              cases attempt with
              | error failure => cases isLater
              | ok attempt =>
                  cases isLater
                  obtain ⟨next, nextMember, isRead⟩ := mem_attempts.mp attemptMember
                  rw [isPlaced e update head, isPlaced next later isRead]
                  exact WithBot.coe_lt_coe.mpr (first next nextMember)

theorem jsonbEachText_sorted {runtime : Runtime} (sorts : runtime.SortsKeys keyPlace)
    {response : Option (List UInt8)} {r : Reply} (decoded : decodeReply runtime response = .ok r)
    (based : r.base ≠ none) {entries : List (String × Option String)}
    (each : jsonbEachText r.rates = .ok entries) :
    (entries.map Prod.fst).Pairwise fun key next => keyPlace key < keyPlace next := by
  obtain ⟨fields, parses, record⟩ := decodeReply_object decoded based
  obtain ⟨_, _, _, rates⟩ := jsonbToRecord_object.mp record
  cases isRates : r.rates with
  | none =>
      rw [isRates] at each
      cases each
      exact List.Pairwise.nil
  | some json =>
      rw [isRates] at each rates
      cases json with
      | object inner =>
          cases each
          have found := Jsonb.field_of_fieldJsonb rates.symm
          exact (entryTexts_keys inner).symm ▸ sorts response fields "rates" inner parses found
      | _ => cases each

def CodesAscend (currency : CurrencyTable) (keyPlace : String → Place)
    (calls : List (Except PgError Update)) : Prop :=
  (calls.filterMap Except.toOption).Pairwise fun earlier later =>
    currency.codePlace keyPlace earlier.pair < currency.codePlace keyPlace later.pair

theorem codesAscend_nil : CodesAscend currency keyPlace [] := List.Pairwise.nil

theorem codesAscend_singleton (attempt : Except PgError Update) :
    CodesAscend currency keyPlace [attempt] := by
  cases attempt with
  | error failure => exact List.Pairwise.nil
  | ok update => exact List.pairwise_singleton _ _

theorem replyCalls_codesAscend (context : Context) (f : Fetch)
    (sorts : context.runtime.SortsKeys keyPlace) :
    CodesAscend context.currency keyPlace (replyCalls context f) := by
  rcases replyCalls_cases context f with none | ⟨failure, one⟩ |
    ⟨r, uCurrencyFrom, entries, decoded, base, each, all⟩
  · exact none ▸ codesAscend_nil
  · exact one ▸ codesAscend_singleton _
  · have based : r.base ≠ none := by
      obtain ⟨_, _, given, _⟩ := CurrencyTable.selectId_eq_some base
      simp [given]
    rw [all]
    exact attempts_ascending context uCurrencyFrom
      (jsonbEachText_sorted sorts decoded based each)

theorem Transaction.calls_codesAscend {transaction : Transaction}
    (sorts : transaction.runtime.SortsKeys keyPlace) :
    CodesAscend currency keyPlace (transaction.calls currency) := by
  unfold Transaction.calls
  cases transaction.statement with
  | updateRate pCurrencyFrom pCurrencyTo pValue pDateFrom => exact codesAscend_singleton _
  | updateRateNow pCurrencyFrom pCurrencyTo pValue => exact codesAscend_singleton _
  | exchangeRateDone pRequest => exact replyCalls_codesAscend (transaction.context currency) _ sorts
  | _ => exact codesAscend_nil

end

/-- Transactions on the rates in one time zone.  Their replies have the keys in one order,
and the rates that they give start where no other rate of the pair starts. -/
structure Contending {Place : Type} [LinearOrder Place] (keyPlace : String → Place)
    (zone : TimeZone) (database : Database) (transactions : Session → Transaction) : Prop where
  sameZone : ∀ session, (transactions session).zone = zone
  onRates : ∀ session, (transactions session).OnRates
  sorts : ∀ session, (transactions session).runtime.SortsKeys keyPlace
  moments : ∀ session other, session ≠ other → ∀ update update',
    .ok update ∈ (transactions session).calls database.currency →
    .ok update' ∈ (transactions other).calls database.currency →
      update.pair = update'.pair → update.date ≠ update'.date
  starts : ∀ session update, .ok update ∈ (transactions session).calls database.currency →
    ∀ row ∈ database.rate.rows, row.pair = update.pair → row.validFromDate ≠ update.date
  distinct : (database.rate.rows.map fun row => (row.pair, row.validFromDate)).Nodup

section
variable {Place : Type} [LinearOrder Place] {keyPlace : String → Place} {zone : TimeZone}
variable {database : Database} {transactions : Session → Transaction} {start : World}
variable {turns : List Turn} {reached : Sessions}

theorem Contending.orderly (contending : Contending keyPlace zone database transactions) :
    Orderly (database.currency.codePlace keyPlace) database.rate.rows
      fun session => (transactions session).calls database.currency where
  ascending session := Transaction.calls_codesAscend (contending.sorts session)
  own session other differs update update' called otherCalled same :=
    contending.moments session other differs update update' called otherCalled
      (congrArg Prod.fst same) (congrArg Prod.snd same)
  isNew session update called row member same :=
    contending.starts session update called row member (congrArg Prod.fst same)
      (congrArg Prod.snd same)
  distinct := contending.distinct

theorem Contending.ranked (contending : Contending keyPlace zone database transactions)
    (fresh : start.Fresh database.rate)
    (runs : (Sessions.opened start database.currency transactions).runInOrder zone
      database.currency turns = some reached) :
    reached.Ranked (database.currency.codePlace keyPlace)
      fun session => (transactions session).calls database.currency :=
  (fresh.ranked contending.orderly).run contending.orderly runs

end

/-- Transactions on the rates run side by side, and several may give the same pair.  Their
replies have the keys in one order, every `UPDATE` comes to its rows in one fixed order,
and no two rates of a pair start at one moment.  Wherever they all stand, they do not
wait for each other in a circle: whoever waits is led to an open transaction that waits
for nobody and can take its next step, unless its call raises. -/
theorem concurrent_transactions_never_deadlock {Place : Type} [LinearOrder Place]
    (keyPlace : String → Place) (zone : TimeZone) (database : Database)
    (transactions : Session → Transaction)
    (contending : Contending keyPlace zone database transactions)
    (start : World) (fresh : start.Fresh database.rate) (turns : List Turn) (reached : Sessions)
    (runs : (Sessions.opened start database.currency transactions).runInOrder zone
      database.currency turns = some reached) :
    (∀ session, ¬ TransGen (reached.WaitsFor zone) session session) ∧
      ∀ session, ¬ (reached.world.phase session).Ended →
        ∃ next, ReflTransGen (reached.WaitsFor zone) session next ∧
          ¬ (reached.world.phase next).Ended ∧
          (∀ other, ¬ reached.WaitsFor zone next other) ∧
          (reached.Raises database.currency next ∨
            ∃ turn after, turn.session = next ∧
              reached.advanceInOrder zone database.currency turn = some after ∧
              after.world.phase next ≠ .aborted) := by
  have ranked := contending.ranked fresh runs
  refine ⟨no_circle ranked.further, fun session isOpen => ?_⟩
  obtain ⟨next, chain, free, nextOpen⟩ := ranked.exists_free isOpen
  refine ⟨next, chain, nextOpen, free, ?_⟩
  by_cases raises : reached.Raises database.currency next
  · exact .inl raises
  · obtain ⟨turn, after, isNext, first, possible, notAborted, _⟩ :=
      (ranked.unhindered nextOpen free raises).canGoOn nextOpen
    exact .inr ⟨turn, after, isNext, Sessions.advanceInOrder_eq_some.mpr ⟨first, possible⟩,
      notAborted⟩

def twoRates : List (String × Jsonb) := [("EUR", .number 92 2), ("RUB", .number 96245026 6)]

theorem twoRates_uniqueKeys : (Jsonb.object twoRates).UniqueKeys :=
  uniqueKeys_of_scalars (by decide) (by simp [twoRates])

/-- Shorter keys first, keys of one length by their bytes. -/
def jsonbPlace (key : String) : Nat ×ₗ String := toLex (key.utf8ByteSize, key)

noncomputable def delivery (now : Timestamptz) (statement : Statement) : Transaction :=
  let context := replyContext (replyFields twoRates) (replyFields_uniqueKeys _ twoRates_uniqueKeys)
  ⟨context.runtime, .utc, context.httpFetch, .any, now, statement⟩

/-- The reply is delivered twice, a day apart. -/
noncomputable def twoDeliveries : Session → Transaction
  | 0 => delivery (.onDay 9001) (.exchangeRateDone 1)
  | 1 => delivery (.onDay 9002) (.exchangeRateDone 1)
  | _ => delivery (.onDay 9002) (.exchangeRateFail 1)

def twoDeliveriesCalls : Session → List (Except PgError Update)
  | 0 => [.ok ⟨usd.id, eur.id, .finite 92 2, .onDay 9001⟩,
      .ok ⟨usd.id, rub.id, .finite 96245026 6, .onDay 9001⟩]
  | 1 => [.ok ⟨usd.id, eur.id, .finite 92 2, .onDay 9002⟩,
      .ok ⟨usd.id, rub.id, .finite 96245026 6, .onDay 9002⟩]
  | _ => []

theorem twoDeliveries_calls :
    (fun session => (twoDeliveries session).calls .init) = twoDeliveriesCalls := by
  funext session
  match session with
  | 0 => rfl
  | 1 => rfl
  | _ + 2 => rfl

def euroRow : RateRow := ⟨usd.id, eur.id, .finite 91 2, .onDay 9000, TimeZone.utc.maxDate⟩

def rubleRow : RateRow := ⟨usd.id, rub.id, .finite 96 0, .onDay 9000, TimeZone.utc.maxDate⟩

def deliveredBefore : Database where
  currency := .init
  rate := ⟨{euroRow, rubleRow}, by decide⟩
  references := by
    intro row member
    simp only [Multiset.insert_eq_cons, Multiset.mem_cons, Multiset.mem_singleton] at member
    rcases member with rfl | rfl <;> decide

def deliveredWorld : World := ⟨[⟨some euroRow, none⟩, ⟨some rubleRow, none⟩], fun _ => .idle⟩

theorem deliveredWorld_fresh : deliveredWorld.Fresh deliveredBefore.rate :=
  ⟨fun _ => rfl, by decide, rfl⟩

theorem delivery_sorts (now : Timestamptz) (statement : Statement) :
    (delivery now statement).runtime.SortsKeys jsonbPlace := by
  intro response fields name entries parses found
  obtain rfl : fields = replyFields twoRates := by
    obtain ⟨bytes, text, unique, _, _, parsed⟩ := parses
    simp only [delivery, replyContext, replyRuntime] at parsed
    split at parsed
    · exact (Jsonb.object.inj (congrArg Subtype.val (Except.ok.inj parsed))).symm
    · cases parsed
  obtain rfl : entries = twoRates := by
    have member := Jsonb.mem_of_field found
    simp only [replyFields, List.mem_cons, Prod.mk.injEq, reduceCtorEq, Jsonb.object.injEq,
      and_false, false_or, List.not_mem_nil, or_false] at member
    exact member.2
  refine List.pairwise_pair.mpr (Prod.Lex.toLex_lt_toLex.mpr (.inr ⟨rfl, ?_⟩))
  decide

theorem mem_twoDeliveriesCalls {session : Session} {update : Update}
    (called : .ok update ∈ twoDeliveriesCalls session) :
    session = 0 ∧ update.date = .onDay 9001 ∨ session = 1 ∧ update.date = .onDay 9002 := by
  unfold twoDeliveriesCalls at called
  split at called
  · simp only [List.mem_cons, Except.ok.injEq, List.not_mem_nil, or_false] at called
    exact .inl ⟨rfl, by rcases called with rfl | rfl <;> rfl⟩
  · simp only [List.mem_cons, Except.ok.injEq, List.not_mem_nil, or_false] at called
    exact .inr ⟨rfl, by rcases called with rfl | rfl <;> rfl⟩
  · exact absurd called List.not_mem_nil

theorem twoDeliveries_contending : Contending jsonbPlace .utc deliveredBefore twoDeliveries := by
  have calls : ∀ session, (twoDeliveries session).calls deliveredBefore.currency =
      twoDeliveriesCalls session := fun session => congrFun twoDeliveries_calls session
  refine ⟨fun session => ?_, fun session => ?_, fun session => ?_, ?_, ?_, by decide⟩
  · unfold twoDeliveries
    split <;> rfl
  · unfold twoDeliveries
    split <;> trivial
  · unfold twoDeliveries
    split <;> exact delivery_sorts _ _
  · intro session other differs update update' called otherCalled _
    rw [calls] at called otherCalled
    rcases mem_twoDeliveriesCalls called with ⟨rfl, date⟩ | ⟨rfl, date⟩ <;>
      rcases mem_twoDeliveriesCalls otherCalled with ⟨rfl, otherDate⟩ | ⟨rfl, otherDate⟩
    · exact absurd rfl differs
    · rw [date, otherDate]
      decide
    · rw [date, otherDate]
      decide
    · exact absurd rfl differs
  · intro session update called row member _
    have isRow : row = euroRow ∨ row = rubleRow := by
      simpa [deliveredBefore] using member
    have given : row.validFromDate = .onDay 9000 := by
      rcases isRow with rfl | rfl <;> rfl
    rw [calls] at called
    rw [given]
    rcases mem_twoDeliveriesCalls called with ⟨_, date⟩ | ⟨_, date⟩
    · rw [date]
      decide
    · rw [date]
      decide

/-- The second delivery has begun its `UPDATE` when the first one writes the row of EUR. -/
def waitingTurns : List Turn :=
  [.call (.select 1 (some euroRow)), .call (.startUpdate 1), .call (.select 0 (some euroRow)),
    .call (.startUpdate 0), .call (.updateRow 0 0), .call (.finishUpdate 0), .call (.insert 0),
    .next 0]

theorem waitingTurns_possible : ∃ reached,
    (Sessions.opened deliveredWorld deliveredBefore.currency twoDeliveries).runInOrder .utc
        deliveredBefore.currency waitingTurns = some reached ∧
      reached.WaitsFor .utc 1 0 ∧ ∀ session < 2, ¬ (reached.world.phase session).Ended := by
  have possible : (Sessions.runInOrder .utc .init ⟨deliveredWorld, twoDeliveriesCalls⟩
      waitingTurns).isSome = true := by decide
  obtain ⟨reached, runs⟩ := Option.isSome_iff_exists.mp possible
  have outcome : ∀ sessions ∈ Sessions.runInOrder .utc .init ⟨deliveredWorld, twoDeliveriesCalls⟩
      waitingTurns, sessions.calls 1 = twoDeliveriesCalls 1 ∧
        sessions.world.phase 1 = .updating (some euroRow) [0] ∧
        (sessions.world.heap[0]?).bind Slot.pending =
          some (0, { euroRow with validToDate := .onDay 9001 }) ∧
        ∀ session < 2, ¬ (sessions.world.phase session).Ended := by decide
  obtain ⟨calls, updating, locked, areOpen⟩ := outcome reached runs
  obtain ⟨slot, isSlot, pending⟩ := Option.bind_eq_some_iff.mp locked
  refine ⟨reached, ?_, ⟨by decide, ?_⟩, areOpen⟩
  · rw [Sessions.opened, show deliveredBefore.currency = .init from rfl, twoDeliveries_calls]
    exact runs
  · rw [calls, updating]
    exact ⟨slot, isSlot, .inl ⟨_, pending⟩⟩

/-- The second delivery waits for the first one, which can go on. -/
theorem second_delivery_waits : ∃ reached,
    (Sessions.opened deliveredWorld deliveredBefore.currency twoDeliveries).runInOrder .utc
        deliveredBefore.currency waitingTurns = some reached ∧
      reached.WaitsFor .utc 1 0 ∧ ¬ TransGen (reached.WaitsFor .utc) 0 0 ∧
      ∃ next, ReflTransGen (reached.WaitsFor .utc) 1 next ∧
        ∀ other, ¬ reached.WaitsFor .utc next other := by
  obtain ⟨reached, runs, waits, areOpen⟩ := waitingTurns_possible
  obtain ⟨noCircle, goesOn⟩ := concurrent_transactions_never_deadlock jsonbPlace .utc
    deliveredBefore twoDeliveries twoDeliveries_contending deliveredWorld deliveredWorld_fresh
    waitingTurns reached runs
  obtain ⟨next, chain, _, free, _⟩ := goesOn 1 (areOpen 1 (by decide))
  exact ⟨reached, runs, waits, noCircle 0, next, chain, free⟩

/-- From wherever they all stand, they can all come to an end, and none has to abort that
makes only calls that can be read and name known currencies. -/
theorem concurrent_transactions_can_all_end {Place : Type} [LinearOrder Place]
    (keyPlace : String → Place) (zone : TimeZone) (database : Database)
    (transactions : Session → Transaction)
    (contending : Contending keyPlace zone database transactions)
    (start : World) (fresh : start.Fresh database.rate) (turns : List Turn) (reached : Sessions)
    (runs : (Sessions.opened start database.currency transactions).runInOrder zone
      database.currency turns = some reached) (parties : Finset Session) :
    ∃ more last, reached.runInOrder zone database.currency more = some last ∧
      ∀ session ∈ parties, ¬ (reached.world.phase session).Ended →
        last.world.phase session = .committed ∨
          last.world.phase session = .aborted ∧
            ∃ call ∈ (transactions session).calls database.currency,
              Impossible database.currency call := by
  have ranked := contending.ranked fresh runs
  obtain ⟨more, last, goesOn, ended⟩ :=
    ranked.all_end zone database.currency contending.orderly parties
  refine ⟨more, last, goesOn, fun session member isOpen => ?_⟩
  obtain ⟨isOver, aborts⟩ := ended session member
  cases outcome : last.world.phase session with
  | committed => exact .inl rfl
  | aborted =>
      refine .inr ⟨rfl, (aborts outcome).resolve_left fun before => isOpen ?_⟩
      rw [before]
      trivial
  | _ =>
      rw [outcome] at isOver
      exact absurd isOver id

/-- Both deliveries can be committed. -/
theorem waiting_deliveries_can_end : ∃ reached more last,
    (Sessions.opened deliveredWorld deliveredBefore.currency twoDeliveries).runInOrder .utc
        deliveredBefore.currency waitingTurns = some reached ∧
      reached.WaitsFor .utc 1 0 ∧
      reached.runInOrder .utc deliveredBefore.currency more = some last ∧
      ∀ session < 2, last.world.phase session = .committed := by
  obtain ⟨reached, runs, waits, areOpen⟩ := waitingTurns_possible
  obtain ⟨more, last, goesOn, ended⟩ := concurrent_transactions_can_all_end jsonbPlace .utc
    deliveredBefore twoDeliveries twoDeliveries_contending deliveredWorld deliveredWorld_fresh
    waitingTurns reached runs {0, 1}
  have calls : ∀ session, (twoDeliveries session).calls deliveredBefore.currency =
      twoDeliveriesCalls session := fun session => congrFun twoDeliveries_calls session
  have possible : ∀ session < 2, ∀ call ∈ twoDeliveriesCalls session,
      ∃ update, call = .ok update ∧ update.Known deliveredBefore.currency := by
    intro session below call member
    match session with
    | 0 | 1 =>
        simp only [twoDeliveriesCalls, List.mem_cons, List.not_mem_nil, or_false] at member
        rcases member with rfl | rfl <;> exact ⟨_, rfl, by decide⟩
  refine ⟨reached, more, last, runs, waits, goesOn, fun session below => ?_⟩
  have isParty : session ∈ ({0, 1} : Finset Session) := by
    match session with
    | 0 | 1 => decide
  refine (ended session isParty (areOpen session below)).resolve_right ?_
  rintro ⟨_, call, called, impossible⟩
  rw [calls] at called
  obtain ⟨update, isUpdate, known⟩ := possible session below call called
  exact impossible update isUpdate known

end ApostolRates
