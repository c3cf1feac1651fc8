import ApostolRates.Library.ThreeValued
import ApostolRates.Model.Types
import Mathlib.Data.List.Nodup

/-!
# The currency table

`public.currency` with its primary key and its unique index on `code`, and the
look-up of an id by a code.
-/

set_option autoImplicit false

namespace ApostolRates

open ThreeValued

structure Currency where
  id : Uuid
  code : String
  name : String
  deriving DecidableEq, Repr

structure CurrencyTable where
  rows : List Currency
  idUnique : (rows.map Currency.id).Nodup
  codeUnique : (rows.map Currency.code).Nodup

/-! The currencies of `init.sql`. -/

def rub : Currency := ⟨0x0000000000004000b001000000000810#128, "RUB", "Рубль"⟩

def usd : Currency := ⟨0x0000000000004000b001000000000840#128, "USD", "Доллар США"⟩

def eur : Currency := ⟨0x0000000000004000b001000000000978#128, "EUR", "Euro"⟩

def btc : Currency := ⟨0x0000000000004000b001100000000001#128, "BTC", "Bitcoin"⟩

namespace CurrencyTable

def References (currency : CurrencyTable) (id : Uuid) : Prop := id ∈ currency.rows.map Currency.id

instance (currency : CurrencyTable) (id : Uuid) : Decidable (currency.References id) :=
  inferInstanceAs (Decidable (id ∈ currency.rows.map Currency.id))

/-- `SELECT id FROM public.currency WHERE code = pCode`. -/
def selectId (currency : CurrencyTable) (pCode : Option String) : Option Uuid :=
  (currency.rows.find? fun row => decide (Holds (equal (some row.code) pCode))).map Currency.id

variable {currency : CurrencyTable}

theorem selectId_eq_some {pCode : Option String} {id : Uuid}
    (found : currency.selectId pCode = some id) :
    ∃ row ∈ currency.rows, pCode = some row.code ∧ row.id = id := by
  obtain ⟨row, rowFound, rfl⟩ := Option.map_eq_some_iff.mp found
  have member := List.mem_of_find?_eq_some rowFound
  have holds := List.find?_some rowFound
  simp only [decide_eq_true_eq, holds_equal, Option.some.injEq] at holds
  obtain ⟨code, same, given⟩ := holds
  exact ⟨row, member, by rw [given, same], rfl⟩

theorem selectId_references {pCode : Option String} {id : Uuid}
    (found : currency.selectId pCode = some id) : currency.References id := by
  obtain ⟨row, member, _, rfl⟩ := selectId_eq_some found
  exact List.mem_map_of_mem member

theorem selectId_injective {left right : String} {id : Uuid}
    (leftFound : currency.selectId (some left) = some id)
    (rightFound : currency.selectId (some right) = some id) : left = right := by
  obtain ⟨a, aMember, aCode, aId⟩ := selectId_eq_some leftFound
  obtain ⟨b, bMember, bCode, bId⟩ := selectId_eq_some rightFound
  have same : a = b :=
    List.inj_on_of_nodup_map currency.idUnique aMember bMember (aId.trans bId.symm)
  rw [Option.some.inj aCode, Option.some.inj bCode, same]

/-- `public.currency` as `init.sql` fills it. -/
def init : CurrencyTable := ⟨[rub, usd, eur, btc], by decide, by decide⟩

end CurrencyTable

end ApostolRates
