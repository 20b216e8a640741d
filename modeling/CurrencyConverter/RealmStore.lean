import CurrencyConverter.JSONTree
import CurrencyConverter.KeyedRows
import Mathlib.Data.List.Sort

/-! The persistent store: `Currency` rows, `RateList` rows and the links between them.
A managed `Currency` object is an accessor of a row and is modelled by the row's
primary key. -/
namespace CurrencyConverter
open JSONTree

/-- `a == b` on two string pointers. Equal characters in two objects may or may not be
one object (`same`); different characters never are, and nil is only nil. -/
def identical (same : Bool) : Option NSString → Option NSString → Bool
  | none, none => true
  | some a, some b => decide (a = b) && same
  | _, _ => false

theorem identical_some (same : Bool) (a b : NSString) :
    identical same (some a) (some b) = true ↔ a = b ∧ same = true := by
  simp [identical]

/-- Amounts are exact rationals; `rateList` is the row number of the linked object. -/
structure Currency where
  index : ℤ
  currencyString : NSString
  amount : ℚ
  rateList : Option ℕ

namespace Currency

def initWithIndex (index : ℤ) (currencyString : NSString) (amount : ℚ) : Currency :=
  { index, currencyString, amount, rateList := none }

def allCurrencies : List NSString := ["EUR".toList, "USD".toList, "GBP".toList]

def symbols : List NSString := ["€".toList, "$".toList, "£".toList]

/-- `objectAtIndex:` raises when `indexOfObject:` found nothing. -/
def returnCurrencySymbol (currencyString : NSString) : Except NSException NSString :=
  match symbols[allCurrencies.idxOf currencyString]? with
  | some symbol => .ok symbol
  | none => .error .range

end Currency

/-- A stored rate list. -/
structure RateList (Data : Type) where
  base : Option NSString
  rates : Data

/-- A rate list outside the store: `base` still holds whatever object came in. -/
structure UnmanagedRateList (Data : Type) where
  base : Option JSON
  rates : Data

namespace UnmanagedRateList
variable {Data : Type} [JSONSerialization Data]

def initWithAttributes (attributes : Option JSON) :
    Except NSException (UnmanagedRateList Data) := do
  let base ← valueForKeyPath attributes "base".toList
  let rates ← valueForKeyPath attributes "rates".toList
  let data ← dataWithJSONObject rates
  return { base, rates := data }

/-- `isEqual:` against the stored list, nil included; pointers on `base`, bytes on `rates`. -/
def isEqual (same : Bool) (rateList : UnmanagedRateList Data)
    (stored : Option (RateList Data)) : Bool :=
  let sameBase := match rateList.base with
    | none => identical same none (stored.bind RateList.base)
    | some (.string s) => identical same (some s) (stored.bind RateList.base)
    -- an object of another class is never the stored string
    | some _ => false
  match stored with
  | none => false
  | some other => sameBase && isEqualToData rateList.rates other.rates

/-- Inserting the object as a row: NSNull becomes nil, and an object that is no string
does not answer the store's request for its characters. -/
def addToRealm (rateList : UnmanagedRateList Data) : Except NSException (RateList Data) :=
  match rateList.base with
  | none => .ok { base := none, rates := rateList.rates }
  | some .null => .ok { base := none, rates := rateList.rates }
  | some (.string s) => .ok { base := some s, rates := rateList.rates }
  | some _ => .error .unrecognizedSelector

end UnmanagedRateList

/-- Primary keys are unique and every link points at a row. -/
@[ext] structure Realm (Data : Type) where
  currencies : List Currency
  rateLists : List (RateList Data)
  primaryKey : (currencies.map Currency.currencyString).Nodup
  links : ∀ c ∈ currencies, ∀ row, c.rateList = some row → row < rateLists.length

namespace Realm
variable {Data : Type}

def empty : Realm Data :=
  { currencies := [], rateLists := [], primaryKey := List.nodup_nil, links := by simp }

def keys (realm : Realm Data) : List NSString := realm.currencies.map Currency.currencyString

def find (realm : Realm Data) (key : NSString) : Option Currency :=
  KeyedRows.find Currency.currencyString key realm.currencies

/-- A message to nil answers zero. -/
def amount (realm : Realm Data) (key : NSString) : ℚ := (realm.find key).elim 0 Currency.amount

def rateList (realm : Realm Data) (key : NSString) : Option (RateList Data) :=
  (realm.find key).bind (fun c => c.rateList.bind (fun row => realm.rateLists[row]?))

/-- `[[Currency allObjects] sortedResultsUsingKeyPath:@"index" ascending:YES]`. -/
def sortedKeys (realm : Realm Data) : List NSString :=
  (realm.currencies.insertionSort (fun a b => a.index ≤ b.index)).map Currency.currencyString

/-- `currency.amount += delta`. -/
def addAmount (realm : Realm Data) (key : NSString) (delta : ℚ) : Realm Data where
  currencies := KeyedRows.rewrite Currency.currencyString key
    (fun c => { c with amount := c.amount+delta }) realm.currencies
  rateLists := realm.rateLists
  primaryKey := by
    rw [KeyedRows.map_rewrite]
    · exact realm.primaryKey
    · intro _; rfl
  links := by
    intro c hc row hrow
    obtain ⟨d,hd,rfl⟩ := KeyedRows.mem_rewrite _ hc
    apply realm.links d hd row
    split at hrow <;> exact hrow

/-- `currency.rateList = rateList`: a new row, and the link pointed at it. The old
target stays in the store. -/
def setRateList (realm : Realm Data) (key : NSString) (rateList : RateList Data) :
    Realm Data where
  currencies := KeyedRows.rewrite Currency.currencyString key
    (fun c => { c with rateList := some realm.rateLists.length }) realm.currencies
  rateLists := realm.rateLists ++ [rateList]
  primaryKey := by
    rw [KeyedRows.map_rewrite]
    · exact realm.primaryKey
    · intro _; rfl
  links := by
    intro c hc row hrow
    obtain ⟨d,hd,rfl⟩ := KeyedRows.mem_rewrite _ hc
    rw [List.length_append, List.length_singleton]
    split at hrow
    -- the rewritten link points at the row just appended
    · cases hrow
      exact Nat.lt_succ_self _
    · exact Nat.lt_succ_of_lt (realm.links d hd row hrow)

section Rows
variable (realm : Realm Data) (key : NSString)

/-- The columns no write ever changes. -/
def codes (realm : Realm Data) : List (ℤ × NSString) :=
  realm.currencies.map (fun c => (c.index, c.currencyString))

theorem keys_eq_codes : realm.keys = realm.codes.map Prod.snd := by
  simp [keys, codes]

theorem sortedKeys_eq_codes : realm.sortedKeys =
    (realm.codes.insertionSort (fun a b => a.1 ≤ b.1)).map Prod.snd := by
  rw [codes, ← List.map_insertionSort (fun a b : Currency => a.index ≤ b.index)
    (fun a b : ℤ × NSString => a.1 ≤ b.1) (fun c => (c.index, c.currencyString))
    realm.currencies (fun _ _ _ _ => Iff.rfl)]
  simp [sortedKeys]

@[simp] theorem codes_addAmount (delta : ℚ) : (realm.addAmount key delta).codes = realm.codes :=
  KeyedRows.map_rewrite _ _ key realm.currencies (fun _ => rfl)

@[simp] theorem codes_setRateList (rateList : RateList Data) :
    (realm.setRateList key rateList).codes = realm.codes :=
  KeyedRows.map_rewrite _ _ key realm.currencies (fun _ => rfl)

theorem find_addAmount (delta : ℚ) (i : NSString) : (realm.addAmount key delta).find i =
    if i = key then (realm.find i).map (fun c => { c with amount := c.amount+delta })
    else realm.find i :=
  KeyedRows.find_rewrite _ key i realm.currencies (fun _ => rfl)

theorem find_setRateList (rateList : RateList Data) (i : NSString) :
    (realm.setRateList key rateList).find i =
      if i = key then
        (realm.find i).map (fun c => { c with rateList := some realm.rateLists.length })
      else realm.find i :=
  KeyedRows.find_rewrite _ key i realm.currencies (fun _ => rfl)

theorem find_of_mem_keys {i : NSString} (hi : i ∈ realm.keys) : ∃ c, realm.find i = some c :=
  KeyedRows.find_isSome _ hi

theorem amount_of_mem {realm : Realm Data} {c : Currency} (hc : c ∈ realm.currencies) :
    realm.amount c.currencyString = c.amount := by
  rw [amount, find, KeyedRows.find_of_mem _ realm.primaryKey hc]
  rfl

theorem mem_keys {realm : Realm Data} {c : Currency} (hc : c ∈ realm.currencies) :
    c.currencyString ∈ realm.keys := List.mem_map_of_mem hc

theorem amount_addAmount (delta : ℚ) {i : NSString} (hi : i ∈ realm.keys) :
    (realm.addAmount key delta).amount i = realm.amount i + if i = key then delta else 0 := by
  obtain ⟨c,hc⟩ := realm.find_of_mem_keys hi
  rw [amount, find_addAmount, amount, hc]
  split <;> simp

/-- A debit and a credit of the same amount to one row cancel. -/
theorem addAmount_addAmount_cancel (delta : ℚ) :
    (realm.addAmount key (-delta)).addAmount key delta = realm := by
  let debit (c : Currency) : Currency := { c with amount := c.amount + -delta }
  let credit (c : Currency) : Currency := { c with amount := c.amount+delta }
  have hboth := KeyedRows.rewrite_rewrite Currency.currencyString key credit (g := debit)
    realm.currencies (fun _ => rfl)
  apply Realm.ext
  · apply hboth.trans
    apply KeyedRows.rewrite_eq_self
    intro c
    simp only [credit, debit, neg_add_cancel_right]
  · rfl

@[simp] theorem amount_setRateList (rateList : RateList Data) (i : NSString) :
    (realm.setRateList key rateList).amount i = realm.amount i := by
  rw [amount, find_setRateList, amount]
  split
  · cases realm.find i <;> rfl
  · rfl

@[simp] theorem rateList_addAmount (delta : ℚ) (i : NSString) :
    (realm.addAmount key delta).rateList i = realm.rateList i := by
  rw [rateList, find_addAmount, rateList]
  split
  · cases realm.find i <;> rfl
  · rfl

theorem rateList_setRateList_self (rateList : RateList Data) (hkey : key ∈ realm.keys) :
    (realm.setRateList key rateList).rateList key = some rateList := by
  obtain ⟨c,hc⟩ := realm.find_of_mem_keys hkey
  rw [Realm.rateList, find_setRateList, hc]
  simp [setRateList]

/-- A new row leaves every other currency with the list it had. -/
theorem rateList_setRateList_of_ne (rateList : RateList Data) {i : NSString} (hi : i ≠ key) :
    (realm.setRateList key rateList).rateList i = realm.rateList i := by
  rw [Realm.rateList, find_setRateList, if_neg hi, Realm.rateList]
  cases hc : realm.find i with
  | none => rfl
  | some c =>
    cases hrow : c.rateList with
    | none => simp [hrow]
    | some row =>
      -- the linked row is an old one, and the new row is appended behind it
      have hlt := realm.links c (KeyedRows.find_mem _ hc) row hrow
      simp [hrow, setRateList, List.getElem?_append_left hlt]

theorem keys_setRateList (rateList : RateList Data) :
    (realm.setRateList key rateList).keys = realm.keys := by
  rw [keys_eq_codes, codes_setRateList, ← keys_eq_codes]

theorem keys_addAmount (delta : ℚ) : (realm.addAmount key delta).keys = realm.keys := by
  rw [keys_eq_codes, codes_addAmount, ← keys_eq_codes]

theorem rateList_none_of_not_mem {i : NSString} (hi : i ∉ realm.keys) :
    realm.rateList i = none := by
  rw [rateList, find, KeyedRows.find_none_of_not_mem _ hi]
  rfl

theorem amount_of_not_mem {i : NSString} (hi : i ∉ realm.keys) : realm.amount i = 0 := by
  rw [amount, find, KeyedRows.find_none_of_not_mem _ hi]
  rfl

end Rows

/-- The objects `firstEnterConfigurationIfNeeded` adds. -/
def seedCurrencies : List Currency :=
  [.initWithIndex 0 "EUR".toList 100, .initWithIndex 1 "USD".toList 100,
    .initWithIndex 2 "GBP".toList 100]

def firstEnterConfigurationIfNeeded (realm : Realm Data) : Realm Data :=
  if realm.currencies.length = 0 then
    { currencies := seedCurrencies
      rateLists := realm.rateLists
      primaryKey := by decide
      links := by simp [seedCurrencies, Currency.initWithIndex] }
  else realm

end Realm

end CurrencyConverter
