import CurrencyConverter.AppState
import CurrencyConverter.DecimalText

/-! `ExchangeCell` and `DataManager`: what the amount field does with a text, and how a
cell is filled. -/
namespace CurrencyConverter
open JSONTree

namespace ExchangeCell

/-- The text field is all that a reused cell clears. -/
def prepareForReuse (cell : ExchangeCell) : ExchangeCell := { cell with valueTextField := [] }

/-- `stringByReplacingOccurrencesOfString:` of `-` and of a blank by nothing. -/
def strippedText (text : NSString) : NSString :=
  (text.filter (fun c => c ≠ '-')).filter (fun c => c ≠ ' ')

/-- `value.floatValue`, zero for nil. -/
def enteredValue (text : Option NSString) : ℚ :=
  text.elim 0 (fun text => DecimalText.floatValue (strippedText text))

/-- `[NSString stringWithFormat:@"- %@", value]`, which writes nil as `(null)`. -/
def enteredText (text : Option NSString) : NSString :=
  "- ".toList ++ text.elim "(null)".toList strippedText

end ExchangeCell

/-- `floatValue` of what a dictionary lookup answered. -/
def entryFloatValue : Option JSON → Except NSException ℚ
  | none => .ok 0
  | some (.string s) => .ok (DecimalText.floatValue s)
  | some (.number q) => .ok q
  | some (.bool b) => .ok (if b then 1 else 0)
  | some _ => .error .unrecognizedSelector

section
variable {Data : Type} [JSONSerialization Data]

/-- The lookup both `DataManager` and `ViewController` make: decode the rates, subscript
by the currency string, take `floatValue`. -/
def rateFor (rates : Option Data) (currencyString : Option NSString) :
    Except NSException ℚ := do
  match ← jsonObjectWithData rates with
  | none => return 0
  | some json => entryFloatValue (← json.objectForKeyedSubscript currencyString)

inductive ViewTag where
  | top
  | bottom
  deriving DecidableEq

namespace DataManager

/-- The amount field of a bottom cell that has just been dequeued. -/
def bottomText (same : Bool) (realm : Realm Data) (dataManager : DataManager)
    (currencyString : NSString) : Except NSException NSString :=
  match dataManager.selectedTopCurrency.bind realm.rateList with
  | none => .ok []
  | some rateList =>
    if identical same dataManager.selectedTopCurrency (some currencyString) then
      -- returned before any rate is read
      .ok "-".toList
    else do
      let rate ← rateFor (some rateList.rates) (some currencyString)
      return DecimalText.twoDecimals (dataManager.valueForExchange * rate)

def cellForItemAtIndexPath (view : ViewTag) (same : Bool) (realm : Realm Data)
    (dataManager : DataManager) (dequeued : ExchangeCell) (row : ℕ) :
    Except NSException ExchangeCell :=
  match dataManager.currencies[row]? with
  | none => .error .range
  | some currencyString => do
    let cell := dequeued.prepareForReuse
    let symbol ← Currency.returnCurrencySymbol currencyString
    let balance := DecimalText.twoDecimals (realm.amount currencyString)
    let cell := { cell with
      tag := row
      currencyLabel := currencyString
      balanceLabel := "You have ".toList ++ symbol ++ " ".toList ++ balance }
    match view with
    -- a top cell keeps the text the reuse has cleared
    | .top => return cell
    | .bottom =>
      let text ← bottomText same realm dataManager currencyString
      return { cell with valueTextField := text }

/-- `self.currencies[index]`, which raises beyond the bounds. -/
def currencyAtIndex (dataManager : DataManager) (index : ℕ) : Except NSException NSString :=
  match dataManager.currencies[index]? with
  | none => .error .range
  | some currencyString => .ok currencyString

def selectTopCurrencyAtIndex (dataManager : DataManager) (index : ℕ) :
    Except NSException DataManager := do
  let currency ← dataManager.currencyAtIndex index
  return { dataManager with selectedTopCurrency := some currency }

def selectBottomCurrencyAtIndex (dataManager : DataManager) (index : ℕ) :
    Except NSException DataManager := do
  let currency ← dataManager.currencyAtIndex index
  return { dataManager with selectedBottomCurrency := some currency }

def isCurrenciesEqual (same : Bool) (dataManager : DataManager) : Bool :=
  identical same dataManager.selectedTopCurrency dataManager.selectedBottomCurrency

end DataManager

end

end CurrencyConverter
