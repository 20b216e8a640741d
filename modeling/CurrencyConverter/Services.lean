import CurrencyConverter.Cells

/-! `StorageService`, the exchange in `ViewController`, and `RateListService`. -/
namespace CurrencyConverter
open JSONTree

variable {Data : Type}

namespace StorageService

def notEnoughMoney : NSError := ⟨"Error".toList, 200, "Not enough money".toList⟩

def canNotExchangeZero : NSError := ⟨"Error".toList, 200, "You can not exchange 0".toList⟩

/-- The write transaction: the source row first, then the target row, which may be the
same one. A nil target ignores the credit. -/
def commitTransfer (w : World Data) (transfer : Transfer) : World Data :=
  let debited := w.realm.addAmount transfer.source (-transfer.debit)
  let realm := transfer.target.elim debited (fun key => debited.addAmount key transfer.credit)
  { w with
    realm
    modifications := w.modifications ++ [transfer.source :: transfer.target.toList]
    history := .transferred transfer :: w.history }

def convertCurrency (currency : NSString) (amount : ℚ) (toCurrency : Option NSString)
    (toAmount : ℚ) : App Data Unit := do
  let w ← get
  if w.realm.amount currency - amount < 0 then
    set (w.record (.alerted notEnoughMoney))
  else if amount = 0 then
    set (w.record (.alerted canNotExchangeZero))
  else
    set (commitTransfer w ⟨currency, amount, toCurrency, toAmount⟩)

end StorageService

section
variable [JSONSerialization Data]

/-- The credit is computed from the stored rate list of `currency`, the selected bottom
currency and the entered amount, all read now. -/
def ViewController.didReceivedRateListFor (currency : NSString) (performExchangeNeeded : Bool) :
    App Data Unit := do
  if performExchangeNeeded then
    let w ← get
    let value := w.dataManager.valueForExchange
    let bottom := w.dataManager.selectedBottomCurrency
    let rate ← App.orRaise (rateFor ((w.realm.rateList currency).map RateList.rates) bottom)
    StorageService.convertCurrency currency value bottom (value * rate)
    -- reached after a refusal as well: the service reports it to the delegate only
    modify (fun w => { w with dataManager := { w.dataManager with valueForExchange := 0 } })

namespace RateListService

/-- `dispatch_group_enter(group)` on the group the global points to. -/
def dispatchGroupEnter : App Data ℕ := do
  let w ← get
  match w.group with
  | none => throw .nullGroup
  | some group =>
    set { w with groups := w.groups.enter group }
    return group

def fire (w : World Data) (fired group : ℕ) : World Data :=
  { w with history := List.replicate fired (.receivedRateLists group) ++ w.history }

def dispatchGroupNotify : App Data Unit := do
  let w ← get
  match w.group with
  | none => throw .nullGroup
  | some group =>
    let result := w.groups.notify group
    set (fire { w with groups := result.2 } result.1 group)

/-- `dispatch_group_leave(group)`: the global is read when the block runs. -/
def dispatchGroupLeave (request : Request) : App Data Unit := do
  let w ← get
  match w.group with
  | none => throw .nullGroup
  | some group =>
    match w.groups.leave group with
    | none => throw .unbalancedLeave
    | some (fired, groups) =>
      set (fire { w.record (.left request group) with groups } fired group)

def issueRequest (w : World Data) (base : NSString) (performExchangeNeeded : Bool)
    (group : ℕ) : World Data :=
  let issue : Issue := {
    selectedTopCurrency := w.dataManager.selectedTopCurrency
    selectedBottomCurrency := w.dataManager.selectedBottomCurrency
    valueForExchange := w.dataManager.valueForExchange
    group }
  { w with
    requests := ⟨w.issued, base, performExchangeNeeded, issue⟩ :: w.requests
    issued := w.issued+1 }

def getRateListForCurrency (currency : Option NSString) (performExchangeNeeded : Bool) :
    App Data Unit := do
  modify (fun w => { w with indicator := w.indicator.networkOperationStarted })
  let group ← dispatchGroupEnter
  match currency with
  -- nil in the dictionary literal of the parameters raises, with the group entered
  | none => throw (.exception .invalidArgument)
  | some base => modify (fun w => issueRequest w base performExchangeNeeded group)

def getRateListForCurrencies (currencies : List NSString) : App Data Unit := do
  modify (fun w => { w with group := some w.groups.next, groups := w.groups.create })
  currencies.forM (fun currency => getRateListForCurrency (some currency) false)
  dispatchGroupNotify

/-- The write transaction of the success block. -/
def commitRateList (w : World Data) (key : NSString) (rateList : RateList Data) : World Data :=
  { w with
    realm := w.realm.setRateList key rateList
    modifications := w.modifications ++ [[key]] }

def storeRateList (same : Bool) (key : NSString) (rateList : UnmanagedRateList Data) :
    App Data Unit := do
  let w ← get
  if !rateList.isEqual same (w.realm.rateList key) then
    -- an exception here leaves the transaction uncommitted
    let stored ← App.orRaise rateList.addToRealm
    set (commitRateList w key stored)

/-- The success block of a request. -/
def success (same : Bool) (request : Request) (json : Option JSON) : App Data Unit := do
  modify (fun w => { w with indicator := w.indicator.networkOperationFinished })
  let rateList ← App.orRaise (UnmanagedRateList.initWithAttributes json)
  storeRateList same request.currency rateList
  ViewController.didReceivedRateListFor request.currency request.performExchange
  dispatchGroupLeave request

/-- The failure block: the group is not left. -/
def failure (error : NSError) : App Data Unit := do
  modify (fun w => { w with indicator := w.indicator.networkOperationFinished })
  modify (fun w => w.record (.alerted error))

end RateListService

end

end CurrencyConverter
