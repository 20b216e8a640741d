import CurrencyConverter.RealmStore
import CurrencyConverter.WaitGroup
import CurrencyConverter.TransferLedger

/-! What the app holds while it runs, what outlives it, and the effects its methods
are written in. -/
namespace CurrencyConverter
open JSONTree

/-- What ends the process. -/
inductive Abort where
  | exception (e : NSException)
  | nullGroup
  | unbalancedLeave
  deriving DecidableEq

structure NSError where
  domain : NSString
  code : ℤ
  localizedDescription : NSString
  deriving DecidableEq

structure DataManager where
  currencies : List NSString := []
  selectedTopCurrency : Option NSString := none
  selectedBottomCurrency : Option NSString := none
  valueForExchange : ℚ := 0

structure ExchangeCell where
  tag : ℕ := 0
  currencyLabel : NSString := []
  balanceLabel : NSString := []
  valueTextField : NSString := []

/-- The two collection views, each with the item its content offset shows and that
item's cell, the two page controls and the button. -/
structure Screen where
  topPage : ℕ := 0
  bottomPage : ℕ := 0
  topItem : ℕ := 0
  bottomItem : ℕ := 0
  topCell : ExchangeCell := {}
  bottomCell : ExchangeCell := {}
  exchangeEnabled : Bool := false

structure NetworkActivityIndicatorManager where
  loadingCount : BitVec 64 := 0
  visible : Bool := false

namespace NetworkActivityIndicatorManager

/-- `loadingCount ++` on an `NSUInteger *` moves the pointer by the element size. -/
def networkOperationStarted (m : NetworkActivityIndicatorManager) :
    NetworkActivityIndicatorManager :=
  { loadingCount := m.loadingCount+8
    visible := if m.loadingCount = 0 then true else m.visible }

def networkOperationFinished (m : NetworkActivityIndicatorManager) :
    NetworkActivityIndicatorManager :=
  let loadingCount := if 0 < m.loadingCount then m.loadingCount-8 else m.loadingCount
  { loadingCount, visible := if loadingCount = 0 then false else m.visible }

end NetworkActivityIndicatorManager

/-- What held when a request was issued; specification only, no method reads it. -/
structure Issue where
  selectedTopCurrency : Option NSString
  selectedBottomCurrency : Option NSString
  valueForExchange : ℚ
  group : ℕ
  deriving DecidableEq

/-- A request in flight, with the variables both its blocks capture. -/
structure Request where
  taskIdentifier : ℕ
  currency : NSString
  performExchange : Bool
  issue : Issue
  deriving DecidableEq

/-- The arguments of a `convertCurrency:amount:to:amount:` that was committed. -/
abbrev Transfer := TransferLedger.Transfer NSString ℚ

inductive Event where
  | edited (value : ℚ)
  | pressed
  | transferred (transfer : Transfer)
  | left (request : Request) (group : ℕ)
  | receivedRateLists (group : ℕ)
  | alerted (error : NSError)
  deriving DecidableEq

/-- What survives the process: the store, and for the specification the newest-first
history of events and the number of requests issued so far. -/
structure Disk (Data : Type) where
  realm : Realm Data
  history : List Event
  issued : ℕ

/-- A running process. `modifications` holds, for each committed write transaction whose
notification has not been delivered, the `Currency` rows it modified. -/
structure World (Data : Type) extends Disk Data where
  modifications : List (List NSString) := []
  dataManager : DataManager := {}
  screen : Screen := {}
  indicator : NetworkActivityIndicatorManager := {}
  group : Option ℕ := none
  groups : WaitGroup.Table := {}
  requests : List Request := []
  timer : List NSString := []

/-- Methods run to their end or abort the process; the state at the abort is kept. -/
abbrev App (Data : Type) := EStateM Abort (World Data)

variable {Data α : Type}

/-- An exception nobody catches. -/
def App.orRaise (x : Except NSException α) : App Data α :=
  match x with
  | .ok a => pure a
  | .error e => throw (.exception e)

def World.record (w : World Data) (e : Event) : World Data := { w with history := e :: w.history }

def World.request (w : World Data) (task : ℕ) : Option Request :=
  w.requests.find? (fun r => r.taskIdentifier = task)

end CurrencyConverter
