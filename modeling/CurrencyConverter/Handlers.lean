import CurrencyConverter.Services
import CurrencyConverter.Transition

/-! `ViewController` and the app as a machine: every turn of the main queue is one
action, and a process that aborts leaves its disk behind. -/
namespace CurrencyConverter
open JSONTree

variable {Data : Type} [JSONSerialization Data]

/-- Outcomes of this turn's pointer comparisons between strings with equal characters:
`RateList.isEqual:`, `isCurrenciesEqual`, and the bottom cell's comparison. -/
structure Identity where
  base : Bool
  selection : Bool
  cell : Bool

/-- Equal strings are one object everywhere. -/
def Identity.interned : Identity := ⟨true, true, true⟩

/-- `numberOfPages` of both page controls; `currentPage` is pinned below it. -/
def numberOfPages : ℕ := 3

namespace ViewController

def reloadTopCell (same : Bool) : App Data Unit := do
  let w ← get
  let cell ← App.orRaise (w.dataManager.cellForItemAtIndexPath .top same w.realm
    w.screen.topCell w.screen.topItem)
  set { w with screen := { w.screen with topCell := cell } }

def reloadBottomCell (same : Bool) : App Data Unit := do
  let w ← get
  let cell ← App.orRaise (w.dataManager.cellForItemAtIndexPath .bottom same w.realm
    w.screen.bottomCell w.screen.bottomItem)
  set { w with screen := { w.screen with bottomCell := cell } }

def textFieldValueDidChangedTo (same : Bool) (value : ℚ) : App Data Unit := do
  modify (fun w => { w.record (.edited value) with
    dataManager := { w.dataManager with valueForExchange := value } })
  reloadBottomCell same

/-- The edit handler of the visible top cell. -/
def valueDidChanged (same : Bool) (text : Option NSString) : App Data Unit := do
  textFieldValueDidChangedTo same (ExchangeCell.enteredValue text)
  modify (fun w => { w with screen := { w.screen with
    topCell := { w.screen.topCell with valueTextField := ExchangeCell.enteredText text } } })

def updateExchangeButton (same : Bool) : App Data Unit :=
  modify (fun w => { w with screen := { w.screen with
    exchangeEnabled := !w.dataManager.isCurrenciesEqual same } })

/-- `scrollViewDidEndDecelerating:` of the top view; a new item has come into view. -/
def topScrollEnded (same : Identity) (item : ℕ) : App Data Unit := do
  let w ← get
  -- a cell that comes into view is dequeued and filled before the scroll ends
  if w.screen.topItem ≠ item then
    set { w with screen := { w.screen with topItem := item } }
    reloadTopCell same.cell
  let w ← get
  let page := min item (numberOfPages-1)
  let dataManager ← App.orRaise (w.dataManager.selectTopCurrencyAtIndex page)
  set { w with dataManager, screen := { w.screen with topPage := page } }
  updateExchangeButton same.selection

def bottomScrollEnded (same : Identity) (item : ℕ) : App Data Unit := do
  let w ← get
  if w.screen.bottomItem ≠ item then
    set { w with screen := { w.screen with bottomItem := item } }
    reloadBottomCell same.cell
  let w ← get
  let page := min item (numberOfPages-1)
  let dataManager ← App.orRaise (w.dataManager.selectBottomCurrencyAtIndex page)
  set { w with dataManager, screen := { w.screen with bottomPage := page } }
  updateExchangeButton same.selection

def exchangeButtonPressed : App Data Unit := do
  modify (fun w => w.record .pressed)
  let w ← get
  RateListService.getRateListForCurrency w.dataManager.selectedTopCurrency true

def updateTimer : App Data Unit := do
  let w ← get
  RateListService.getRateListForCurrencies w.timer

def didReceivedCurrenciesFromStorage (same : Bool) (currencies : List NSString) :
    App Data Unit := do
  modify (fun w => { w with dataManager := { w.dataManager with currencies } })
  let w ← get
  -- the page controls decide, not the content offsets
  let dataManager ← App.orRaise (w.dataManager.selectTopCurrencyAtIndex w.screen.topPage)
  let dataManager ← App.orRaise (dataManager.selectBottomCurrencyAtIndex w.screen.bottomPage)
  set { w with dataManager }
  reloadTopCell same
  reloadBottomCell same
  RateListService.getRateListForCurrencies currencies
  modify (fun w => { w with timer := currencies })

/-- The visible cells whose index is among the modified ones are reloaded. -/
def didUpdateCurrencies (same : Bool) (currencies : List NSString) (indexes : List ℕ) :
    App Data Unit := do
  modify (fun w => { w with dataManager := { w.dataManager with currencies } })
  let w ← get
  if w.screen.topItem ∈ indexes then
    reloadTopCell same
  if w.screen.bottomItem ∈ indexes then
    reloadBottomCell same

def viewDidLoad (same : Bool) : App Data Unit := do
  modify (fun w => { w with screen := { w.screen with exchangeEnabled := false } })
  let w ← get
  didReceivedCurrenciesFromStorage same w.realm.sortedKeys

end ViewController

/-- `application:didFinishLaunchingWithOptions:` and the loading of the first view. -/
def didFinishLaunching (same : Bool) : App Data Unit := do
  modify (fun w => { w with realm := w.realm.firstEnterConfigurationIfNeeded })
  ViewController.viewDidLoad same

/-- The notification block of the sorted results, for the oldest `count` write
transactions not yet notified. -/
def notificationBlock (same : Bool) (count : ℕ) : App Data Unit := do
  let w ← get
  let rows := (w.modifications.take count).flatten
  let currencies := w.realm.sortedKeys
  set { w with modifications := w.modifications.drop count }
  -- without changes since the last delivery the block is not called
  if rows ≠ [] then
    ViewController.didUpdateCurrencies same currencies (rows.map (fun row => currencies.idxOf row))

/-- One turn of the main queue. -/
inductive Action where
  | launch (same : Identity)
  | topScrollEnded (same : Identity) (item : ℕ)
  | bottomScrollEnded (same : Identity) (item : ℕ)
  | textEdited (same : Identity) (text : Option NSString)
  | exchangePressed
  | timerFired
  | responded (same : Identity) (task : ℕ) (json : Option JSON)
  | failed (task : ℕ) (error : NSError)
  | notified (same : Identity) (count : ℕ)

/-- UIKit scrolls only to existing items, a disabled button is not pressed, and a block
runs only for a request in flight, once. -/
def perform (a : Action) : App Data Unit := do
  let w ← get
  match a with
  | .launch same => didFinishLaunching same.cell
  | .topScrollEnded same item =>
    if item < w.dataManager.currencies.length then ViewController.topScrollEnded same item
  | .bottomScrollEnded same item =>
    if item < w.dataManager.currencies.length then ViewController.bottomScrollEnded same item
  | .textEdited same text => ViewController.valueDidChanged same.cell text
  | .exchangePressed =>
    if w.screen.exchangeEnabled then ViewController.exchangeButtonPressed
  | .timerFired => ViewController.updateTimer
  | .responded same task json =>
    match w.request task with
    | none => return
    | some request =>
      set { w with requests := w.requests.erase request }
      RateListService.success same.base request json
  | .failed task error =>
    match w.request task with
    | none => return
    | some request =>
      set { w with requests := w.requests.erase request }
      RateListService.failure error
  | .notified same count => notificationBlock same.cell count

inductive Process (Data : Type) where
  | terminated (disk : Disk Data) (reason : Option Abort)
  | running (w : World Data)

namespace Process

def disk : Process Data → Disk Data
  | terminated disk _ => disk
  | running w => w.toDisk

def abort? : Process Data → Option Abort
  | terminated _ reason => reason
  | running _ => none

def world? : Process Data → Option (World Data)
  | terminated _ _ => none
  | running w => some w

/-- The requests in flight; none outlives its process. -/
def requests : Process Data → List Request
  | terminated _ _ => []
  | running w => w.requests

/-- The app is installed and has never run. -/
def installed (realm : Realm Data) : Process Data := terminated ⟨realm, [], 0⟩ none

def ofResult : EStateM.Result Abort (World Data) Unit → Process Data
  | .ok _ w => running w
  | .error e w => terminated w.toDisk (some e)

/-- A launch kills a running process; every other action needs one. -/
def step (p : Process Data) (a : Action) : Process Data :=
  match p, a with
  -- only the disk reaches the new process
  | p, .launch same => ofResult ((perform (.launch same)).run { p.disk with })
  | terminated disk reason, _ => terminated disk reason
  | running w, a => ofResult ((perform a).run w)

def run (p : Process Data) (actions : List Action) : Process Data :=
  Transition.run step p actions

end Process

end CurrencyConverter
