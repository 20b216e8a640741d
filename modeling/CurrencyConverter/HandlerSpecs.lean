import CurrencyConverter.Handlers
import CurrencyConverter.ServiceSpecs

/-! What one turn of the main queue can do, said once for every action; every invariant
of a run is derived from these cases. -/
namespace CurrencyConverter
open JSONTree Effects

variable {Data : Type} [JSONSerialization Data] {w : World Data}

/-- A visible cell is filled again when needed, and otherwise stays. -/
def Refilled (needed : Prop) (view : ViewTag) (same : Bool) (w : World Data) (item : ℕ)
    (old cell : ExchangeCell) : Prop :=
  (needed → w.dataManager.cellForItemAtIndexPath view same w.realm old item = .ok cell) ∧
    (¬needed → cell = old)

def scrolledTop (same : Identity) (w : World Data) (item : ℕ) (top : NSString)
    (cell : ExchangeCell) : World Data :=
  let dataManager := { w.dataManager with selectedTopCurrency := some top }
  { w with
    dataManager
    screen := { w.screen with
      topItem := item
      topPage := min item (numberOfPages-1)
      topCell := cell
      exchangeEnabled := !dataManager.isCurrenciesEqual same.selection } }

def scrolledBottom (same : Identity) (w : World Data) (item : ℕ) (bottom : NSString)
    (cell : ExchangeCell) : World Data :=
  let dataManager := { w.dataManager with selectedBottomCurrency := some bottom }
  { w with
    dataManager
    screen := { w.screen with
      bottomItem := item
      bottomPage := min item (numberOfPages-1)
      bottomCell := cell
      exchangeEnabled := !dataManager.isCurrenciesEqual same.selection } }

/-- The amount has been taken over; the cells have not been touched yet. -/
def enteredAmount (w : World Data) (value : ℚ) : World Data :=
  { w.record (.edited value) with
    dataManager := { w.dataManager with valueForExchange := value } }

def editedText (w : World Data) (text : Option NSString) (bottom : ExchangeCell) : World Data :=
  let entered := enteredAmount w (ExchangeCell.enteredValue text)
  { entered with screen := { w.screen with
    bottomCell := bottom
    topCell := { w.screen.topCell with valueTextField := ExchangeCell.enteredText text } } }

def completed (w : World Data) (request : Request) : World Data :=
  { w with requests := w.requests.erase request }

/-- The rows of the oldest `count` transactions not yet notified, as indexes. -/
def modifiedIndexes (w : World Data) (count : ℕ) : List ℕ :=
  (w.modifications.take count).flatten.map (fun row => w.realm.sortedKeys.idxOf row)

def delivered (w : World Data) (count : ℕ) : World Data :=
  { w with modifications := w.modifications.drop count }

def updatedCurrencies (w : World Data) : World Data :=
  { w with dataManager := { w.dataManager with currencies := w.realm.sortedKeys } }

def shownCells (w : World Data) (top bottom : ExchangeCell) : World Data :=
  { w with screen := { w.screen with topCell := top, bottomCell := bottom } }

/-- The turns in which `perform` finds nothing to run. -/
def Idle (w : World Data) : Action → Prop
  | .topScrollEnded _ item => w.dataManager.currencies.length ≤ item
  | .bottomScrollEnded _ item => w.dataManager.currencies.length ≤ item
  | .exchangePressed => w.screen.exchangeEnabled = false
  | .responded _ task _ => w.request task = none
  | .failed task _ => w.request task = none
  | _ => False

/-- One turn that ends normally. -/
inductive Turn : Action → World Data → World Data → Prop
  | idle (a : Action) (w : World Data) (h : Idle w a) : Turn a w w
  | scrolledTop (same : Identity) (w : World Data) (item : ℕ) (top : NSString)
      (cell : ExchangeCell) (hitem : item < w.dataManager.currencies.length)
      (htop : w.dataManager.currencies[min item (numberOfPages-1)]? = some top)
      (hcell : Refilled (w.screen.topItem ≠ item) .top same.cell w item w.screen.topCell cell) :
      Turn (.topScrollEnded same item) w (scrolledTop same w item top cell)
  | scrolledBottom (same : Identity) (w : World Data) (item : ℕ) (bottom : NSString)
      (cell : ExchangeCell) (hitem : item < w.dataManager.currencies.length)
      (hbottom : w.dataManager.currencies[min item (numberOfPages-1)]? = some bottom)
      (hcell : Refilled (w.screen.bottomItem ≠ item) .bottom same.cell w item
        w.screen.bottomCell cell) :
      Turn (.bottomScrollEnded same item) w (scrolledBottom same w item bottom cell)
  | edited (same : Identity) (w : World Data) (text : Option NSString) (bottom : ExchangeCell)
      (hcell : Refilled True .bottom same.cell
        (enteredAmount w (ExchangeCell.enteredValue text)) w.screen.bottomItem
        w.screen.bottomCell bottom) :
      Turn (.textEdited same text) w (editedText w text bottom)
  | pressed (w : World Data) (group : ℕ) (top : NSString)
      (henabled : w.screen.exchangeEnabled = true) (hgroup : w.group = some group)
      (htop : w.dataManager.selectedTopCurrency = some top) :
      Turn .exchangePressed w (enterAndIssue (w.record .pressed) group top true)
  | ticked (w : World Data) : Turn .timerFired w (startBatch w w.timer)
  | responded (same : Identity) (w w' : World Data) (task : ℕ) (json : Option JSON)
      (request : Request) (hrequest : w.request task = some request)
      (h : Succeeded same.base request json (completed w request) w') :
      Turn (.responded same task json) w w'
  | failed (w : World Data) (task : ℕ) (error : NSError) (request : Request)
      (hrequest : w.request task = some request) :
      Turn (.failed task error) w
        ((finishOperation (completed w request)).record (.alerted error))
  | deliveredNothing (same : Identity) (w : World Data) (count : ℕ)
      (h : (w.modifications.take count).flatten = []) :
      Turn (.notified same count) w (delivered w count)
  | notified (same : Identity) (w : World Data) (count : ℕ) (top bottom : ExchangeCell)
      (h : (w.modifications.take count).flatten ≠ [])
      (htop : Refilled (w.screen.topItem ∈ modifiedIndexes w count) .top same.cell
        (updatedCurrencies w) w.screen.topItem w.screen.topCell top)
      (hbottom : Refilled (w.screen.bottomItem ∈ modifiedIndexes w count) .bottom same.cell
        (updatedCurrencies w) w.screen.bottomItem w.screen.bottomCell bottom) :
      Turn (.notified same count) w
        (shownCells (updatedCurrencies (delivered w count)) top bottom)

/-- One turn that aborts the process, with the disk it leaves. -/
inductive TurnAborted : Action → World Data → Abort → Disk Data → Prop
  | filling (a : Action) (w : World Data) (x : NSException)
      (h : ∀ same task json, a ≠ .responded same task json) :
      TurnAborted a w (.exception x) w.toDisk
  | editing (same : Identity) (w : World Data) (text : Option NSString) (x : NSException) :
      TurnAborted (.textEdited same text) w (.exception x)
        (enteredAmount w (ExchangeCell.enteredValue text)).toDisk
  | pressing (w : World Data) (e : Abort)
      (h : (e = .nullGroup ∧ w.group = none) ∨
        (e = .exception .invalidArgument ∧ w.dataManager.selectedTopCurrency = none)) :
      TurnAborted .exchangePressed w e (w.record .pressed).toDisk
  | responding (same : Identity) (w w' : World Data) (task : ℕ) (json : Option JSON)
      (request : Request) (e : Abort) (hrequest : w.request task = some request)
      (h : SuccessAborted same.base request json (completed w request) e w') :
      TurnAborted (.responded same task json) w e w'.toDisk

omit [JSONSerialization Data] in
theorem updateExchangeButton_ends (same : Bool) {ok : Unit → World Data → Prop}
    {abort : Abort → World Data → Prop} :
    Ends (ViewController.updateExchangeButton same) w ok abort ↔
      ok () { w with screen := { w.screen with
        exchangeEnabled := !w.dataManager.isCurrenciesEqual same } } := Iff.rfl

theorem currencyAtIndex_ok {dataManager : DataManager} {index : ℕ} {currency : NSString}
    (h : dataManager.currencyAtIndex index = .ok currency) :
    dataManager.currencies[index]? = some currency := by
  unfold DataManager.currencyAtIndex at h
  split at h
  · contradiction
  · cases h
    assumption

theorem selectTopCurrencyAtIndex_ok {dataManager selected : DataManager} {index : ℕ}
    (h : dataManager.selectTopCurrencyAtIndex index = .ok selected) :
    ∃ top, dataManager.currencies[index]? = some top ∧
      selected = { dataManager with selectedTopCurrency := some top } := by
  obtain ⟨top,htop,hs⟩ := except_bind_ok h
  cases hs
  exact ⟨top, currencyAtIndex_ok htop, rfl⟩

theorem selectBottomCurrencyAtIndex_ok {dataManager selected : DataManager} {index : ℕ}
    (h : dataManager.selectBottomCurrencyAtIndex index = .ok selected) :
    ∃ bottom, dataManager.currencies[index]? = some bottom ∧
      selected = { dataManager with selectedBottomCurrency := some bottom } := by
  obtain ⟨bottom,hbottom,hs⟩ := except_bind_ok h
  cases hs
  exact ⟨bottom, currencyAtIndex_ok hbottom, rfl⟩

theorem topScrollEnded_ends (same : Identity) (item : ℕ)
    (hitem : item < w.dataManager.currencies.length) :
    Ends (ViewController.topScrollEnded same item) w
      (fun _ w' => Turn (.topScrollEnded same item) w w')
      (fun e w' => TurnAborted (.topScrollEnded same item) w e w'.toDisk) := by
  have habort (x : NSException) (w' : World Data) (h : w'.toDisk = w.toDisk) :
      TurnAborted (.topScrollEnded same item) w (.exception x) w'.toDisk := by
    rw [h]
    exact .filling _ w x (by simp)
  simp only [ViewController.topScrollEnded, ViewController.reloadTopCell, ends_bind, ends_get,
    ends_ite, ends_orRaise, ends_set, updateExchangeButton_ends]
  refine ⟨fun hne => ⟨fun cell hcell => ⟨?_, ?_⟩, ?_⟩, fun heq => ⟨?_, ?_⟩⟩
  -- another item has come into view, and its cell is filled
  · intro selected hs
    obtain ⟨top,htop,rfl⟩ := selectTopCurrencyAtIndex_ok hs
    exact .scrolledTop same w item top cell hitem htop ⟨fun _ => hcell, fun h => (h hne).elim⟩
  · intro x _
    exact habort x _ rfl
  · intro x _
    exact habort x _ rfl
  · intro selected hs
    obtain ⟨top,htop,rfl⟩ := selectTopCurrencyAtIndex_ok hs
    have hshown := Turn.scrolledTop same w item top w.screen.topCell hitem htop
      ⟨fun h => (heq h).elim, fun _ => rfl⟩
    have hitem' : w.screen.topItem = item := not_not.mp heq
    simpa only [scrolledTop, ← hitem'] using hshown
  · intro x _
    exact habort x _ rfl

theorem bottomScrollEnded_ends (same : Identity) (item : ℕ)
    (hitem : item < w.dataManager.currencies.length) :
    Ends (ViewController.bottomScrollEnded same item) w
      (fun _ w' => Turn (.bottomScrollEnded same item) w w')
      (fun e w' => TurnAborted (.bottomScrollEnded same item) w e w'.toDisk) := by
  have habort (x : NSException) (w' : World Data) (h : w'.toDisk = w.toDisk) :
      TurnAborted (.bottomScrollEnded same item) w (.exception x) w'.toDisk := by
    rw [h]
    exact .filling _ w x (by simp)
  simp only [ViewController.bottomScrollEnded, ViewController.reloadBottomCell, ends_bind,
    ends_get, ends_ite, ends_orRaise, ends_set, updateExchangeButton_ends]
  refine ⟨fun hne => ⟨fun cell hcell => ⟨?_, ?_⟩, ?_⟩, fun heq => ⟨?_, ?_⟩⟩
  -- another item has come into view, and its cell is filled
  · intro selected hs
    obtain ⟨bottom,hbottom,rfl⟩ := selectBottomCurrencyAtIndex_ok hs
    exact .scrolledBottom same w item bottom cell hitem hbottom
      ⟨fun _ => hcell, fun h => (h hne).elim⟩
  · intro x _
    exact habort x _ rfl
  · intro x _
    exact habort x _ rfl
  · intro selected hs
    obtain ⟨bottom,hbottom,rfl⟩ := selectBottomCurrencyAtIndex_ok hs
    have hshown := Turn.scrolledBottom same w item bottom w.screen.bottomCell hitem hbottom
      ⟨fun h => (heq h).elim, fun _ => rfl⟩
    have hitem' : w.screen.bottomItem = item := not_not.mp heq
    simpa only [scrolledBottom, ← hitem'] using hshown
  · intro x _
    exact habort x _ rfl

theorem valueDidChanged_ends (same : Identity) (text : Option NSString) :
    Ends (ViewController.valueDidChanged same.cell text) w
      (fun _ w' => Turn (.textEdited same text) w w')
      (fun e w' => TurnAborted (.textEdited same text) w e w'.toDisk) := by
  simp only [ViewController.valueDidChanged, ViewController.textFieldValueDidChangedTo,
    ViewController.reloadBottomCell, ends_bind, ends_get, ends_modify, ends_orRaise, ends_set]
  refine ⟨fun bottom hcell => ?_, fun x _ => ?_⟩
  · exact .edited same w text bottom ⟨fun _ => hcell, fun h => (h trivial).elim⟩
  · exact .editing same w text x

theorem exchangeButtonPressed_ends (henabled : w.screen.exchangeEnabled = true) :
    Ends ViewController.exchangeButtonPressed w
      (fun _ w' => Turn .exchangePressed w w')
      (fun e w' => TurnAborted .exchangePressed w e w'.toDisk) := by
  simp only [ViewController.exchangeButtonPressed, RateListService.getRateListForCurrency,
    RateListService.dispatchGroupEnter, ends_bind, ends_get, ends_modify]
  cases hg : w.group with
  | none =>
    -- no batch has been started yet, so there is no group to enter
    have hg' : (w.record .pressed).group = none := hg
    simp only [hg', ends_throw]
    exact .pressing w _ (Or.inl ⟨rfl, hg⟩)
  | some group =>
    have hg' : (w.record .pressed).group = some group := hg
    simp only [hg', ends_bind, ends_set, ends_pure]
    cases htop : w.dataManager.selectedTopCurrency with
    | none =>
      have htop' : (w.record .pressed).dataManager.selectedTopCurrency = none := htop
      simp only [htop', ends_throw]
      exact .pressing w _ (Or.inr ⟨rfl, htop⟩)
    | some top =>
      have htop' : (w.record .pressed).dataManager.selectedTopCurrency = some top := htop
      simp only [htop', ends_modify]
      simpa only [enterAndIssue, hg'] using Turn.pressed w group top henabled hg htop

theorem notificationBlock_ends (same : Identity) (count : ℕ) :
    Ends (notificationBlock same.cell count) w
      (fun _ w' => Turn (.notified same count) w w')
      (fun e w' => TurnAborted (.notified same count) w e w'.toDisk) := by
  have habort (x : NSException) (w' : World Data) (h : w'.toDisk = w.toDisk) :
      TurnAborted (.notified same count) w (.exception x) w'.toDisk := by
    rw [h]
    exact .filling _ w x (by simp)
  simp only [notificationBlock, ViewController.didUpdateCurrencies,
    ViewController.reloadTopCell, ViewController.reloadBottomCell, ends_bind, ends_get,
    ends_set, ends_modify, ends_ite, ends_orRaise, ends_pure]
  refine ⟨fun hrows => ⟨fun htop => ⟨fun top ht => ⟨fun hbottom => ⟨?_, ?_⟩, ?_⟩, ?_⟩,
    fun htop => ⟨fun hbottom => ⟨?_, ?_⟩, ?_⟩⟩, fun hrows => ?_⟩
  -- four cases: each of the two visible cells is reloaded or not
  · intro bottom hb
    exact .notified same w count top bottom hrows ⟨fun _ => ht, fun h => (h htop).elim⟩
      ⟨fun _ => hb, fun h => (h hbottom).elim⟩
  · intro x _
    exact habort x _ rfl
  · intro hbottom
    exact .notified same w count top w.screen.bottomCell hrows
      ⟨fun _ => ht, fun h => (h htop).elim⟩ ⟨fun h => (hbottom h).elim, fun _ => rfl⟩
  · intro x _
    exact habort x _ rfl
  · intro bottom hb
    exact .notified same w count w.screen.topCell bottom hrows
      ⟨fun h => (htop h).elim, fun _ => rfl⟩ ⟨fun _ => hb, fun h => (h hbottom).elim⟩
  · intro x _
    exact habort x _ rfl
  · intro hbottom
    exact .notified same w count w.screen.topCell w.screen.bottomCell hrows
      ⟨fun h => (htop h).elim, fun _ => rfl⟩ ⟨fun h => (hbottom h).elim, fun _ => rfl⟩
  · exact .deliveredNothing same w count (not_not.mp hrows)

/-- What any turn of a running process can do. -/
theorem perform_ends (a : Action) (ha : ∀ same, a ≠ .launch same) :
    Ends (perform a) w (fun _ w' => Turn a w w')
      (fun e w' => TurnAborted a w e w'.toDisk) := by
  simp only [perform, ends_bind, ends_get]
  cases a with
  | launch same => exact (ha same rfl).elim
  | topScrollEnded same item =>
    simp only [ends_ite, ends_pure]
    exact ⟨topScrollEnded_ends same item, fun h => .idle _ w (not_lt.mp h)⟩
  | bottomScrollEnded same item =>
    simp only [ends_ite, ends_pure]
    exact ⟨bottomScrollEnded_ends same item, fun h => .idle _ w (not_lt.mp h)⟩
  | textEdited same text => exact valueDidChanged_ends same text
  | exchangePressed =>
    simp only [ends_ite, ends_pure]
    exact ⟨exchangeButtonPressed_ends, fun h => .idle _ w (by simpa [Idle] using h)⟩
  | timerFired =>
    simp only [ViewController.updateTimer, ends_bind, ends_get]
    exact ends_of_run (getRateListForCurrencies_run w.timer) (.ticked w)
  | responded same task json =>
    cases hr : w.request task with
    | none =>
      simp only [hr, ends_pure]
      exact .idle _ w hr
    | some request =>
      simp only [hr, ends_bind, ends_set]
      apply (success_ends same.base request json).imp
      · rintro _ w' ⟨h⟩
        exact .responded same w w' task json request hr h
      · intro e w' h
        exact .responding same w w' task json request e hr h
  | failed task error =>
    cases hr : w.request task with
    | none =>
      simp only [hr, ends_pure]
      exact .idle _ w hr
    | some request =>
      simp only [hr, ends_bind, ends_set]
      exact ends_of_run (failure_run error) (.failed w task error request hr)
  | notified same count => exact notificationBlock_ends same count

end CurrencyConverter
