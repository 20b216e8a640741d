import CurrencyConverter.Services
import CurrencyConverter.Effects

/-! What the service methods can do, each said once: how the store is refreshed, how an
exchange ends, and how a request enters and leaves its group. -/
namespace CurrencyConverter
open JSONTree Effects

variable {Data : Type} {w : World Data}

@[simp] theorem ends_orRaise {α : Type} (x : Except NSException α)
    {ok : α → World Data → Prop} {abort : Abort → World Data → Prop} :
    Ends (App.orRaise x) w ok abort ↔
      (∀ a, x = .ok a → ok a w) ∧ (∀ e, x = .error e → abort (.exception e) w) := by
  cases x with
  | ok a => simp [App.orRaise]
  | error e => simp [App.orRaise]

/-- The exchange requests in flight. -/
def World.exchanges (w : World Data) : List Request := w.requests.filter Request.performExchange

def resetValue (w : World Data) : World Data :=
  { w with dataManager := { w.dataManager with valueForExchange := 0 } }

/-- The transfer `didReceivedRateListFor:andPerformExchange:` asks for. -/
def askedTransfer (w : World Data) (key : NSString) (rate : ℚ) : Transfer where
  source := key
  debit := w.dataManager.valueForExchange
  target := w.dataManager.selectedBottomCurrency
  credit := w.dataManager.valueForExchange * rate

section
variable [JSONSerialization Data]

/-- The rate of the selected bottom currency in the stored list of `key`. -/
def storedRate (w : World Data) (key : NSString) : Except NSException ℚ :=
  rateFor ((w.realm.rateList key).map RateList.rates) w.dataManager.selectedBottomCurrency

/-- How an exchange on `key` ends. -/
inductive Exchanged (key : NSString) (w : World Data) : Bool → World Data → Prop
  | notNeeded : Exchanged key w false w
  | rejected (error : NSError) (rate : ℚ) (hrate : storedRate w key = .ok rate)
      (h : w.realm.amount key < w.dataManager.valueForExchange ∨
        w.dataManager.valueForExchange = 0) :
      Exchanged key w true (resetValue (w.record (.alerted error)))
  | committed (rate : ℚ) (hrate : storedRate w key = .ok rate)
      (hfunds : w.dataManager.valueForExchange ≤ w.realm.amount key)
      (hvalue : w.dataManager.valueForExchange ≠ 0) :
      Exchanged key w true
        (resetValue (StorageService.commitTransfer w (askedTransfer w key rate)))

omit [JSONSerialization Data] in
/-- What is refused is not covered, or is nothing. -/
theorem not_covered_of_refused {balance value : ℚ} (h : balance < value ∨ value = 0) :
    ¬(value ≤ balance ∧ value ≠ 0) := by
  rintro ⟨hfunds,hvalue⟩
  rcases h with hlt | hzero
  · exact absurd hlt (not_lt.mpr hfunds)
  · exact hvalue hzero

theorem didReceivedRateListFor_ends (key : NSString) (needed : Bool) :
    Ends (ViewController.didReceivedRateListFor key needed) w
      (fun _ w' => Exchanged key w needed w')
      (fun e w' => w' = w ∧ needed = true ∧
        ∃ x, e = .exception x ∧ storedRate w key = .error x) := by
  cases needed with
  | false => simpa [ViewController.didReceivedRateListFor] using Exchanged.notNeeded
  | true =>
    simp only [ViewController.didReceivedRateListFor, ↓reduceIte, ends_bind, ends_get,
      ends_orRaise, StorageService.convertCurrency, ends_ite, ends_set, ends_modify]
    refine ⟨?_, fun e he => ⟨trivial, trivial, e, rfl, he⟩⟩
    intro rate hrate
    -- the three exits of `convertCurrency`, each followed by the reset
    refine ⟨fun hlt => ?_, fun hle => ⟨fun hz => ?_, fun hz => ?_⟩⟩
    · exact .rejected _ rate hrate (Or.inl (sub_neg.mp hlt))
    · exact .rejected _ rate hrate (Or.inr hz)
    · exact .committed rate hrate (sub_nonneg.mp (not_lt.mp hle)) hz

/-- How the success block refreshes the store: not at all for an equal list. -/
inductive Stored (same : Bool) (key : NSString) (rateList : UnmanagedRateList Data)
    (w : World Data) : World Data → Prop
  | kept (h : rateList.isEqual same (w.realm.rateList key) = true) :
      Stored same key rateList w w
  | written (stored : RateList Data) (h : rateList.isEqual same (w.realm.rateList key) = false)
      (hs : rateList.addToRealm = .ok stored) :
      Stored same key rateList w (RateListService.commitRateList w key stored)

theorem storeRateList_ends (same : Bool) (key : NSString) (rateList : UnmanagedRateList Data) :
    Ends (RateListService.storeRateList same key rateList) w
      (fun _ w' => Stored same key rateList w w')
      (fun e w' => w' = w ∧ rateList.isEqual same (w.realm.rateList key) = false ∧
        ∃ x, e = .exception x ∧ rateList.addToRealm = .error x) := by
  simp only [RateListService.storeRateList, ends_bind, ends_get, ends_ite, ends_orRaise,
    ends_set, ends_pure, Bool.not_eq_true']
  refine ⟨fun h => ⟨?_, ?_⟩, fun h => ?_⟩
  · intro stored hs
    exact .written stored h hs
  · intro e he
    exact ⟨trivial, h, e, rfl, he⟩
  · exact .kept (by simpa using h)

/-- The request leaves the group the global points to now. -/
inductive Left (request : Request) (w : World Data) : World Data → Prop
  | mk (group fired : ℕ) (groups : WaitGroup.Table) (hg : w.group = some group)
      (hl : w.groups.leave group = some (fired,groups)) :
      Left request w
        (RateListService.fire { w.record (.left request group) with groups } fired group)

omit [JSONSerialization Data] in
theorem dispatchGroupLeave_ends (request : Request) :
    Ends (RateListService.dispatchGroupLeave request) w
      (fun _ w' => Left request w w')
      (fun e w' => w' = w ∧ ((e = .nullGroup ∧ w.group = none) ∨
        (e = .unbalancedLeave ∧ ∃ g, w.group = some g ∧ w.groups.leave g = none))) := by
  simp only [RateListService.dispatchGroupLeave, ends_bind, ends_get]
  cases hg : w.group with
  | none => simp
  | some g =>
    cases hl : w.groups.leave g with
    | none => simp [hl]
    | some result =>
      simp only [hl, ends_set]
      exact Left.mk g result.1 result.2 hg hl

def finishOperation (w : World Data) : World Data :=
  { w with indicator := w.indicator.networkOperationFinished }

/-- The success block, run to its end. -/
structure Succeeded (same : Bool) (request : Request) (json : Option JSON)
    (w w' : World Data) where
  rateList : UnmanagedRateList Data
  refreshed : World Data
  exchanged : World Data
  parsed : UnmanagedRateList.initWithAttributes json = .ok rateList
  stored : Stored same request.currency rateList (finishOperation w) refreshed
  exchange : Exchanged request.currency refreshed request.performExchange exchanged
  left : Left request exchanged w'

/-- The success block, aborted: where it stopped and why. -/
inductive SuccessAborted (same : Bool) (request : Request) (json : Option JSON)
    (w : World Data) : Abort → World Data → Prop
  | parsing (x : NSException)
      (h : (UnmanagedRateList.initWithAttributes json : Except _ (UnmanagedRateList Data)) =
        .error x) :
      SuccessAborted same request json w (.exception x) (finishOperation w)
  | storing (rateList : UnmanagedRateList Data) (x : NSException)
      (hp : UnmanagedRateList.initWithAttributes json = .ok rateList)
      (he : rateList.isEqual same (w.realm.rateList request.currency) = false)
      (h : rateList.addToRealm = .error x) :
      SuccessAborted same request json w (.exception x) (finishOperation w)
  | exchanging (rateList : UnmanagedRateList Data) (refreshed : World Data) (x : NSException)
      (hp : UnmanagedRateList.initWithAttributes json = .ok rateList)
      (hs : Stored same request.currency rateList (finishOperation w) refreshed)
      (hn : request.performExchange = true)
      (h : storedRate refreshed request.currency = .error x) :
      SuccessAborted same request json w (.exception x) refreshed
  | leaving (rateList : UnmanagedRateList Data) (refreshed exchanged : World Data) (e : Abort)
      (hp : UnmanagedRateList.initWithAttributes json = .ok rateList)
      (hs : Stored same request.currency rateList (finishOperation w) refreshed)
      (hx : Exchanged request.currency refreshed request.performExchange exchanged)
      (h : (e = .nullGroup ∧ exchanged.group = none) ∨
        (e = .unbalancedLeave ∧
          ∃ g, exchanged.group = some g ∧ exchanged.groups.leave g = none)) :
      SuccessAborted same request json w e exchanged

theorem success_ends (same : Bool) (request : Request) (json : Option JSON) :
    Ends (RateListService.success same request json) w
      (fun _ w' => Nonempty (Succeeded same request json w w'))
      (fun e w' => SuccessAborted same request json w e w') := by
  simp only [RateListService.success, ends_bind, ends_modify, ends_orRaise]
  refine ⟨?_, fun x hx => .parsing x hx⟩
  intro rateList hp
  -- refresh, exchange, leave: each may stop the block where it stands
  apply (storeRateList_ends same request.currency rateList).imp
  · intro _ refreshed hs
    apply (didReceivedRateListFor_ends request.currency request.performExchange).imp
    · intro _ exchanged hx
      apply (dispatchGroupLeave_ends request).imp
      · intro _ w' hl
        exact ⟨⟨rateList, refreshed, exchanged, hp, hs, hx, hl⟩⟩
      · rintro e w' ⟨rfl,h⟩
        exact .leaving rateList refreshed _ e hp hs hx h
    · rintro e w' ⟨rfl,hn,x,rfl,h⟩
      exact .exchanging rateList _ x hp hs hn h
  · rintro e w' ⟨rfl,he,x,rfl,h⟩
    exact .storing rateList x hp he h

end

/-- A request enters the group and is put in flight. -/
def enterAndIssue (w : World Data) (group : ℕ) (base : NSString) (needed : Bool) : World Data :=
  RateListService.issueRequest { w with
    indicator := w.indicator.networkOperationStarted
    groups := w.groups.enter group } base needed group

theorem getRateListForCurrency_run (group : ℕ) (hg : w.group = some group) (base : NSString)
    (needed : Bool) :
    (RateListService.getRateListForCurrency (some base) needed).run w =
      .ok () (enterAndIssue w group base needed) := by
  simp [RateListService.getRateListForCurrency, RateListService.dispatchGroupEnter, hg,
    enterAndIssue]

def issueBatch (w : World Data) (group : ℕ) (currencies : List NSString) : World Data :=
  currencies.foldl (fun w base => enterAndIssue w group base false) w

theorem forM_getRateListForCurrency_run (group : ℕ) (currencies : List NSString)
    (hg : w.group = some group) :
    (currencies.forM
      (fun currency => RateListService.getRateListForCurrency (some currency) false)).run w =
      .ok () (issueBatch w group currencies) := by
  induction currencies generalizing w with
  | nil => rfl
  | cons base currencies ih =>
    change (RateListService.getRateListForCurrency (some base) false >>= fun _ =>
      currencies.forM _).run w = _
    rw [EStateM.run_bind, getRateListForCurrency_run group hg]
    exact ih hg

/-- A part of the world that issuing one request leaves alone, a batch leaves alone. -/
theorem issueBatch_frame {α : Type} (part : World Data → α)
    (hpart : ∀ w group base, part (enterAndIssue w group base false) = part w)
    (group : ℕ) (currencies : List NSString) :
    part (issueBatch w group currencies) = part w := by
  induction currencies generalizing w with
  | nil => rfl
  | cons base currencies ih =>
    change part (issueBatch (enterAndIssue w group base false) group currencies) = part w
    rw [ih, hpart]

@[simp] theorem issueBatch_group (group : ℕ) (currencies : List NSString) :
    (issueBatch w group currencies).group = w.group :=
  issueBatch_frame World.group (fun _ _ _ => rfl) group currencies

/-- The world after a new group has become the global one. -/
def openGroup (w : World Data) : World Data :=
  { w with group := some w.groups.next, groups := w.groups.create }

/-- A whole batch: a new group, its requests, and the notify block. -/
def startBatch (w : World Data) (currencies : List NSString) : World Data :=
  let issued := issueBatch (openGroup w) w.groups.next currencies
  RateListService.fire { issued with groups := (issued.groups.notify w.groups.next).2 }
    (issued.groups.notify w.groups.next).1 w.groups.next

/-- Starting a batch cannot abort. -/
theorem getRateListForCurrencies_run (currencies : List NSString) :
    (RateListService.getRateListForCurrencies currencies).run w =
      .ok () (startBatch w currencies) := by
  have hg : (openGroup w).group = some w.groups.next := rfl
  have hf := forM_getRateListForCurrency_run w.groups.next currencies hg
  rw [RateListService.getRateListForCurrencies, EStateM.run_bind, EStateM.run_modify]
  change EStateM.run (currencies.forM _ >>= fun _ => RateListService.dispatchGroupNotify)
    (openGroup w) = _
  rw [EStateM.run_bind, hf]
  simp [RateListService.dispatchGroupNotify, hg, startBatch]

section
variable (w : World Data) (currencies : List NSString)

/-- A part that neither requests, nor groups, nor fired blocks touch, a whole batch leaves
alone. -/
theorem startBatch_frame {α : Type} (part : World Data → α)
    (hopen : ∀ w, part (openGroup w) = part w)
    (hissue : ∀ w group base, part (enterAndIssue w group base false) = part w)
    (hfire : ∀ w groups fired group,
      part (RateListService.fire { w with groups } fired group) = part w) :
    part (startBatch w currencies) = part w := by
  rw [startBatch, hfire, issueBatch_frame part hissue, hopen]

@[simp] theorem startBatch_realm : (startBatch w currencies).realm = w.realm :=
  startBatch_frame w currencies (fun w => w.realm) (fun _ => rfl) (fun _ _ _ => rfl)
    (fun _ _ _ _ => rfl)

@[simp] theorem startBatch_dataManager : (startBatch w currencies).dataManager = w.dataManager :=
  startBatch_frame w currencies World.dataManager (fun _ => rfl) (fun _ _ _ => rfl)
    (fun _ _ _ _ => rfl)

@[simp] theorem startBatch_exchanges : (startBatch w currencies).exchanges = w.exchanges :=
  startBatch_frame w currencies World.exchanges (fun _ => rfl) (fun _ _ _ => rfl)
    (fun _ _ _ _ => rfl)

@[simp] theorem startBatch_screen : (startBatch w currencies).screen = w.screen :=
  startBatch_frame w currencies World.screen (fun _ => rfl) (fun _ _ _ => rfl)
    (fun _ _ _ _ => rfl)

@[simp] theorem startBatch_timer : (startBatch w currencies).timer = w.timer :=
  startBatch_frame w currencies World.timer (fun _ => rfl) (fun _ _ _ => rfl)
    (fun _ _ _ _ => rfl)

@[simp] theorem startBatch_modifications :
    (startBatch w currencies).modifications = w.modifications :=
  startBatch_frame w currencies World.modifications (fun _ => rfl) (fun _ _ _ => rfl)
    (fun _ _ _ _ => rfl)

end

theorem failure_run (error : NSError) :
    (RateListService.failure error).run w =
      .ok () ((finishOperation w).record (.alerted error)) := rfl

end CurrencyConverter
