import CurrencyConverter.ProcessRuns

/-! What a step does to the money: nothing, the first seeding, or one transfer at the rate
of the response being handled. -/
namespace CurrencyConverter
open JSONTree Effects

variable {Data : Type} {w : World Data}

def Event.transfer? : Event → Option Transfer
  | .transferred t => some t
  | _ => none

/-- The transfers committed so far, newest first. -/
def transfers (history : List Event) : List Transfer := history.filterMap Event.transfer?

theorem transfers_cons_other {e : Event} (he : e.transfer? = none) (history : List Event) :
    transfers (e :: history) = transfers history := by
  simp [transfers, he]

@[simp] theorem transfers_fire (w : World Data) (fired group : ℕ) :
    transfers (RateListService.fire w fired group).history = transfers w.history := by
  rw [RateListService.fire]
  induction fired with
  | zero => rfl
  | succ n ih => exact ih

@[simp] theorem transfers_startBatch (w : World Data) (currencies : List NSString) :
    transfers (startBatch w currencies).history = transfers w.history :=
  startBatch_frame w currencies (fun w => transfers w.history) (fun _ => rfl)
    (fun _ _ _ => rfl) (fun _ _ _ _ => transfers_fire _ _ _)

/-- The rate of `code` in rates that may be missing. -/
def rateIn (code : Option NSString) : Option JSON → Except NSException ℚ
  | none => .ok 0
  | some rates => rates.objectForKeyedSubscript code >>= entryFloatValue

/-- The rate of `code` in a response's own rates. -/
def responseRate (json : Option JSON) (code : Option NSString) : Except NSException ℚ :=
  valueForKeyPath json "rates".toList >>= rateIn code

theorem responseRate_object {fields rates : List (NSString × JSON)} (code : Option NSString)
    (h : fields.lookup "rates".toList = some (.object rates)) :
    responseRate (some (.object fields)) code =
      entryFloatValue (code.bind (fun c => rates.lookup c)) :=
  congrArg (fun found => Except.ok found >>= rateIn code) h

/-- A response as the service documents it. -/
def ratesResponse (base : NSString) (rates : List (NSString × JSON)) : JSON :=
  .object [("base".toList, .string base), ("rates".toList, .object rates)]

section
variable [JSONSerialization Data]

theorem initWithAttributes_rates {json : Option JSON} {rateList : UnmanagedRateList Data}
    (h : UnmanagedRateList.initWithAttributes json = .ok rateList) :
    ∃ rates, valueForKeyPath json "rates".toList = .ok (some rates) ∧
      rates.isContainer = true ∧ rateList.rates = JSONSerialization.encode rates := by
  obtain ⟨base,-,h⟩ := except_bind_ok h
  obtain ⟨found,hfound,h⟩ := except_bind_ok h
  obtain ⟨data,hdata,h⟩ := except_bind_ok h
  obtain ⟨rates,rfl,hc,rfl⟩ := dataWithJSONObject_eq_ok hdata
  cases h
  exact ⟨rates, hfound, hc, rfl⟩

theorem rateFor_encode {json : Option JSON} {rates : JSON} (code : Option NSString)
    (hrates : valueForKeyPath json "rates".toList = .ok (some rates))
    (hc : rates.isContainer = true) :
    rateFor (some (JSONSerialization.encode rates : Data)) code = responseRate json code := by
  have hread : jsonObjectWithData (some (JSONSerialization.encode rates : Data)) =
      valueForKeyPath json "rates".toList := by
    rw [hrates, jsonObjectWithData_encode rates hc]
  exact congrArg (fun found => found >>= rateIn code) hread

theorem isEqual_rates {same : Bool} {rateList : UnmanagedRateList Data}
    {stored : Option (RateList Data)} (h : rateList.isEqual same stored = true) :
    ∃ other, stored = some other ∧ rateList.rates = other.rates := by
  unfold UnmanagedRateList.isEqual at h
  cases stored with
  | none => simp at h
  | some other =>
    simp only [Bool.and_eq_true] at h
    exact ⟨other, rfl, (isEqualToData_iff _ _).mp h.2⟩

omit [JSONSerialization Data] in
theorem addToRealm_rates {rateList : UnmanagedRateList Data} {stored : RateList Data}
    (h : rateList.addToRealm = .ok stored) : stored.rates = rateList.rates := by
  unfold UnmanagedRateList.addToRealm at h
  split at h
  · cases h; rfl
  · cases h; rfl
  · cases h; rfl
  · contradiction

/-- After the refresh the stored rates are the response's own, written or skipped. -/
theorem Stored.rates {same : Bool} {key : NSString} {rateList : UnmanagedRateList Data}
    {refreshed : World Data} (h : Stored same key rateList w refreshed)
    {found : RateList Data} (hf : refreshed.realm.rateList key = some found) :
    found.rates = rateList.rates := by
  cases h with
  | kept he =>
    obtain ⟨other,ho,hr⟩ := isEqual_rates he
    rw [hf] at ho
    cases ho
    exact hr.symm
  | written stored he hs =>
    -- a list found for the key proves that the key has a row
    have hkey : key ∈ w.realm.keys := by
      by_contra hn
      rw [← w.realm.keys_setRateList key stored] at hn
      have hnone := Realm.rateList_none_of_not_mem _ hn
      have hsome : none = some found := hnone.symm.trans hf
      contradiction
    have hself := w.realm.rateList_setRateList_self key stored hkey
    obtain rfl : stored = found := Option.mem_unique hself hf
    exact addToRealm_rates hs

/-- The rate an exchange reads back from the store is the response's own. -/
theorem Stored.storedRate {same : Bool} {key : NSString} {json : Option JSON}
    {rateList : UnmanagedRateList Data} {refreshed : World Data} {rate : ℚ}
    (h : Stored same key rateList w refreshed)
    (hp : UnmanagedRateList.initWithAttributes json = .ok rateList)
    (hrate : storedRate refreshed key = .ok rate) :
    responseRate json refreshed.dataManager.selectedBottomCurrency = .ok rate := by
  obtain ⟨rates,hrates,hc,hencode⟩ := initWithAttributes_rates hp
  rw [CurrencyConverter.storedRate] at hrate
  cases hf : refreshed.realm.rateList key with
  | none => simp [hf, rateFor, jsonObjectWithData, bind, Except.bind] at hrate
  | some found =>
    rw [hf, Option.map_some, h.rates hf, hencode, rateFor_encode _ hrates hc] at hrate
    exact hrate

/-- A refresh writes rate lists and pending modifications only. -/
theorem Stored.frame {same : Bool} {key : NSString} {rateList : UnmanagedRateList Data}
    {refreshed : World Data} (h : Stored same key rateList w refreshed) :
    ∃ realm modifications, refreshed = { w with realm, modifications } ∧
      realm.codes = w.realm.codes ∧ ∀ i, realm.amount i = w.realm.amount i := by
  cases h with
  | kept => exact ⟨w.realm, w.modifications, rfl, rfl, fun _ => rfl⟩
  | written stored => exact ⟨w.realm.setRateList key stored, _, rfl, by simp, by simp⟩

end

/-- No money moves between the two disks. -/
structure Still (d d' : Disk Data) : Prop where
  codes : d'.realm.codes = d.realm.codes
  amount : ∀ i, d'.realm.amount i = d.realm.amount i
  transfers : transfers d'.history = transfers d.history

/-- Exactly the transfer `t` is booked between the two disks. -/
structure Paid (t : Transfer) (d d' : Disk Data) : Prop where
  codes : d'.realm.codes = d.realm.codes
  amount : ∀ i ∈ d.realm.keys, d'.realm.amount i = t.post i (d.realm.amount i)
  transfers : transfers d'.history = t :: transfers d.history

theorem Still.refl (d : Disk Data) : Still d d := ⟨rfl, fun _ => rfl, rfl⟩

theorem Still.trans {d e f : Disk Data} (h : Still d e) (h' : Still e f) : Still d f :=
  ⟨h'.codes.trans h.codes, fun i => (h'.amount i).trans (h.amount i),
    h'.transfers.trans h.transfers⟩

theorem Paid.trans_still {t : Transfer} {d e f : Disk Data} (h : Paid t d e) (h' : Still e f) :
    Paid t d f :=
  ⟨h'.codes.trans h.codes, fun i hi => (h'.amount i).trans (h.amount i hi),
    h'.transfers.trans h.transfers⟩

theorem Still.trans_paid {t : Transfer} {d e f : Disk Data} (h : Still d e) (h' : Paid t e f) :
    Paid t d f := by
  refine ⟨h'.codes.trans h.codes, ?_, by rw [h'.transfers, h.transfers]⟩
  intro i hi
  have hi' : i ∈ e.realm.keys := by
    rw [Realm.keys_eq_codes, h.codes, ← Realm.keys_eq_codes]
    exact hi
  rw [h'.amount i hi', h.amount i]

/-- Recording something other than a transfer moves no money. -/
theorem still_record (w : World Data) {e : Event} (he : e.transfer? = none) :
    Still w.toDisk (w.record e).toDisk :=
  ⟨rfl, fun _ => rfl, transfers_cons_other he w.history⟩

theorem still_startBatch (w : World Data) (currencies : List NSString) :
    Still w.toDisk (startBatch w currencies).toDisk := by
  have hrealm := startBatch_realm w currencies
  exact ⟨congrArg Realm.codes hrealm, fun i => congrArg (fun realm => realm.amount i) hrealm,
    transfers_startBatch w currencies⟩

theorem paid_commitTransfer (w : World Data) (t : Transfer) :
    Paid t w.toDisk (StorageService.commitTransfer w t).toDisk := by
  refine ⟨?_, ?_, rfl⟩
  · cases ht : t.target <;> simp [StorageService.commitTransfer, ht]
  · intro i hi
    -- the debit first, then the credit on the balance the debit has left
    have hdebit := w.realm.amount_addAmount t.source (-t.debit) hi
    have hi' : i ∈ (w.realm.addAmount t.source (-t.debit)).keys := by
      rw [Realm.keys_addAmount]
      exact hi
    have hpost : w.realm.amount i + (if i = t.source then -t.debit else 0) =
        w.realm.amount i - (if t.source = i then t.debit else 0) := by
      by_cases h : t.source = i
      · simp [h, sub_eq_add_neg]
      · simp [h, Ne.symm h]
    cases ht : t.target with
    | none => simp [StorageService.commitTransfer, ht, TransferLedger.Transfer.post, hdebit, hpost]
    | some key =>
      have hcredit := (w.realm.addAmount t.source (-t.debit)).amount_addAmount key t.credit hi'
      simp only [StorageService.commitTransfer, ht, Option.elim_some, hcredit, hdebit, hpost,
        TransferLedger.Transfer.post, Option.some.injEq, eq_comm]

/-- The transfer `t` that `request` commits when `json` answers it in `w`. -/
structure Commits (w : World Data) (request : Request) (json : Option JSON) (t : Transfer) :
    Prop where
  needed : request.performExchange = true
  source : t.source = request.currency
  debit : t.debit = w.dataManager.valueForExchange
  target : t.target = w.dataManager.selectedBottomCurrency
  rate : ∃ rate, responseRate json t.target = .ok rate ∧ t.credit = t.debit * rate
  funds : t.debit ≤ w.realm.amount t.source
  value : t.debit ≠ 0

/-- What handling a response does to the money. -/
inductive Answered (w : World Data) (request : Request) (json : Option JSON) (d : Disk Data) :
    Prop
  | still (h : Still w.toDisk d)
  | paid (t : Transfer) (hc : Commits w request json t) (h : Paid t w.toDisk d)

theorem Answered.trans_still {request : Request} {json : Option JSON} {d e : Disk Data}
    (h : Answered w request json d) (h' : Still d e) : Answered w request json e := by
  cases h with
  | still h => exact .still (h.trans h')
  | paid t hc h => exact .paid t hc (h.trans_still h')

theorem Left.still {request : Request} {w' : World Data} (h : Left request w w') :
    Still w.toDisk w'.toDisk := by
  cases h with
  | mk group fired groups hg hl =>
    refine ⟨rfl, fun _ => rfl, ?_⟩
    rw [transfers_fire]
    exact transfers_cons_other rfl w.history

section
variable [JSONSerialization Data]

/-- A refreshed store and an exchange on it: still, or one transfer at the response's rate. -/
theorem answered_exchange {same : Bool} {request : Request} {json : Option JSON}
    {rateList : UnmanagedRateList Data} {refreshed exchanged : World Data}
    (hp : UnmanagedRateList.initWithAttributes json = .ok rateList)
    (hs : Stored same request.currency rateList (finishOperation w) refreshed)
    (hx : Exchanged request.currency refreshed request.performExchange exchanged) :
    Answered w request json exchanged.toDisk := by
  obtain ⟨realm,modifications,rfl,hcodes,hamount⟩ := hs.frame
  have hstill : Still w.toDisk { w.toDisk with realm } := ⟨hcodes, hamount, rfl⟩
  generalize hn : request.performExchange = needed at hx
  cases hx with
  | notNeeded => exact .still hstill
  | rejected error rate hrate h =>
    exact .still ⟨hcodes, hamount, transfers_cons_other rfl w.history⟩
  | committed rate hrate hfunds hvalue =>
    refine .paid (askedTransfer w request.currency rate) ?_ ?_
    · refine ⟨hn, rfl, rfl, rfl, ⟨rate, hs.storedRate hp hrate, rfl⟩, ?_, hvalue⟩
      exact hfunds.trans_eq (hamount _)
    · let refreshed : World Data := { finishOperation w with realm, modifications }
      exact hstill.trans_paid
        (paid_commitTransfer refreshed (askedTransfer refreshed request.currency rate))

theorem Succeeded.answered {same : Bool} {request : Request} {json : Option JSON}
    {w' : World Data} (h : Succeeded same request json w w') :
    Answered w request json w'.toDisk :=
  (answered_exchange h.parsed h.stored h.exchange).trans_still h.left.still

theorem SuccessAborted.answered {same : Bool} {request : Request} {json : Option JSON}
    {e : Abort} {w' : World Data} (h : SuccessAborted same request json w e w') :
    Answered w request json w'.toDisk := by
  cases h with
  | parsing x h => exact .still (.refl _)
  | storing rateList x hp he h => exact .still (.refl _)
  | exchanging rateList _ x hp hs hn h =>
    obtain ⟨realm,modifications,rfl,hcodes,hamount⟩ := hs.frame
    exact .still ⟨hcodes, hamount, rfl⟩
  | leaving rateList _ _ _ hp hs hx h => exact answered_exchange hp hs hx

omit [JSONSerialization Data] in
/-- Taking the request out of flight changes nothing a transfer depends on. -/
theorem Answered.of_completed {request : Request} {json : Option JSON} {d : Disk Data}
    (h : Answered (completed w request) request json d) : Answered w request json d := by
  cases h with
  | still h => exact .still h
  | paid t hc h => exact .paid t ⟨hc.1, hc.2, hc.3, hc.4, hc.5, hc.6, hc.7⟩ h

/-- Only a response moves money in a turn. -/
inductive TurnMoney (w : World Data) : Action → Disk Data → Prop
  | still (a : Action) (d : Disk Data) (h : Still w.toDisk d) : TurnMoney w a d
  | answered (same : Identity) (task : ℕ) (json : Option JSON) (request : Request)
      (d : Disk Data) (hr : w.request task = some request) (h : Answered w request json d) :
      TurnMoney w (.responded same task json) d

theorem Turn.money {a : Action} {w' : World Data} (h : Turn a w w') :
    TurnMoney w a w'.toDisk := by
  cases h with
  | responded same _ _ task json request hr h =>
    exact .answered same task json request _ hr h.answered.of_completed
  | pressed => exact .still _ _ ⟨rfl, fun _ => rfl, transfers_cons_other rfl w.history⟩
  | edited => exact .still _ _ ⟨rfl, fun _ => rfl, transfers_cons_other rfl w.history⟩
  | failed => exact .still _ _ ⟨rfl, fun _ => rfl, transfers_cons_other rfl w.history⟩
  | ticked => exact .still _ _ (still_startBatch w w.timer)
  | _ => exact .still _ _ (.refl _)

theorem TurnAborted.money {a : Action} {e : Abort} {d : Disk Data} (h : TurnAborted a w e d) :
    TurnMoney w a d := by
  cases h with
  | filling => exact .still _ _ (.refl _)
  | editing => exact .still _ _ (still_record w rfl)
  | pressing => exact .still _ _ (still_record w rfl)
  | responding same _ w' task json request _ hr h =>
    exact .answered same task json request _ hr h.answered.of_completed

/-- A handled response keeps everything the cells and the selections are made of, and
resets the entered amount exactly when an exchange was asked for. -/
theorem Succeeded.frame {same : Bool} {request : Request} {json : Option JSON}
    {w' : World Data} (h : Succeeded same request json w w') :
    w'.screen = w.screen ∧ w'.group = w.group ∧ w'.timer = w.timer ∧
      w'.requests = w.requests ∧
      w'.dataManager = if request.performExchange then
        { w.dataManager with valueForExchange := 0 } else w.dataManager := by
  obtain ⟨realm,modifications,hrefreshed,-,-⟩ := h.stored.frame
  have hx := h.exchange
  have hl := h.left
  rw [hrefreshed] at hx
  generalize h.exchanged = exchanged at hx hl
  generalize request.performExchange = needed at hx
  cases hl with
  | mk group fired groups hg hl =>
    cases hx with
    | notNeeded => exact ⟨rfl, rfl, rfl, rfl, rfl⟩
    | rejected error rate hrate h => exact ⟨rfl, rfl, rfl, rfl, rfl⟩
    | committed rate hrate hfunds hvalue => exact ⟨rfl, rfl, rfl, rfl, rfl⟩

section
variable {same : Bool} {request : Request} {json : Option JSON} {w' : World Data}

theorem Succeeded.requests (h : Succeeded same request json w w') :
    w'.requests = w.requests := by
  obtain ⟨-,-,-,hrequests,-⟩ := h.frame
  exact hrequests

/-- The loaded currencies and both selections stay. -/
theorem Succeeded.selections (h : Succeeded same request json w w') :
    w'.dataManager.currencies = w.dataManager.currencies ∧
      w'.dataManager.selectedTopCurrency = w.dataManager.selectedTopCurrency ∧
      w'.dataManager.selectedBottomCurrency = w.dataManager.selectedBottomCurrency := by
  obtain ⟨-,-,-,-,hmanager⟩ := h.frame
  rw [hmanager]
  split
  · exact ⟨rfl, rfl, rfl⟩
  · exact ⟨rfl, rfl, rfl⟩

theorem Succeeded.value (h : Succeeded same request json w w') :
    w'.dataManager.valueForExchange =
      if request.performExchange then 0 else w.dataManager.valueForExchange := by
  obtain ⟨-,-,-,-,hmanager⟩ := h.frame
  rw [hmanager]
  exact apply_ite DataManager.valueForExchange _ _ _

end

/-- A handled response ends one network operation and issues no request. -/
theorem Succeeded.counters {same : Bool} {request : Request} {json : Option JSON}
    {w' : World Data} (h : Succeeded same request json w w') :
    w'.indicator = w.indicator.networkOperationFinished ∧ w'.issued = w.issued := by
  obtain ⟨realm,modifications,hrefreshed,-,-⟩ := h.stored.frame
  have hx := h.exchange
  have hl := h.left
  rw [hrefreshed] at hx
  generalize h.exchanged = exchanged at hx hl
  generalize request.performExchange = needed at hx
  cases hl with
  | mk group fired groups hg hl =>
    cases hx with
    | notNeeded => exact ⟨rfl, rfl⟩
    | rejected => exact ⟨rfl, rfl⟩
    | committed => exact ⟨rfl, rfl⟩

/-- Where the entered amount can come from: it stays, it is reset, or it is entered. -/
theorem Turn.value_cases {a : Action} {w' : World Data} (h : Turn a w w') :
    w'.dataManager.valueForExchange = w.dataManager.valueForExchange ∨
      w'.dataManager.valueForExchange = 0 ∨ ∃ same text, a = .textEdited same text ∧
        w'.dataManager.valueForExchange = ExchangeCell.enteredValue text := by
  cases h with
  | edited same _ text bottom hcell => exact Or.inr (Or.inr ⟨same, text, rfl, rfl⟩)
  | ticked => exact Or.inl (congrArg DataManager.valueForExchange (startBatch_dataManager _ _))
  | responded same _ _ task json request hr h =>
    rw [h.value]
    split
    · exact Or.inr (Or.inl rfl)
    · exact Or.inl rfl
  | _ => exact Or.inl rfl

end

/-- Seeding touches an empty store only. -/
theorem seededDisk_cases (d : Disk Data) :
    seededDisk d = d ∨ (d.realm.currencies = [] ∧
      (seededDisk d).realm.currencies = Realm.seedCurrencies ∧
      (seededDisk d).history = d.history) := by
  by_cases h : d.realm.currencies.length = 0
  · refine Or.inr ⟨List.length_eq_zero_iff.mp h, ?_, rfl⟩
    simp [seededDisk, Realm.firstEnterConfigurationIfNeeded, h]
  · refine Or.inl ?_
    simp [seededDisk, Realm.firstEnterConfigurationIfNeeded, h]

theorem Launched.disk [JSONSerialization Data] {same : Identity} {d : Disk Data}
    {w' : World Data} (h : Launched same d w') : Still (seededDisk d) w'.toDisk := by
  cases h with
  | mk first top bottom hfirst htop hbottom =>
    have h := still_startBatch (shownFirst d first top bottom) (seededDisk d).realm.sortedKeys
    exact ⟨h.codes, h.amount, h.transfers⟩

theorem Launched.value [JSONSerialization Data] {same : Identity} {d : Disk Data}
    {w' : World Data} (h : Launched same d w') : w'.dataManager.valueForExchange = 0 := by
  cases h with
  | mk first top bottom hfirst htop hbottom =>
    exact congrArg DataManager.valueForExchange (startBatch_dataManager _ _)

section
variable [JSONSerialization Data]

/-- No stored balance changes and nothing is transferred. -/
structure Unmoved (d e : Disk Data) : Prop where
  amount : ∀ i ∈ d.realm.keys, e.realm.amount i = d.realm.amount i
  transfers : transfers e.history = transfers d.history

/-- One step of a process commits `t` on handling `json`. -/
structure Process.CommitsAt (p : Process Data) (a : Action) (w : World Data)
    (request : Request) (json : Option JSON) (t : Transfer) : Prop where
  running : p = .running w
  response : ∃ same, a = .responded same request.taskIdentifier json
  flight : w.request request.taskIdentifier = some request
  commits : Commits w request json t
  paid : Paid t p.disk (p.step a).disk

omit [JSONSerialization Data] in
theorem request_taskIdentifier {task : ℕ} {request : Request} (h : w.request task = some request) :
    request.taskIdentifier = task := by
  simpa using List.find?_some h

theorem Process.turnMoney_cases {a : Action} {d : Disk Data}
    (hd : d = ((Process.running w).step a).disk) (h : TurnMoney w a d) :
    Unmoved w.toDisk d ∨ ∃ request json t,
      (Process.running w).CommitsAt a w request json t := by
  cases h with
  | still _ _ h => exact Or.inl ⟨fun i _ => h.amount i, h.transfers⟩
  | answered same task json request _ hr h =>
    cases h with
    | still h => exact Or.inl ⟨fun i _ => h.amount i, h.transfers⟩
    | paid t hc h =>
      obtain rfl := request_taskIdentifier hr
      exact Or.inr ⟨request, json, t, rfl, ⟨same, rfl⟩, hr, hc, hd ▸ h⟩

/-- Every step leaves the money alone or commits exactly one transfer. -/
theorem Process.step_money (p : Process Data) (a : Action) :
    Unmoved p.disk (p.step a).disk ∨ ∃ w request json t, p.CommitsAt a w request json t := by
  have hs := step_cases p a
  generalize hq : p.step a = q at hs
  have hunmoved (d : Disk Data) : Unmoved d (seededDisk d) := by
    rcases seededDisk_cases d with hd | ⟨hempty,-,hhistory⟩
    · rw [hd]
      exact ⟨fun _ _ => rfl, rfl⟩
    · refine ⟨?_, by rw [hhistory]⟩
      intro i hi
      simp [Realm.keys, hempty] at hi
  cases hs with
  | launched _ same w' h =>
    have hseed := hunmoved p.disk
    have hstill := h.disk
    exact Or.inl ⟨fun i hi => (hstill.amount i).trans (hseed.amount i hi),
      hstill.transfers.trans hseed.transfers⟩
  | launchAborted _ same x => exact Or.inl (hunmoved p.disk)
  | off disk reason => exact Or.inl ⟨fun _ _ => rfl, rfl⟩
  | turned w w' _ _ h =>
    rcases turnMoney_cases (by rw [hq]; rfl) h.money with h | ⟨request,json,t,h⟩
    · exact Or.inl h
    · exact Or.inr ⟨w, request, json, t, h⟩
  | aborted w _ e d _ h =>
    rcases turnMoney_cases (by rw [hq]; rfl) h.money with h | ⟨request,json,t,h⟩
    · exact Or.inl h
    · exact Or.inr ⟨w, request, json, t, h⟩

end

/-- A response to a request for euros. -/
def euroRates : Option JSON :=
  some (ratesResponse "EUR".toList
    [("USD".toList, .number (21/20)), ("GBP".toList, .number (17/20))])

/-- Ten euros are entered and confirmed against dollars. -/
def pressedTenEuros : List Action :=
  [.launch .interned, .responded .interned 0 euroRates, .notified .interned 1,
    .bottomScrollEnded .interned 1, .textEdited .interned (some "10".toList), .exchangePressed]

end CurrencyConverter
