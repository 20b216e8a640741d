import CurrencyConverter.ResponseSafety

/-! The preview in the bottom cell and the credit an exchange would book. A notification
still to be delivered that names the bottom currency's row is going to fill the cell again,
so the cell may lag behind until then. -/
namespace CurrencyConverter
open JSONTree Token DecimalText

variable {Data : Type} {w : World Data}

/-- The bottom text is the product of the amount and the rate of the selected bottom currency,
with two decimals. There is nothing to show for one currency in both views, or where the
rate cannot be read. -/
def ShowsProduct (w : World Data) (top : NSString) (value : ℚ) (rate : Except NSException ℚ) :
    Prop :=
  w.dataManager.selectedBottomCurrency ≠ some top →
    ∀ q, rate = .ok q → w.screen.bottomCell.valueTextField = twoDecimals (value*q)

/-- A notification still to be delivered names the row of the bottom currency. -/
def RefillDue (w : World Data) : Prop :=
  ∃ bottom ∈ w.dataManager.selectedBottomCurrency, bottom ∈ w.modifications.flatten

/-- A confirmed exchange of `request` is going to be committed. -/
def WillCommit (w : World Data) (request : Request) : Prop :=
  request.performExchange = true ∧ w.dataManager.valueForExchange ≤ w.realm.amount request.currency ∧
    w.dataManager.valueForExchange ≠ 0

section
variable [JSONSerialization Data]

/-- The response is going to be written over the list stored for its currency. -/
def rewrites (same : Bool) (w : World Data) (request : Request) (json : Option JSON) : Bool :=
  match (UnmanagedRateList.initWithAttributes json : Except _ (UnmanagedRateList Data)) with
  | .ok rateList => !rateList.isEqual same (w.realm.rateList request.currency)
  | .error _ => false

/-- The rate of the bottom currency in the list stored for the top one, after `json` has
answered `request`. -/
def answeredRate (w : World Data) (request : Request) (json : Option JSON) (top : NSString) :
    Except NSException ℚ :=
  if top = request.currency then responseRate json w.dataManager.selectedBottomCurrency
  else storedRate w top

/-- The preview of the visible bottom cell is the credit an exchange would book now. -/
def Previewed (w : World Data) : Prop :=
  ∀ top ∈ w.dataManager.selectedTopCurrency,
    ShowsProduct w top w.dataManager.valueForExchange (storedRate w top)

/-- The turns that keep the preview right. A top scroll, the reset of the amount and new rates
for the top currency do not fill the bottom cell: they leave it right when it already
shows the new product, or when a notification is due that fills it. -/
def PreviewKept (w : World Data) : Action → Prop
  | .topScrollEnded _ item => item < w.dataManager.currencies.length → RefillDue w ∨
    ∀ top ∈ w.dataManager.currencies[min item (numberOfPages-1)]?,
      ShowsProduct w top w.dataManager.valueForExchange (storedRate w top)
  | .responded same task json => ∀ request ∈ w.requests, w.request task = some request →
    RefillDue w ∨ WillCommit w request ∨
    (w.dataManager.selectedBottomCurrency = some request.currency ∧
      rewrites same.base w request json = true) ∨
    ∀ top ∈ w.dataManager.selectedTopCurrency, ShowsProduct w top
      (if request.performExchange then 0 else w.dataManager.valueForExchange)
      (answeredRate w request json top)
  | _ => True

instance (w : World Data) (top : NSString) (value : ℚ) (rate : Except NSException ℚ) :
    Decidable (ShowsProduct w top value rate) :=
  decidable_of_iff (w.dataManager.selectedBottomCurrency ≠ some top →
    ∀ q ∈ rate.toOption, w.screen.bottomCell.valueTextField = twoDecimals (value*q))
    (by simp only [ShowsProduct, Effects.mem_toOption])

instance (w : World Data) : Decidable (RefillDue w) :=
  inferInstanceAs (Decidable (∃ bottom ∈ w.dataManager.selectedBottomCurrency, _))

instance (w : World Data) (request : Request) : Decidable (WillCommit w request) :=
  inferInstanceAs (Decidable (_ ∧ _ ∧ _))

instance : ∀ (w : World Data) (a : Action), Decidable (PreviewKept w a)
  | w, .topScrollEnded _ item => inferInstanceAs (Decidable
      (item < w.dataManager.currencies.length → RefillDue w ∨
        ∀ top ∈ w.dataManager.currencies[min item (numberOfPages-1)]?, _))
  | w, .responded _ _ _ => inferInstanceAs (Decidable (∀ request ∈ w.requests, _))
  | _, .launch _ | _, .bottomScrollEnded _ _ | _, .textEdited _ _ | _, .exchangePressed
  | _, .timerFired | _, .failed _ _ | _, .notified _ _ => isTrue trivial

theorem previewKept_of_idle {a : Action} (h : Idle w a) : PreviewKept w a := by
  cases a with
  | topScrollEnded same item => exact fun hlt => absurd h (not_le.mpr hlt)
  | responded same task json =>
    intro request _ hr
    rw [h] at hr
    contradiction
  | launch | textEdited | notified => exact h.elim
  | _ => trivial

/-- The bottom cell is right, or is going to be filled again. -/
def PreviewDue (w : World Data) : Prop := RefillDue w ∨ Previewed w

theorem bottom_valueTextField {same : Bool} {realm : Realm Data} {dataManager : DataManager}
    {dequeued cell : ExchangeCell} {row : ℕ} {code : NSString}
    (hrow : dataManager.currencies[row]? = some code)
    (h : dataManager.cellForItemAtIndexPath .bottom same realm dequeued row = .ok cell) :
    dataManager.bottomText same realm code = .ok cell.valueTextField := by
  unfold DataManager.cellForItemAtIndexPath at h
  rw [hrow] at h
  obtain ⟨symbol,-,h⟩ := Effects.except_bind_ok h
  obtain ⟨text,htext,h⟩ := Effects.except_bind_ok h
  cases h
  exact htext

/-- Filling the bottom cell makes the preview right. -/
theorem previewed_of_filled {same : Bool} {dequeued : ExchangeCell}
    (hrow : w.dataManager.currencies[w.screen.bottomItem]? = w.dataManager.selectedBottomCurrency)
    (h : w.dataManager.cellForItemAtIndexPath .bottom same w.realm dequeued
      w.screen.bottomItem = .ok w.screen.bottomCell) : Previewed w := by
  intro top htop hne rate hstored
  cases hbottom : w.dataManager.selectedBottomCurrency with
  | none =>
    rw [hbottom] at hrow
    unfold DataManager.cellForItemAtIndexPath at h
    rw [hrow] at h
    contradiction
  | some bottom =>
    have htext := bottom_valueTextField (hrow.trans hbottom) h
    rw [storedRate, hbottom] at hstored
    cases hlist : w.realm.rateList top with
    | none => simp [hlist, rateFor, jsonObjectWithData, bind, Except.bind] at hstored
    | some rateList =>
      have hdiffer : identical same (some top) (some bottom) = false := by
        have : top ≠ bottom := fun heq => hne (heq ▸ hbottom)
        simp [identical, this]
      rw [hlist, Option.map_some] at hstored
      have hselected : w.dataManager.selectedTopCurrency = some top := htop
      simp only [DataManager.bottomText, hselected, Option.bind_some, hlist, hdiffer, hstored,
        Bool.false_eq_true, ↓reduceIte] at htext
      exact (Except.ok.inj htext).symm

/-- The preview is made of the store, the selections, the amount and the bottom cell. -/
theorem Previewed.congr {w' : World Data} (hw : Previewed w) (hrealm : w'.realm = w.realm)
    (hmanager : w'.dataManager = w.dataManager)
    (hcell : w'.screen.bottomCell = w.screen.bottomCell) : Previewed w' := by
  have hrate (top : NSString) : storedRate w' top = storedRate w top := by
    rw [storedRate, hrealm, hmanager, storedRate]
  intro top htop
  rw [hmanager] at htop
  have htext := hw top htop
  rw [ShowsProduct, hmanager, hcell, hrate]
  exact htext

theorem PreviewDue.congr {w' : World Data} (hw : PreviewDue w) (hrealm : w'.realm = w.realm)
    (hmanager : w'.dataManager = w.dataManager)
    (hcell : w'.screen.bottomCell = w.screen.bottomCell)
    (hmodifications : w'.modifications = w.modifications) : PreviewDue w' := by
  rcases hw with hdue | hshown
  · refine Or.inl ?_
    rw [RefillDue, hmanager, hmodifications]
    exact hdue
  · exact Or.inr (hshown.congr hrealm hmanager hcell)

theorem Stored.pending {same : Bool} {key : NSString} {rateList : UnmanagedRateList Data}
    {refreshed : World Data} (h : Stored same key rateList w refreshed) (code : NSString) :
    code ∈ refreshed.modifications.flatten ↔ code ∈ w.modifications.flatten ∨
      (code = key ∧ rateList.isEqual same (w.realm.rateList key) = false) := by
  cases h with
  | kept he => simp [he]
  | written stored he hs => simp [RateListService.commitRateList, he]

/-- A refresh leaves the lists of other currencies alone. -/
theorem Stored.rateList_of_ne {same : Bool} {key other : NSString}
    {rateList : UnmanagedRateList Data} {refreshed : World Data}
    (h : Stored same key rateList w refreshed) (hne : other ≠ key) :
    refreshed.realm.rateList other = w.realm.rateList other := by
  cases h with
  | kept he => rfl
  | written stored he hs => exact w.realm.rateList_setRateList_of_ne _ stored hne

/-- A committed exchange names the row of the bottom currency. -/
theorem Exchanged.pending {key bottom : NSString} {needed : Bool} {w' : World Data}
    (h : Exchanged key w needed w') (hbottom : w.dataManager.selectedBottomCurrency = some bottom) :
    bottom ∈ w'.modifications.flatten ↔ bottom ∈ w.modifications.flatten ∨
      (needed = true ∧ w.dataManager.valueForExchange ≤ w.realm.amount key ∧
        w.dataManager.valueForExchange ≠ 0) := by
  cases h with
  | notNeeded => simp
  | rejected error rate hrate h =>
    have hrefused := not_covered_of_refused h
    simp only [true_and, hrefused, or_false]
    rfl
  | committed rate hrate hfunds hvalue =>
    simp [resetValue, StorageService.commitTransfer, askedTransfer, hbottom, hfunds, hvalue]

omit [JSONSerialization Data] in
theorem Left.modifications {request : Request} {w' : World Data} (h : Left request w w') :
    w'.modifications = w.modifications := by
  cases h with
  | mk group fired groups hg hl => rfl

theorem rewrites_iff {same : Bool} {request : Request} {json : Option JSON}
    {rateList : UnmanagedRateList Data}
    (h : UnmanagedRateList.initWithAttributes json = .ok rateList) :
    rewrites same w request json = true ↔
      rateList.isEqual same (w.realm.rateList request.currency) = false := by
  simp only [rewrites, h, Bool.not_eq_true']

/-- The refresh decides nothing about the exchange. -/
theorem Succeeded.willCommit_iff {same : Bool} {request : Request} {json : Option JSON}
    {w' : World Data} (h : Succeeded same request json w w') :
    WillCommit h.refreshed request ↔ WillCommit w request := by
  obtain ⟨hmanager,-,hamount⟩ := h.refreshed_frame
  rw [WillCommit, WillCommit, hmanager, hamount]

/-- After a handled response a notification is due for the bottom currency if one was due
before, or the exchange was committed, or the bottom currency's own list was rewritten. -/
theorem Succeeded.refillDue_iff {same : Bool} {request : Request} {json : Option JSON}
    {w' : World Data} (h : Succeeded same request json w w') {bottom : NSString}
    (hbottom : w.dataManager.selectedBottomCurrency = some bottom) :
    RefillDue w' ↔ RefillDue w ∨ WillCommit w request ∨
      (w.dataManager.selectedBottomCurrency = some request.currency ∧
        rewrites same w request json = true) := by
  obtain ⟨hmanager,-,-⟩ := h.refreshed_frame
  have hselected : h.refreshed.dataManager.selectedBottomCurrency = some bottom := by
    rw [hmanager]
    exact hbottom
  obtain ⟨-,-,hkept⟩ := h.selections
  have hafter : w'.dataManager.selectedBottomCurrency = some bottom := hkept.trans hbottom
  have hstored := h.stored.pending bottom
  have hexchange := h.exchange.pending hselected
  rw [hstored] at hexchange
  rw [RefillDue, hafter, RefillDue, hbottom, h.left.modifications, rewrites_iff h.parsed]
  simp only [Option.mem_some_iff, exists_eq_left', Option.some.injEq]
  rw [hexchange, ← h.willCommit_iff]
  exact or_assoc.trans (or_congr_right or_comm)

/-- A handled response leaves the lists of other currencies alone. -/
theorem Succeeded.rateList_of_ne {same : Bool} {request : Request} {json : Option JSON}
    {w' : World Data} (h : Succeeded same request json w w') {i : NSString}
    (hi : i ≠ request.currency) : w'.realm.rateList i = w.realm.rateList i := by
  calc w'.realm.rateList i
      = h.exchanged.realm.rateList i := by rw [h.left.realm]
    _ = h.refreshed.realm.rateList i := h.exchange.rateLists.2.2 i
    _ = w.realm.rateList i := h.stored.rateList_of_ne hi

/-- Handling a response leaves the lists of other currencies alone, and the list of its own
currency has the response's rates, written or skipped. -/
theorem Succeeded.storedRate {same : Bool} {request : Request} {json : Option JSON}
    {w' : World Data} (h : Succeeded same request json w w')
    (hkey : request.currency ∈ w.realm.keys) (top : NSString) :
    storedRate w' top = answeredRate w request json top := by
  obtain ⟨-,-,hselected⟩ := h.selections
  rw [CurrencyConverter.storedRate, answeredRate, hselected]
  by_cases htop : top = request.currency
  · obtain ⟨-,found,hfound,hrates⟩ := h.found hkey
    obtain ⟨rates,hpath,hc,hencode⟩ := initWithAttributes_rates h.parsed
    rw [if_pos htop, htop, hfound, Option.map_some, hrates, hencode, rateFor_encode _ hpath hc]
  · rw [if_neg htop, h.rateList_of_ne htop]
    rfl

theorem Succeeded.previewed_iff {same : Bool} {request : Request} {json : Option JSON}
    {w' : World Data} (h : Succeeded same request json w w')
    (hkey : request.currency ∈ w.realm.keys) :
    Previewed w' ↔ ∀ top ∈ w.dataManager.selectedTopCurrency, ShowsProduct w top
      (if request.performExchange then 0 else w.dataManager.valueForExchange)
      (answeredRate w request json top) := by
  obtain ⟨hscreen,-⟩ := h.frame
  obtain ⟨-,htop,hbottom⟩ := h.selections
  simp only [Previewed, ShowsProduct, htop, hbottom, h.value, hscreen, h.storedRate hkey]

omit [JSONSerialization Data] in
/-- The visible row is among the modified ones when the notification names its currency. -/
theorem Seeded.bottom_modified (hs : Seeded w) {bottom : NSString}
    (hbottom : w.dataManager.selectedBottomCurrency = some bottom) {count : ℕ}
    (h : bottom ∈ (w.modifications.take count).flatten) :
    w.screen.bottomItem ∈ modifiedIndexes w count := by
  have hitem := hs.bottom
  rw [hbottom] at hitem
  obtain ⟨hlt,hcode⟩ := List.getElem?_eq_some_iff.mp hitem.symm
  have hnodup : Currency.allCurrencies.Nodup := by decide
  have hindex := hnodup.idxOf_getElem w.screen.bottomItem hlt
  rw [hcode] at hindex
  rw [modifiedIndexes, sortedKeys_of_seededCodes hs.codes, ← hindex]
  exact List.mem_map_of_mem h

omit [JSONSerialization Data] in
/-- What a delivery does not name stays due. -/
theorem RefillDue.delivered {count : ℕ} {bottom : NSString}
    (hbottom : w.dataManager.selectedBottomCurrency = some bottom)
    (h : bottom ∉ (w.modifications.take count).flatten) :
    RefillDue (delivered w count) ↔ RefillDue w := by
  have hsplit : w.modifications.flatten =
      (w.modifications.take count).flatten ++ (w.modifications.drop count).flatten := by
    rw [← List.flatten_append, List.take_append_drop]
  have hafter : (CurrencyConverter.delivered w count).dataManager.selectedBottomCurrency =
      some bottom := hbottom
  rw [RefillDue, RefillDue, hbottom, hafter, hsplit]
  simp only [Option.mem_some_iff, exists_eq_left', List.mem_append, h, false_or]
  rfl

/-- A top scroll keeps the text and compares it with the product for the new top currency. -/
theorem scrolledTop_previewDue_iff {same : Identity} {item : ℕ} {top : NSString}
    {cell : ExchangeCell} : PreviewDue (scrolledTop same w item top cell) ↔
      RefillDue w ∨ ShowsProduct w top w.dataManager.valueForExchange (storedRate w top) := by
  constructor
  · rintro (hdue | hshown)
    · exact Or.inl hdue
    · exact Or.inr (hshown top rfl)
  · rintro (hdue | hshown)
    · exact Or.inl hdue
    · refine Or.inr ?_
      rintro _ ⟨⟩
      exact hshown

/-- A bottom scroll fills the cell of the new item, or stays at the one shown. -/
theorem PreviewDue.scrolledBottom {same : Identity} {item : ℕ} {bottom : NSString}
    {cell : ExchangeCell} (hw : PreviewDue w) (hs : Seeded w)
    (hbottom : w.dataManager.currencies[item]? = some bottom)
    (hcell : Refilled (w.screen.bottomItem ≠ item) .bottom same.cell w item
      w.screen.bottomCell cell) : PreviewDue (scrolledBottom same w item bottom cell) := by
  by_cases hmoved : w.screen.bottomItem ≠ item
  · exact Or.inr (previewed_of_filled hbottom (hcell.1 hmoved))
  · have hstill : w.screen.bottomItem = item := not_not.mp hmoved
    have hselected : w.dataManager.selectedBottomCurrency = some bottom := by
      rw [← hbottom, ← hs.bottom_row, hstill]
    have hmanager : { w.dataManager with selectedBottomCurrency := some bottom } =
        w.dataManager := by rw [← hselected]
    exact hw.congr rfl hmanager (hcell.2 hmoved) rfl

/-- A delivery that does not name the bottom currency's row leaves the bottom cell alone. -/
theorem PreviewDue.delivered {count : ℕ} {bottom : NSString} {w' : World Data}
    (hw : PreviewDue w) (hbottom : w.dataManager.selectedBottomCurrency = some bottom)
    (h : bottom ∉ (w.modifications.take count).flatten) (hrealm : w'.realm = w.realm)
    (hmanager : w'.dataManager = w.dataManager)
    (hcell : w'.screen.bottomCell = w.screen.bottomCell)
    (hmodifications : w'.modifications = w.modifications.drop count) : PreviewDue w' := by
  have hafter : PreviewDue (CurrencyConverter.delivered w count) := by
    rcases hw with hdue | hshown
    · exact Or.inl ((RefillDue.delivered hbottom h).mpr hdue)
    · exact Or.inr (hshown.congr rfl rfl rfl)
  exact hafter.congr hrealm hmanager hcell hmodifications

/-- A notification fills the bottom cell when it names its row. -/
theorem PreviewDue.notified {same : Identity} {count : ℕ} {top bottom : ExchangeCell}
    (hw : PreviewDue w) (hs : Seeded w)
    (hcell : Refilled (w.screen.bottomItem ∈ modifiedIndexes w count) .bottom same.cell
      (updatedCurrencies w) w.screen.bottomItem w.screen.bottomCell bottom) :
    PreviewDue (shownCells (updatedCurrencies (CurrencyConverter.delivered w count))
      top bottom) := by
  have hmanager : (updatedCurrencies w).dataManager = w.dataManager := by
    rw [updatedCurrencies, hs.sortedKeys]
  by_cases hmodified : w.screen.bottomItem ∈ modifiedIndexes w count
  · have hrow : (updatedCurrencies w).dataManager.currencies[w.screen.bottomItem]? =
        w.dataManager.selectedBottomCurrency := by rw [hmanager, hs.bottom_row]
    exact Or.inr (previewed_of_filled hrow (hcell.1 hmodified))
  · obtain ⟨code,-,hcode⟩ := hs.bottom_mem
    have hnone : code ∉ (w.modifications.take count).flatten :=
      fun hnamed => hmodified (hs.bottom_modified hcode hnamed)
    exact hw.delivered hcode hnone rfl hmanager (hcell.2 hmodified) rfl

/-- The condition is exact: of the turns that end normally, those and only those that meet
it keep the preview right or a notification due. -/
theorem Turn.previewDue_iff {a : Action} {w' : World Data} (h : Turn a w w') (hs : Seeded w)
    (hw : PreviewDue w) : PreviewDue w' ↔ PreviewKept w a := by
  cases h with
  | idle _ _ h => exact iff_of_true hw (previewKept_of_idle h)
  | scrolledTop same _ item top cell hitem htop hcell =>
    rw [scrolledTop_previewDue_iff, PreviewKept, htop]
    simp only [hitem, forall_const, Option.mem_some_iff, forall_eq']
  | scrolledBottom same _ item bottom cell hitem hbottom hcell =>
    rw [min_page (hs.item_lt hitem)] at hbottom
    exact iff_of_true (hw.scrolledBottom hs hbottom hcell) trivial
  | edited same _ text bottom hcell =>
    -- an edit reloads the whole bottom view
    exact iff_of_true (Or.inr (previewed_of_filled hs.bottom_row (hcell.1 trivial))) trivial
  | ticked =>
    refine iff_of_true ?_ trivial
    exact hw.congr (startBatch_realm w w.timer) (startBatch_dataManager w w.timer)
      (congrArg Screen.bottomCell (startBatch_screen w w.timer))
      (startBatch_modifications w w.timer)
  | responded same _ _ task json request hr h =>
    have hmem := List.mem_of_find?_eq_some hr
    have hkey : request.currency ∈ (completed w request).realm.keys := hs.request_mem_keys hmem
    obtain ⟨bottom,-,hbottom⟩ := hs.bottom_mem
    rw [PreviewDue, h.refillDue_iff (w := completed w request) hbottom, h.previewed_iff hkey,
      or_assoc, or_assoc]
    constructor
    · intro hafter other _ hother
      obtain rfl : request = other := Option.mem_unique hr hother
      exact hafter
    · intro hc
      exact hc request hmem hr
  | deliveredNothing same _ count h =>
    obtain ⟨bottom,-,hbottom⟩ := hs.bottom_mem
    have hnone : bottom ∉ (w.modifications.take count).flatten := by
      rw [h]
      exact List.not_mem_nil
    exact iff_of_true (hw.delivered hbottom hnone rfl rfl rfl rfl) trivial
  | notified same _ count top bottom h htop hbottom =>
    exact iff_of_true (hw.notified hs hbottom) trivial
  | pressed => exact iff_of_true (hw.congr rfl rfl rfl rfl) trivial
  | failed => exact iff_of_true (hw.congr rfl rfl rfl rfl) trivial

/-- A launch selects one currency in both views. -/
theorem Launched.previewed {same : Identity} {d : Disk Data} {w' : World Data}
    (h : Launched same d w') : Previewed w' := by
  cases h with
  | mk first top bottom hfirst htop hbottom =>
    have hmanager := startBatch_dataManager (shownFirst d first top bottom)
      (seededDisk d).realm.sortedKeys
    rintro code hcode hdiffer
    have hselected : some first = some code :=
      (congrArg DataManager.selectedTopCurrency hmanager).symm.trans hcode
    have hboth := congrArg DataManager.selectedBottomCurrency hmanager
    exact absurd (hboth.trans hselected) hdiffer

theorem preserved_previewDue : Process.Preserved (fun d : Disk Data => Unseeded d ∨ Booked d)
    (fun w => (Booked w.toDisk ∧ Seeded w) ∧ PreviewDue w) PreviewKept where
  launched hd hl := by
    have hseeded := preserved_seeded.launched hd hl
    exact ⟨hseeded.1, hseeded.2, Or.inr hl.previewed⟩
  seeded hd := preserved_seeded.seeded hd
  turned hd hw hc ht := by
    have hseeded := preserved_seeded.turned hd hw.1 trivial ht
    exact ⟨hseeded.1, hseeded.2, (ht.previewDue_iff hw.1.2 hw.2).mpr hc⟩
  aborted hd hw hc ha := preserved_seeded.aborted hd hw.1 trivial ha

end

/-- A response to a request for pounds. -/
def poundRates : Option JSON :=
  some (ratesResponse "GBP".toList
    [("EUR".toList, .number (6/5)), ("USD".toList, .number (5/4))])

end CurrencyConverter
