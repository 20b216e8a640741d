import CurrencyConverter.LedgerLaw

/-! What every running app holds onto: the three seeded currencies, in the order of their
indexes, and selections that are the currencies on screen. -/
namespace CurrencyConverter
open JSONTree

variable {Data : Type} {w : World Data}

/-- Everything a running app refers to is one of the seeded currencies. -/
structure Seeded (w : World Data) : Prop where
  codes : w.realm.codes = Realm.seededCodes
  currencies : w.dataManager.currencies = Currency.allCurrencies
  topItem : w.screen.topItem < numberOfPages
  bottomItem : w.screen.bottomItem < numberOfPages
  top : w.dataManager.selectedTopCurrency = Currency.allCurrencies[w.screen.topItem]?
  bottom : w.dataManager.selectedBottomCurrency = Currency.allCurrencies[w.screen.bottomItem]?
  timer : w.timer = Currency.allCurrencies
  requests : ∀ r ∈ w.requests, r.currency ∈ Currency.allCurrencies

theorem keys_of_seededCodes {realm : Realm Data} (h : realm.codes = Realm.seededCodes) :
    realm.keys = Currency.allCurrencies := by
  rw [Realm.keys_eq_codes, h]
  rfl

/-- The results are sorted by index, so the first currency is always the euro. -/
theorem sortedKeys_of_seededCodes {realm : Realm Data}
    (h : realm.codes = Realm.seededCodes) : realm.sortedKeys = Currency.allCurrencies := by
  rw [Realm.sortedKeys_eq_codes, h]
  decide

theorem allCurrencies_getElem_isSome {item : ℕ} (h : item < numberOfPages) :
    ∃ c ∈ Currency.allCurrencies, Currency.allCurrencies[item]? = some c := by
  have hlen : item < Currency.allCurrencies.length := h
  exact ⟨_, List.getElem_mem hlen, List.getElem?_eq_getElem hlen⟩

theorem Seeded.top_mem (hw : Seeded w) :
    ∃ c ∈ Currency.allCurrencies, w.dataManager.selectedTopCurrency = some c := by
  obtain ⟨c,hc,hitem⟩ := allCurrencies_getElem_isSome hw.topItem
  exact ⟨c, hc, hw.top.trans hitem⟩

theorem Seeded.bottom_mem (hw : Seeded w) :
    ∃ c ∈ Currency.allCurrencies, w.dataManager.selectedBottomCurrency = some c := by
  obtain ⟨c,hc,hitem⟩ := allCurrencies_getElem_isSome hw.bottomItem
  exact ⟨c, hc, hw.bottom.trans hitem⟩

/-- The visible items are those of the selected currencies. -/
theorem Seeded.top_row (hw : Seeded w) :
    w.dataManager.currencies[w.screen.topItem]? = w.dataManager.selectedTopCurrency := by
  rw [hw.currencies, hw.top]

theorem Seeded.bottom_row (hw : Seeded w) :
    w.dataManager.currencies[w.screen.bottomItem]? = w.dataManager.selectedBottomCurrency := by
  rw [hw.currencies, hw.bottom]

/-- A notification brings the currencies that are there already. -/
theorem Seeded.sortedKeys (hw : Seeded w) : w.realm.sortedKeys = w.dataManager.currencies := by
  rw [sortedKeys_of_seededCodes hw.codes, hw.currencies]

theorem Seeded.request_mem_keys (hw : Seeded w) {r : Request} (hr : r ∈ w.requests) :
    r.currency ∈ w.realm.keys := by
  rw [keys_of_seededCodes hw.codes]
  exact hw.requests r hr

theorem Seeded.item_lt (hw : Seeded w) {item : ℕ}
    (hitem : item < w.dataManager.currencies.length) : item < numberOfPages := by
  rw [hw.currencies] at hitem
  exact hitem

/-- The page control pins nothing: it has a page for every item. -/
theorem min_page {item : ℕ} (h : item < numberOfPages) : min item (numberOfPages-1) = item := by
  unfold numberOfPages at h ⊢
  omega

/-- Only writing to the store, selecting, scrolling, issuing and launching matter here. -/
theorem Seeded.congr {w' : World Data} (hw : Seeded w)
    (hcodes : w'.realm.codes = w.realm.codes)
    (hcurrencies : w'.dataManager.currencies = w.dataManager.currencies)
    (htop : w'.dataManager.selectedTopCurrency = w.dataManager.selectedTopCurrency)
    (hbottom : w'.dataManager.selectedBottomCurrency = w.dataManager.selectedBottomCurrency)
    (htopItem : w'.screen.topItem = w.screen.topItem)
    (hbottomItem : w'.screen.bottomItem = w.screen.bottomItem)
    (htimer : w'.timer = w.timer)
    (hrequests : ∀ r ∈ w'.requests, r ∈ w.requests ∨ r.currency ∈ Currency.allCurrencies) :
    Seeded w' where
  codes := hcodes.trans hw.codes
  currencies := hcurrencies.trans hw.currencies
  topItem := by rw [htopItem]; exact hw.topItem
  bottomItem := by rw [hbottomItem]; exact hw.bottomItem
  top := by rw [htop, htopItem]; exact hw.top
  bottom := by rw [hbottom, hbottomItem]; exact hw.bottom
  timer := htimer.trans hw.timer
  requests r hr := (hrequests r hr).elim (hw.requests r) id

theorem Seeded.completed (hw : Seeded w) (request : Request) : Seeded (completed w request) :=
  hw.congr rfl rfl rfl rfl rfl rfl rfl (fun _ hr => Or.inl (List.mem_of_mem_erase hr))

theorem issueBatch_requests (g : ℕ) (currencies : List NSString) :
    ∀ r ∈ (issueBatch w g currencies).requests, r ∈ w.requests ∨ r.currency ∈ currencies := by
  induction currencies generalizing w with
  | nil => exact fun r hr => Or.inl hr
  | cons base currencies ih =>
    intro r hr
    rcases ih (w := enterAndIssue w g base false) r hr with hold | hnew
    · rcases List.mem_cons.mp hold with rfl | hold
      · exact Or.inr List.mem_cons_self
      · exact Or.inl hold
    · exact Or.inr (List.mem_cons_of_mem base hnew)

theorem startBatch_requests (w : World Data) (currencies : List NSString) :
    ∀ r ∈ (startBatch w currencies).requests, r ∈ w.requests ∨ r.currency ∈ currencies :=
  fun r hr => issueBatch_requests (w := openGroup w) w.groups.next currencies r hr

section
variable [JSONSerialization Data]

theorem Turn.seeded {a : Action} {w' : World Data} (h : Turn a w w') (hw : Seeded w) :
    Seeded w' := by
  have hcodes : w'.realm.codes = w.realm.codes := by
    cases h.money with
    | still _ _ h => exact h.codes
    | answered same task json request _ hr h =>
      cases h with
      | still h => exact h.codes
      | paid t hc h => exact h.codes
  cases h with
  | scrolledTop same _ item top cell hitem htop hcell =>
    -- three items and three pages: the page set is the item scrolled to
    have hpage := hw.item_lt hitem
    rw [min_page hpage, hw.currencies] at htop
    exact ⟨hw.codes, hw.currencies, hpage, hw.bottomItem, htop.symm, hw.bottom, hw.timer,
      hw.requests⟩
  | scrolledBottom same _ item bottom cell hitem hbottom hcell =>
    have hpage := hw.item_lt hitem
    rw [min_page hpage, hw.currencies] at hbottom
    exact ⟨hw.codes, hw.currencies, hw.topItem, hpage, hw.top, hbottom.symm, hw.timer,
      hw.requests⟩
  | pressed _ group top henabled hgroup htop =>
    apply hw.congr hcodes rfl rfl rfl rfl rfl rfl
    intro r hr
    rcases List.mem_cons.mp hr with rfl | hr
    · obtain ⟨c,hc,hsel⟩ := hw.top_mem
      obtain rfl : top = c := Option.mem_unique htop hsel
      exact Or.inr hc
    · exact Or.inl hr
  | ticked =>
    have hmanager := startBatch_dataManager w w.timer
    have hscreen := startBatch_screen w w.timer
    apply hw.congr hcodes (by rw [hmanager]) (by rw [hmanager]) (by rw [hmanager])
      (by rw [hscreen]) (by rw [hscreen]) (startBatch_timer w w.timer)
    intro r hr
    rw [← hw.timer]
    exact startBatch_requests w w.timer r hr
  | responded same _ _ task json request hr h =>
    obtain ⟨hscreen,-,htimer,-,-⟩ := h.frame
    obtain ⟨hcurrencies,htop,hbottom⟩ := h.selections
    apply hw.congr hcodes hcurrencies htop hbottom (congrArg Screen.topItem hscreen)
      (congrArg Screen.bottomItem hscreen) htimer
    intro r hr
    rw [h.requests] at hr
    exact Or.inl (List.mem_of_mem_erase hr)
  | failed _ task error request hr =>
    apply hw.congr hcodes rfl rfl rfl rfl rfl rfl
    intro r hr
    exact Or.inl (List.mem_of_mem_erase hr)
  | notified same _ count top bottom h htop hbottom =>
    exact hw.congr hcodes hw.sortedKeys rfl rfl rfl rfl rfl (fun r hr => Or.inl hr)
  | idle => exact hw
  | edited => exact hw.congr hcodes rfl rfl rfl rfl rfl rfl (fun r hr => Or.inl hr)
  | deliveredNothing => exact hw.congr hcodes rfl rfl rfl rfl rfl rfl (fun r hr => Or.inl hr)

theorem Launched.seeded {same : Identity} {d : Disk Data} {w' : World Data}
    (h : Launched same d w') (hd : Booked (seededDisk d)) : Seeded w' := by
  have hcodes : w'.realm.codes = Realm.seededCodes := h.disk.codes.trans hd.codes
  have hsorted := sortedKeys_of_seededCodes hd.codes
  cases h with
  | mk first top bottom hfirst htop hbottom =>
    let shown := shownFirst d first top bottom
    have hmanager := startBatch_dataManager shown (seededDisk d).realm.sortedKeys
    have hscreen := startBatch_screen shown (seededDisk d).realm.sortedKeys
    have heuro : some first = Currency.allCurrencies[0]? := by rw [← hfirst, hsorted]
    refine ⟨hcodes, ?_, ?_, ?_, ?_, ?_, hsorted, ?_⟩
    · exact (congrArg DataManager.currencies hmanager).trans hsorted
    · exact (congrArg Screen.topItem hscreen).trans_lt (Nat.succ_pos 2)
    · exact (congrArg Screen.bottomItem hscreen).trans_lt (Nat.succ_pos 2)
    · have htopItem : (startBatch shown (seededDisk d).realm.sortedKeys).screen.topItem = 0 :=
        congrArg Screen.topItem hscreen
      exact (congrArg DataManager.selectedTopCurrency hmanager).trans (htopItem ▸ heuro)
    · have hbottomItem :
          (startBatch shown (seededDisk d).realm.sortedKeys).screen.bottomItem = 0 :=
        congrArg Screen.bottomItem hscreen
      exact (congrArg DataManager.selectedBottomCurrency hmanager).trans (hbottomItem ▸ heuro)
    · intro r hr
      -- no request outlives its process
      rcases startBatch_requests shown _ r hr with hold | hnew
      · contradiction
      · rwa [hsorted] at hnew

theorem preserved_seeded : Process.Preserved (fun d : Disk Data => Unseeded d ∨ Booked d)
    (fun w => Booked w.toDisk ∧ Seeded w) (fun _ _ => True) where
  launched hd hl := by
    have hbooked := preserved_booked.launched hd hl
    exact ⟨hbooked.1, hbooked.2, hl.seeded (booked_seededDisk hd)⟩
  seeded hd := preserved_booked.seeded hd
  turned hd hw hc ht := by
    have hbooked := preserved_booked.turned hd hw.1 hc ht
    exact ⟨hbooked.1, hbooked.2, ht.seeded hw.2⟩
  aborted hd hw hc ha := preserved_booked.aborted hd hw.1 hc ha

/-- Every app running after any number of launches, turns and aborts. -/
theorem seeded_of_run {actions : List Action}
    (h : (Process.installed (Realm.empty : Realm Data)).run actions = .running w) :
    Seeded w := by
  have hstart : (Process.installed (Realm.empty : Realm Data)).Holds
      (fun d => Unseeded d ∨ Booked d) (fun w => Booked w.toDisk ∧ Seeded w) :=
    Or.inl ⟨rfl, rfl⟩
  have hrun := preserved_seeded.run_always hstart actions
  rw [h] at hrun
  exact hrun.2.2

end

end CurrencyConverter
