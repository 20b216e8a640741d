import CurrencyConverter.RateListSteps

/-! Refreshing with unchanged rates. The comparison that decides whether a response is written
looks at the bytes of the rates and at the pointer of the base. -/
namespace CurrencyConverter
open JSONTree Token

variable {Data : Type} {w : World Data}

/-- A response as documented, with these contents. -/
def HasContent (json : Option JSON) (base : NSString) (rates : List (NSString × JSON)) : Prop :=
  ∃ fields, json = some (.object fields) ∧ fields.lookup "base".toList = some (.string base) ∧
    fields.lookup "rates".toList = some (.object rates)

section
variable [JSONSerialization Data]

/-- The rate list with these contents. -/
def contentList (base : NSString) (rates : List (NSString × JSON)) : RateList Data where
  base := some base
  rates := JSONSerialization.encode (.object rates)

/-- The list stored for the request's currency has the characters of this base and the bytes
of these rates. -/
def SameContent (w : World Data) (request : Request) (base : NSString)
    (rates : List (NSString × JSON)) : Prop :=
  w.realm.rateList request.currency = some (contentList base rates)

variable (Data) in
theorem HasContent.parsed {json : Option JSON} {base : NSString}
    {rates : List (NSString × JSON)} (h : HasContent json base rates) :
    ∃ rateList : UnmanagedRateList Data,
      UnmanagedRateList.initWithAttributes json = .ok rateList ∧
      rateList.base = some (.string base) ∧
      rateList.rates = JSONSerialization.encode (.object rates) := by
  obtain ⟨fields,rfl,hbase,hrates⟩ := h
  exact ⟨_, initWithAttributes_object hrates, hbase, rfl⟩

theorem HasContent.receivedList {json : Option JSON} {base : NSString}
    {rates : List (NSString × JSON)} (h : HasContent json base rates) :
    receivedList json = some (contentList base rates : RateList Data) := by
  obtain ⟨rateList,hp,hbase,hrates⟩ := h.parsed Data
  rw [receivedList_of_parsed hp, UnmanagedRateList.addToRealm, hbase, hrates]
  rfl

/-- The comparison says equal when the contents are the same and the two bases are one
object. -/
theorem HasContent.rewrites_iff {json : Option JSON} {base : NSString}
    {rates : List (NSString × JSON)} (h : HasContent json base rates) (same : Bool)
    (request : Request) : rewrites same w request json = false ↔
      SameContent w request base rates ∧ same = true := by
  obtain ⟨rateList,hp,hbase,hrates⟩ := h.parsed Data
  have hrewrites : rewrites same w request json =
      !rateList.isEqual same (w.realm.rateList request.currency) := by rw [rewrites, hp]
  rw [hrewrites, Bool.not_eq_false', SameContent]
  cases hlist : w.realm.rateList request.currency with
  | none => simp [UnmanagedRateList.isEqual]
  | some other =>
    cases other with
    | mk otherBase otherRates =>
      unfold UnmanagedRateList.isEqual
      cases otherBase with
      | none => simp [hbase, identical, contentList]
      | some s =>
        simp only [hbase, hrates, Option.bind_some, Bool.and_eq_true, identical_some,
          isEqualToData_iff, contentList, Option.some.injEq, RateList.mk.injEq]
        constructor
        · rintro ⟨⟨rfl,hsame⟩,rfl⟩
          exact ⟨⟨rfl, rfl⟩, hsame⟩
        · rintro ⟨⟨rfl,rfl⟩,hsame⟩
          exact ⟨⟨rfl, hsame⟩, rfl⟩

theorem HasContent.insertedList {json : Option JSON} {base : NSString}
    {rates : List (NSString × JSON)} (h : HasContent json base rates) (same : Bool)
    (request : Request) : insertedList same w request json =
      if rewrites same w request json then some (contentList base rates) else none := by
  rw [CurrencyConverter.insertedList, h.receivedList]

/-- The write transaction of the exchange the response performs, if it performs one. -/
def exchangeTransactions (w : World Data) (request : Request) : List (List NSString) :=
  if WillCommit w request then [request.currency :: w.dataManager.selectedBottomCurrency.toList]
  else []

/-- The response has opened no write transaction for its rates. -/
structure NothingWritten (w : World Data) (request : Request) (after : Process Data) : Prop where
  lists : Realm.SameLists w.realm after.disk.realm
  plain : request.performExchange = false → after.disk.realm = w.realm
  notified : ∀ w', after = .running w' →
    w'.modifications = w.modifications ++ exchangeTransactions w request

/-- The response has inserted its list in a write transaction that modifies its currency. -/
structure Written (w : World Data) (request : Request) (rateList : RateList Data)
    (after : Process Data) : Prop where
  rows : after.disk.realm.rateLists = w.realm.rateLists ++ [rateList]
  notified : ∀ w', after = .running w' →
    w'.modifications = w.modifications ++ [request.currency] :: exchangeTransactions w request

omit [JSONSerialization Data] in
theorem Written.not_nothing {request : Request} {rateList : RateList Data} {after : Process Data}
    (h : Written w request rateList after) : ¬NothingWritten w request after := by
  intro hn
  have hlen := congrArg List.length (h.rows.symm.trans hn.lists.rows)
  simp at hlen

/-- An exchange that is committed is one more transaction. -/
theorem Exchanged.modifications {request : Request} {w' : World Data}
    (h : Exchanged request.currency w request.performExchange w') :
    w'.modifications = w.modifications ++ exchangeTransactions w request := by
  cases hn : request.performExchange with
  | false =>
    have hnone : ¬WillCommit w request := by
      rintro ⟨hneeded,-,-⟩
      rw [hn] at hneeded
      contradiction
    rw [hn] at h
    cases h with
    | notNeeded => rw [exchangeTransactions, if_neg hnone, List.append_nil]
  | true =>
    rw [hn] at h
    cases h with
    | rejected error rate hrate h =>
      have hrefused : ¬WillCommit w request := fun hwill => not_covered_of_refused h hwill.2
      rw [exchangeTransactions, if_neg hrefused, List.append_nil]
      rfl
    | committed rate hrate hfunds hvalue =>
      rw [exchangeTransactions, if_pos ⟨hn, hfunds, hvalue⟩]
      rfl

/-- A refresh is a transaction of its own exactly when it inserts a list. -/
theorem Stored.modifications {same : Bool} {key : NSString} {rateList : UnmanagedRateList Data}
    {refreshed : World Data} (h : Stored same key rateList w refreshed) :
    refreshed.modifications = w.modifications ++
      if rateList.isEqual same (w.realm.rateList key) then [] else [[key]] := by
  cases h with
  | kept he => simp [he]
  | written stored he hs => simp [he, RateListService.commitRateList]

theorem Succeeded.modifications {same : Bool} {request : Request} {json : Option JSON}
    {w' : World Data} (h : Succeeded same request json w w') : w'.modifications =
      w.modifications ++ (if rewrites same w request json then [[request.currency]] else []) ++
        exchangeTransactions w request := by
  have hrewrites : rewrites same w request json = true ↔
      h.rateList.isEqual same (w.realm.rateList request.currency) = false := rewrites_iff h.parsed
  obtain ⟨hmanager,-,-⟩ := h.refreshed_frame
  have htransactions : exchangeTransactions h.refreshed request =
      exchangeTransactions w request := by
    simp only [exchangeTransactions, h.willCommit_iff, hmanager]
  rw [h.left.modifications, h.exchange.modifications, htransactions, h.stored.modifications]
  change w.modifications ++ (if h.rateList.isEqual same (w.realm.rateList request.currency)
    then [] else [[request.currency]]) ++ _ = _
  cases he : h.rateList.isEqual same (w.realm.rateList request.currency) with
  | false => rw [if_pos (hrewrites.mpr he)]; rfl
  | true =>
    have hkept : ¬rewrites same w request json = true := by
      rw [hrewrites, he]
      decide
    rw [if_neg hkept]
    rfl

theorem Exchanged.eq_of_not_needed {key : NSString} {w' : World Data}
    (h : Exchanged key w false w') : w' = w := by
  cases h with
  | notNeeded => rfl

/-- The store after a response that performs no exchange, wherever its block ended. -/
theorem Process.step_realm_of_plain {task : ℕ} {request : Request}
    (hr : w.request task = some request) (hplain : request.performExchange = false)
    (same : Identity) (json : Option JSON) :
    ((running w).step (.responded same task json)).disk.realm =
      w.realm.insertList request.currency (insertedList same.base w request json) := by
  rcases step_responded hr same json with ⟨w',hstep,⟨h⟩⟩ | ⟨e,w',hstep,h⟩
  · have hx := h.exchange
    rw [hplain] at hx
    rw [hstep]
    calc w'.realm
        = h.refreshed.realm := by rw [h.left.realm, hx.eq_of_not_needed]
      _ = _ := h.stored.realm (w := completed w request) h.parsed
  · rw [hstep]
    change w'.realm = _
    cases h with
    | parsing x hx => rw [insertedList, rewrites, hx]; rfl
    | storing rateList x hp he hx => rw [insertedList_of_parsed hp, hx]; split <;> rfl
    | exchanging rateList _ x hp hs hn => exact absurd (hplain.symm.trans hn) (by decide)
    | leaving rateList refreshed _ _ hp hs hx =>
      rw [hplain] at hx
      rw [hx.eq_of_not_needed]
      exact hs.realm (w := completed w request) hp

section
variable {task : ℕ} {request : Request} {json : Option JSON} {base : NSString}
  {rates : List (NSString × JSON)}

/-- The row, the link and the transactions of a response with this content. -/
theorem HasContent.step_sameLists (hr : w.request task = some request) (same : Identity)
    (h : HasContent json base rates) : Realm.SameLists
      (w.realm.insertList request.currency
        (if rewrites same.base w request json then some (contentList base rates) else none))
      ((Process.running w).step (.responded same task json)).disk.realm := by
  rw [← h.insertedList, ← afterInsertion_responded hr]
  exact (Process.running w).step_sameLists _

theorem Process.step_modifications (hr : w.request task = some request) (same : Identity)
    (json : Option JSON) {w' : World Data}
    (hw' : (running w).step (.responded same task json) = running w') : w'.modifications =
      w.modifications ++ (if rewrites same.base w request json then [[request.currency]] else [])
        ++ exchangeTransactions w request := by
  rcases step_responded hr same json with ⟨v,hstep,⟨h⟩⟩ | ⟨e,v,hstep,h⟩
  · obtain rfl : v = w' := running.inj (hstep.symm.trans hw')
    exact h.modifications
  · exact absurd (hstep.symm.trans hw') (by simp)

theorem HasContent.nothingWritten (hr : w.request task = some request) (same : Identity)
    (h : HasContent json base rates) (hkept : rewrites same.base w request json = false) :
    NothingWritten w request ((Process.running w).step (.responded same task json)) := by
  have hnone : CurrencyConverter.insertedList same.base w request json = none := by
    rw [h.insertedList, hkept]
    rfl
  refine ⟨?_, ?_, ?_⟩
  · have hlists := h.step_sameLists hr same
    rw [hkept] at hlists
    exact hlists
  · intro hplain
    rw [Process.step_realm_of_plain hr hplain, hnone]
    rfl
  · intro w' hw'
    rw [Process.step_modifications hr same json hw', hkept, if_neg (by decide), List.append_nil]

theorem HasContent.written (hr : w.request task = some request) (same : Identity)
    (h : HasContent json base rates) (hwrites : rewrites same.base w request json = true) :
    Written w request (contentList base rates)
      ((Process.running w).step (.responded same task json)) := by
  refine ⟨?_, ?_⟩
  · have hlists := h.step_sameLists hr same
    rw [hwrites] at hlists
    exact hlists.rows
  · intro w' hw'
    rw [Process.step_modifications hr same json hw', hwrites, if_pos rfl, List.append_assoc]
    rfl

/-- A response with the content of the stored list writes nothing if and only if the two
bases are one object. -/
theorem HasContent.nothingWritten_iff (hr : w.request task = some request) (same : Identity)
    (h : HasContent json base rates) (hsame : SameContent w request base rates) :
    NothingWritten w request ((Process.running w).step (.responded same task json)) ↔
      same.base = true := by
  have hrewrites := h.rewrites_iff same.base (w := w) request
  constructor
  · intro hn
    -- had the pointers differed, a row would have been inserted
    by_contra hne
    have hwrites : rewrites same.base w request json = true := by
      rw [← Bool.not_eq_false, hrewrites]
      exact fun hboth => hne hboth.2
    exact (h.written hr same hwrites).not_nothing hn
  · intro hone
    exact h.nothingWritten hr same (hrewrites.mpr ⟨hsame, hone⟩)

/-- Once a response has been handled, its content is stored for its currency. -/
theorem HasContent.stored (hr : w.request task = some request)
    (hkey : request.currency ∈ w.realm.keys) (same : Identity) (h : HasContent json base rates) :
    ((Process.running w).step (.responded same task json)).disk.realm.rateList request.currency =
      some (contentList base rates) := by
  rw [((Process.running w).step_sameLists _).rateList, afterInsertion_responded hr,
    rateList_insertList hkey, h.receivedList]
  exact Function.update_self _ _ _

end

/-- The law of the refresh: a response with the content of the stored list writes nothing, and
one with another content is written. -/
structure RefreshLaw (w : World Data) (request : Request) (base : NSString)
    (rates : List (NSString × JSON)) (after : Process Data) : Prop where
  unchanged : SameContent w request base rates → NothingWritten w request after
  changed : ¬SameContent w request base rates →
    Written w request (contentList base rates) after

end

/-- The euro's rates have been stored, and a second request for them is in flight. -/
def storedEuroRates : List Action :=
  [.launch .interned, .timerFired, .responded .interned 0 euroRates]

theorem hasContent_ratesResponse (base : NSString) (rates : List (NSString × JSON)) :
    HasContent (some (ratesResponse base rates)) base rates := ⟨_, rfl, rfl, rfl⟩

theorem hasContent_euroRates : HasContent euroRates "EUR".toList
    [("USD".toList, .number (21/20)), ("GBP".toList, .number (17/20))] :=
  hasContent_ratesResponse _ _

theorem storedEuroRates_flight : ∃ w request,
    (Process.installed (Realm.empty : Realm (List Token))).run storedEuroRates = .running w ∧
    w.request 3 = some request ∧ request.currency = "EUR".toList := by
  let p := (Process.installed (Realm.empty : Realm (List Token))).run storedEuroRates
  have hflight : p.world?.map (fun w => (w.request 3).map Request.currency) =
      some (some "EUR".toList) := by decide +kernel
  obtain ⟨w,hw,hrequest⟩ := Option.map_eq_some_iff.mp hflight
  obtain ⟨request,hr,hcurrency⟩ := Option.map_eq_some_iff.mp hrequest
  exact ⟨w, request, Process.eq_running hw, hr, hcurrency⟩

end CurrencyConverter
