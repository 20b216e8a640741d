import CurrencyConverter.GroupRuns
import CurrencyConverter.SeededApp

/-! Which response bodies the app survives: the success block ends normally and leaves its
group, every later read of the stored rates succeeds, and a body that is not of the
expected shape leaves the store alone. -/
namespace CurrencyConverter
open JSONTree Token Effects

variable {Data : Type} {w : World Data}

/-- An object with a string base and an object of rates. -/
def WellFormed (json : Option JSON) : Prop :=
  ∃ fields base rates, json = some (.object fields) ∧
    fields.lookup "base".toList = some (.string base) ∧
    fields.lookup "rates".toList = some (.object rates)

/-- A looked-up entry that is absent or understands `floatValue`. -/
def readable (entry : Option JSON) : Bool := (entryFloatValue entry).toBool

theorem readable_iff (entry : Option JSON) :
    readable entry = true ↔ ∃ rate, entryFloatValue entry = .ok rate := by
  unfold readable
  cases entryFloatValue entry with
  | ok rate => exact iff_of_true rfl ⟨rate, rfl⟩
  | error e => simp [Except.toBool]

section
variable [JSONSerialization Data]

/-- Every later read of the list stored for `key`: filling a bottom cell while `key` is
selected above, and looking up the rate of an exchange. -/
structure LaterReads (realm : Realm Data) (key : NSString) : Prop where
  cell : ∀ same (dataManager : DataManager), dataManager.selectedTopCurrency = some key →
    ∀ code ∈ realm.keys, ∃ text, dataManager.bottomText same realm code = .ok text
  exchange : ∀ code ∈ realm.keys,
    ∃ rate, rateFor ((realm.rateList key).map RateList.rates) (some code) = .ok rate

/-- The success block has run to its end, has left the group, and has done no harm. -/
structure Survived (same : Bool) (request : Request) (json : Option JSON)
    (w w' : World Data) : Prop where
  ended : (RateListService.success same request json).run w = .ok () w'
  left : ∃ g, w.group = some g ∧ (w.groups.group g).count = (w'.groups.group g).count+1
  reads : LaterReads w'.realm request.currency
  untouched : ¬WellFormed json → w'.realm = w.realm

/-- The exchange the response is to perform moves no money: it is not asked for, or refused,
or goes from a currency to itself at a rate of one. -/
def MoneyStays (w : World Data) (request : Request) (rates : List (NSString × JSON)) : Prop :=
  request.performExchange = true → w.dataManager.valueForExchange ≠ 0 →
    w.dataManager.valueForExchange ≤ w.realm.amount request.currency →
    w.dataManager.selectedBottomCurrency = some request.currency ∧
      entryFloatValue (rates.lookup request.currency) = .ok 1

/-- A body without a base does no harm when the stored list has the same rates and no base
itself, and no money is moved. -/
structure Repeated (w : World Data) (request : Request) (fields rates : List (NSString × JSON)) :
    Prop where
  base : fields.lookup "base".toList = none
  stored : ∃ stored, w.realm.rateList request.currency = some stored ∧ stored.base = none ∧
    stored.rates = JSONSerialization.encode (.object rates)
  money : MoneyStays w request rates

/-- The bodies that are safe: an object whose rates are an object, readable at every stored
code, and whose base is a string. -/
structure Digestible (w : World Data) (request : Request)
    (fields rates : List (NSString × JSON)) : Prop where
  object : fields.lookup "rates".toList = some (.object rates)
  read : ∀ code ∈ w.realm.keys, readable (rates.lookup code) = true
  base : (∃ base, fields.lookup "base".toList = some (.string base)) ∨
    Repeated w request fields rates

/-- The group the response is going to leave counts someone. -/
def Occupied (w : World Data) : Prop := ∃ g, w.group = some g ∧ (w.groups.group g).count ≠ 0

/-- What the app makes of an object with an object of rates. -/
def responseList (fields rates : List (NSString × JSON)) : UnmanagedRateList Data where
  base := fields.lookup "base".toList
  rates := JSONSerialization.encode (.object rates)

theorem initWithAttributes_object {fields rates : List (NSString × JSON)}
    (hrates : fields.lookup "rates".toList = some (.object rates)) :
    UnmanagedRateList.initWithAttributes (some (.object fields)) =
      .ok (responseList fields rates : UnmanagedRateList Data) := by
  have hbase : valueForKeyPath (some (.object fields)) "base".toList =
      .ok (fields.lookup "base".toList) := rfl
  have hpath : valueForKeyPath (some (.object fields)) "rates".toList =
      .ok (some (.object rates)) := congrArg Except.ok hrates
  have hdata : (dataWithJSONObject (some (.object rates)) : Except NSException Data) =
      .ok (JSONSerialization.encode (.object rates)) := dataWithJSONObject_container _ rfl
  simp only [UnmanagedRateList.initWithAttributes, hbase, hpath, hdata, bind, Except.bind, pure,
    Except.pure, responseList]

/-- After the refresh a list with the response's rates is stored. -/
theorem Stored.found {same : Bool} {key : NSString} {rateList : UnmanagedRateList Data}
    {refreshed : World Data} (h : Stored same key rateList w refreshed)
    (hkey : key ∈ w.realm.keys) :
    ∃ found, refreshed.realm.rateList key = some found ∧ found.rates = rateList.rates := by
  cases h with
  | kept he =>
    obtain ⟨other,hother,hrates⟩ := isEqual_rates he
    exact ⟨other, hother, hrates.symm⟩
  | written stored he hs =>
    exact ⟨stored, w.realm.rateList_setRateList_self key stored hkey, addToRealm_rates hs⟩

omit [JSONSerialization Data] in
/-- A transfer touches amounts only. -/
theorem commitTransfer_rateLists (w : World Data) (t : Transfer) :
    (StorageService.commitTransfer w t).realm.keys = w.realm.keys ∧
      (StorageService.commitTransfer w t).realm.rateLists = w.realm.rateLists ∧
      ∀ i, (StorageService.commitTransfer w t).realm.rateList i = w.realm.rateList i := by
  let debited := w.realm.addAmount t.source (-t.debit)
  cases ht : t.target with
  | none =>
    have hrealm : (StorageService.commitTransfer w t).realm = debited := by
      simp [StorageService.commitTransfer, ht, debited]
    rw [hrealm]
    exact ⟨w.realm.keys_addAmount _ _, rfl, w.realm.rateList_addAmount _ _⟩
  | some key =>
    have hrealm : (StorageService.commitTransfer w t).realm = debited.addAmount key t.credit := by
      simp [StorageService.commitTransfer, ht, debited]
    rw [hrealm]
    refine ⟨?_, rfl, ?_⟩
    · rw [Realm.keys_addAmount]
      exact w.realm.keys_addAmount _ _
    · intro i
      rw [Realm.rateList_addAmount]
      exact w.realm.rateList_addAmount _ _ i

theorem Exchanged.rateLists {key : NSString} {needed : Bool} {w' : World Data}
    (h : Exchanged key w needed w') : w'.realm.keys = w.realm.keys ∧
      w'.realm.rateLists = w.realm.rateLists ∧
      ∀ i, w'.realm.rateList i = w.realm.rateList i := by
  cases h with
  | notNeeded => exact ⟨rfl, rfl, fun _ => rfl⟩
  | rejected => exact ⟨rfl, rfl, fun _ => rfl⟩
  | committed rate => exact commitTransfer_rateLists w (askedTransfer w key rate)

theorem rateFor_object {rates : List (NSString × JSON)} (code : Option NSString) :
    rateFor (some (JSONSerialization.encode (.object rates) : Data)) code =
      entryFloatValue (code.bind (fun c => rates.lookup c)) := by
  have hpath : valueForKeyPath (some (ratesResponse [] rates)) "rates".toList =
      .ok (some (.object rates)) := rfl
  rw [rateFor_encode code hpath rfl]
  exact responseRate_object code rfl

/-- Lists with readable entries at the stored codes serve all later reads. -/
theorem laterReads_of_readable {realm : Realm Data} {key : NSString} {found : RateList Data}
    {rates : List (NSString × JSON)} (hfound : realm.rateList key = some found)
    (hrates : found.rates = JSONSerialization.encode (.object rates))
    (hread : ∀ code ∈ realm.keys, readable (rates.lookup code) = true) :
    LaterReads realm key := by
  have hrate : ∀ code ∈ realm.keys, ∃ rate, rateFor (some found.rates) (some code) = .ok rate := by
    intro code hcode
    rw [hrates, rateFor_object]
    exact (readable_iff _).mp (hread code hcode)
  refine ⟨?_, ?_⟩
  · intro same dataManager htop code hcode
    obtain ⟨rate,hr⟩ := hrate code hcode
    have hlist : dataManager.selectedTopCurrency.bind realm.rateList = some found := by
      rw [htop, Option.bind_some, hfound]
    simp only [DataManager.bottomText, hlist, hr]
    split
    · exact ⟨_, rfl⟩
    · exact ⟨_, rfl⟩
  · intro code hcode
    rw [hfound]
    exact hrate code hcode

/-- A list written by the refresh is one more row. -/
theorem Stored.rows {same : Bool} {key : NSString} {rateList : UnmanagedRateList Data}
    {refreshed : World Data} (h : Stored same key rateList w refreshed)
    (hrows : refreshed.realm.rateLists = w.realm.rateLists) :
    rateList.isEqual same (w.realm.rateList key) = true ∧ refreshed = w := by
  cases h with
  | kept he => exact ⟨he, rfl⟩
  | written stored he hs =>
    -- the number of rows would have grown
    have hlen := congrArg List.length hrows
    simp [RateListService.commitRateList, Realm.setRateList] at hlen

theorem storedRate_object {key : NSString} {found : RateList Data}
    {rates : List (NSString × JSON)} (hfound : w.realm.rateList key = some found)
    (hrates : found.rates = JSONSerialization.encode (.object rates)) :
    storedRate w key = entryFloatValue
      (w.dataManager.selectedBottomCurrency.bind (fun c => rates.lookup c)) := by
  rw [storedRate, hfound, Option.map_some, hrates, rateFor_object]

/-- An exchange of a currency with itself at a rate of one leaves the store as it is. -/
theorem exchanged_realm_of_stays {request : Request} {exchanged : World Data}
    {rates : List (NSString × JSON)}
    (hx : Exchanged request.currency w request.performExchange exchanged)
    (hmoney : MoneyStays w request rates)
    (hstored : storedRate w request.currency = entryFloatValue
      (w.dataManager.selectedBottomCurrency.bind (fun c => rates.lookup c))) :
    exchanged.realm = w.realm := by
  generalize hn : request.performExchange = needed at hx
  cases hx with
  | notNeeded => rfl
  | rejected => rfl
  | committed rate hrate hfunds hvalue =>
    obtain ⟨hself,hone⟩ := hmoney hn hvalue hfunds
    rw [hrate, hself, Option.bind_some, hone] at hstored
    obtain rfl : rate = 1 := Except.ok.inj hstored
    simp only [resetValue, StorageService.commitTransfer, askedTransfer, hself, Option.elim_some,
      mul_one, Realm.addAmount_addAmount_cancel]

omit [JSONSerialization Data] in
/-- A base that is missing or a string can be stored. -/
theorem addToRealm_of_base (rateList : UnmanagedRateList Data)
    (h : rateList.base = none ∨ ∃ base, rateList.base = some (.string base)) :
    ∃ stored, rateList.addToRealm = .ok stored := by
  unfold UnmanagedRateList.addToRealm
  rcases h with h | ⟨base,h⟩
  · rw [h]
    exact ⟨_, rfl⟩
  · rw [h]
    exact ⟨_, rfl⟩

/-- None of the reasons to abort applies to a digestible body. -/
theorem Digestible.not_aborted {same : Bool} {request : Request}
    {fields rates : List (NSString × JSON)} (hw : Seeded w)
    (hkey : request.currency ∈ w.realm.keys) (hd : Digestible w request fields rates)
    (ho : Occupied w) {e : Abort} {w' : World Data}
    (ha : SuccessAborted same request (some (.object fields)) w e w') : False := by
  have hparsed : UnmanagedRateList.initWithAttributes (some (.object fields)) =
      .ok (responseList fields rates : UnmanagedRateList Data) :=
    initWithAttributes_object hd.object
  cases ha with
  | parsing x h =>
    rw [hparsed] at h
    contradiction
  | storing rateList x hp he h =>
    -- only a base that is neither missing, null nor a string is refused by the store
    obtain rfl := Except.ok.inj (hparsed.symm.trans hp)
    have hbase := hd.base.symm.imp Repeated.base id
    have hadd := addToRealm_of_base (responseList fields rates : UnmanagedRateList Data) hbase
    obtain ⟨stored,hs⟩ := hadd
    rw [hs] at h
    contradiction
  | exchanging rateList _ x hp hs hn h =>
    obtain rfl := Except.ok.inj (hparsed.symm.trans hp)
    obtain ⟨found,hfound,hrates⟩ := hs.found hkey
    obtain ⟨realm,modifications,rfl,-,-⟩ := hs.frame
    -- the rate that is looked up is that of a stored code, so it is readable
    obtain ⟨bottom,hmem,hbottom⟩ := hw.bottom_mem
    rw [← keys_of_seededCodes hw.codes] at hmem
    obtain ⟨rate,hrate⟩ := (readable_iff _).mp (hd.read bottom hmem)
    have hvalue := storedRate_object hfound hrates
    rw [h] at hvalue
    have hselected : (finishOperation w).dataManager.selectedBottomCurrency = some bottom :=
      hbottom
    simp only [hselected, Option.bind_some, hrate] at hvalue
    contradiction
  | leaving rateList refreshed _ _ hp hs hx h =>
    obtain ⟨hgroup,hgroups,-⟩ := exchanged_groups hs hx
    obtain ⟨g,hg,hcount⟩ := ho
    rw [hgroup, hgroups, hg] at h
    rcases h with ⟨-,hnone⟩ | ⟨-,i,hi,hleave⟩
    · contradiction
    · obtain rfl : g = i := Option.some.inj hi
      exact hcount ((WaitGroup.Table.leave_eq_none_iff _ _).mp hleave)

/-- The refresh and the exchange leave the store alone when a body without a base repeats
the stored list. -/
theorem Repeated.realm {same : Bool} {request : Request} {fields rates : List (NSString × JSON)}
    {refreshed exchanged : World Data} (hr : Repeated w request fields rates)
    (hs : Stored same request.currency (responseList fields rates) (finishOperation w) refreshed)
    (hx : Exchanged request.currency refreshed request.performExchange exchanged) :
    exchanged.realm = w.realm := by
  obtain ⟨stored,hstored,hnil,hrates⟩ := hr.stored
  have hstored' : (finishOperation w).realm.rateList request.currency = some stored := hstored
  have hequal : (responseList fields rates).isEqual same
      ((finishOperation w).realm.rateList request.currency) = true := by
    have hbase : (responseList fields rates : UnmanagedRateList Data).base = none := hr.base
    rw [hstored']
    unfold UnmanagedRateList.isEqual
    rw [hbase]
    simp [responseList, identical, hnil, hrates, isEqualToData_iff]
  -- the stored list compares equal, so nothing is written
  cases hs with
  | kept he =>
    have hmoney : MoneyStays (finishOperation w) request rates := hr.money
    have hstays := exchanged_realm_of_stays hx hmoney (storedRate_object hstored' hrates)
    exact hstays
  | written _ he hadd =>
    rw [hequal] at he
    contradiction

omit [JSONSerialization Data] in
theorem Left.realm {request : Request} {w' : World Data} (h : Left request w w') :
    w'.realm = w.realm := by
  cases h with
  | mk group fired groups hg hl => rfl

/-- The exchange finds the balances and the manager as they were before the refresh. -/
theorem Succeeded.refreshed_frame {same : Bool} {request : Request} {json : Option JSON}
    {w' : World Data} (h : Succeeded same request json w w') :
    h.refreshed.dataManager = w.dataManager ∧ h.refreshed.realm.keys = w.realm.keys ∧
      h.refreshed.realm.amount = w.realm.amount := by
  obtain ⟨realm,modifications,hrefreshed,hcodes,hamount⟩ := h.stored.frame
  rw [hrefreshed]
  refine ⟨rfl, ?_, funext hamount⟩
  exact keys_of_codes (d := w.toDisk) (e := { w.toDisk with realm }) hcodes

/-- After the success block a list with the response's rates is stored for the currency. -/
theorem Succeeded.found {same : Bool} {request : Request} {json : Option JSON}
    {w' : World Data} (h : Succeeded same request json w w')
    (hkey : request.currency ∈ w.realm.keys) :
    w'.realm.keys = w.realm.keys ∧
      ∃ found, w'.realm.rateList request.currency = some found ∧
        found.rates = h.rateList.rates := by
  obtain ⟨found,hfound,hrates⟩ := h.stored.found hkey
  obtain ⟨-,hrefreshed,-⟩ := h.refreshed_frame
  obtain ⟨hkeys,-,hlists⟩ := h.exchange.rateLists
  refine ⟨?_, found, ?_, hrates⟩
  · calc w'.realm.keys
        = h.refreshed.realm.keys := by rw [h.left.realm, hkeys]
      _ = w.realm.keys := hrefreshed
  · calc w'.realm.rateList request.currency
        = h.exchanged.realm.rateList request.currency := by rw [h.left.realm]
      _ = h.refreshed.realm.rateList request.currency := hlists _
      _ = some found := hfound

/-- A digestible body is survived when the group to leave counts someone. -/
theorem Digestible.survived {same : Bool} {request : Request}
    {fields rates : List (NSString × JSON)} (hw : Seeded w)
    (hkey : request.currency ∈ w.realm.keys) (hd : Digestible w request fields rates)
    (ho : Occupied w) : ∃ w', Survived same request (some (.object fields)) w w' := by
  have hends : Ends (RateListService.success same request (some (.object fields))) w
      (fun _ w' => Nonempty (Succeeded same request (some (.object fields)) w w'))
      (fun _ _ => False) := by
    apply (success_ends same request (some (.object fields))).imp
    · exact fun _ _ h => h
    · exact fun _ _ h => hd.not_aborted hw hkey ho h
  obtain ⟨_,w',hrun,⟨h⟩⟩ := hends.exists_ok
  obtain ⟨left⟩ := h.leftOnce
  obtain ⟨hkeys,found,hfound,hrates⟩ := h.found hkey
  have hlist := Except.ok.inj (h.parsed.symm.trans (initWithAttributes_object hd.object))
  refine ⟨w', hrun, ⟨left.group, left.current, WaitGroup.Table.leave_count left.leave⟩, ?_, ?_⟩
  · apply laterReads_of_readable hfound (hrates.trans (congrArg UnmanagedRateList.rates hlist))
    rw [hkeys]
    exact hd.read
  · intro hshape
    rcases hd.base with ⟨base,hbase⟩ | hrepeated
    · exact absurd ⟨fields, base, rates, rfl, hbase, hd.object⟩ hshape
    · rw [h.left.realm]
      exact hrepeated.realm (hlist ▸ h.stored) h.exchange

/-- A base that could be compared or stored. -/
theorem Stored.base {same : Bool} {key : NSString} {rateList : UnmanagedRateList Data}
    {refreshed : World Data} (h : Stored same key rateList w refreshed) :
    rateList.base = none ∨ rateList.base = some .null ∨
      ∃ base, rateList.base = some (.string base) := by
  cases h with
  | kept he =>
    unfold UnmanagedRateList.isEqual at he
    split at he
    · exact Or.inl ‹_›
    · exact Or.inr (Or.inr ⟨_, ‹_›⟩)
    · split at he
      · contradiction
      · rw [Bool.false_and] at he
        contradiction
  | written stored he hs =>
    unfold UnmanagedRateList.addToRealm at hs
    split at hs
    · exact Or.inl ‹_›
    · exact Or.inr (Or.inl ‹_›)
    · exact Or.inr (Or.inr ⟨_, ‹_›⟩)
    · contradiction

theorem initWithAttributes_base {json : Option JSON} {rateList : UnmanagedRateList Data}
    (h : UnmanagedRateList.initWithAttributes json = .ok rateList) :
    valueForKeyPath json "base".toList = .ok rateList.base := by
  obtain ⟨base,hbase,h⟩ := except_bind_ok h
  obtain ⟨found,-,h⟩ := except_bind_ok h
  obtain ⟨data,-,h⟩ := except_bind_ok h
  cases h
  exact hbase

/-- Only objects get past the parsing and the refresh: an array answers the lookup of its
base with an array. -/
theorem Succeeded.object {same : Bool} {request : Request} {json : Option JSON}
    {w' : World Data} (h : Succeeded same request json w w') :
    ∃ fields, json = some (.object fields) := by
  obtain ⟨rates,hrates,-,-⟩ := initWithAttributes_rates h.parsed
  have hbase := initWithAttributes_base h.parsed
  match json with
  | none => simp [valueForKeyPath] at hrates
  | some (.object fields) => exact ⟨fields, rfl⟩
  | some (.array elements) =>
    simp only [valueForKeyPath, JSON.valueForKey] at hbase
    obtain ⟨values,-,hvalues⟩ := except_bind_ok hbase
    have harray := Except.ok.inj hvalues
    rcases h.stored.base with hb | hb | ⟨base,hb⟩
    · simp [hb] at harray
    · simp [hb] at harray
    · simp [hb] at harray
  | some .null => simp [valueForKeyPath, JSON.valueForKey] at hrates
  | some (.bool _) => simp [valueForKeyPath, JSON.valueForKey] at hrates
  | some (.number _) => simp [valueForKeyPath, JSON.valueForKey] at hrates
  | some (.string _) => simp [valueForKeyPath, JSON.valueForKey] at hrates

/-- Rates that serve the later reads are an object with readable entries. -/
theorem Succeeded.readable {same : Bool} {request : Request} {fields : List (NSString × JSON)}
    {w' : World Data} (h : Succeeded same request (some (.object fields)) w w')
    (hkey : request.currency ∈ w.realm.keys) (hreads : LaterReads w'.realm request.currency) :
    ∃ rates, fields.lookup "rates".toList = some (.object rates) ∧
      ∀ code ∈ w.realm.keys, readable (rates.lookup code) = true := by
  obtain ⟨hkeys,found,hfound,hrates⟩ := h.found hkey
  obtain ⟨rates,hpath,hc,hencode⟩ := initWithAttributes_rates h.parsed
  have hlookup : fields.lookup "rates".toList = some rates := Except.ok.inj hpath
  have hexchange := hreads.exchange
  rw [hkeys, hfound, Option.map_some, hrates, hencode] at hexchange
  cases rates with
  | object rates =>
    refine ⟨rates, hlookup, ?_⟩
    intro code hcode
    obtain ⟨rate,hrate⟩ := hexchange code hcode
    rw [rateFor_object] at hrate
    exact (readable_iff _).mpr ⟨rate, hrate⟩
  | array elements =>
    -- an array of rates is stored, but no array understands a keyed subscript
    obtain ⟨rate,hrate⟩ := hexchange _ hkey
    simp [rateFor, jsonObjectWithData_encode _ hc, JSON.objectForKeyedSubscript, bind,
      Except.bind] at hrate
  | _ => contradiction

theorem isEqual_none {same : Bool} {rateList : UnmanagedRateList Data} {other : RateList Data}
    (h : rateList.isEqual same (some other) = true) (hbase : rateList.base = none) :
    other.base = none := by
  unfold UnmanagedRateList.isEqual at h
  rw [hbase] at h
  cases ho : other.base with
  | none => rfl
  | some base => simp [identical, ho] at h

/-- A committed exchange that changes no balance is from a currency to itself, at a rate
of one. -/
theorem moneyStays_of_realm {request : Request} {exchanged : World Data}
    {rates : List (NSString × JSON)} (hkey : request.currency ∈ w.realm.keys)
    (hx : Exchanged request.currency w request.performExchange exchanged)
    (hstored : storedRate w request.currency = entryFloatValue
      (w.dataManager.selectedBottomCurrency.bind (fun c => rates.lookup c)))
    (hrealm : exchanged.realm = w.realm) : MoneyStays w request rates := by
  intro hn hvalue hfunds
  generalize hneeded : request.performExchange = needed at hx
  cases hx with
  | notNeeded =>
    rw [hn] at hneeded
    contradiction
  | rejected error rate hrate h => exact absurd ⟨hfunds, hvalue⟩ (not_covered_of_refused h)
  | committed rate hrate _ _ =>
    let t := askedTransfer w request.currency rate
    have hpaid := (paid_commitTransfer w t).amount request.currency hkey
    have hamount : (StorageService.commitTransfer w t).realm = w.realm := hrealm
    rw [hamount] at hpaid
    obtain ⟨hself,hcredit⟩ := TransferLedger.Transfer.self_of_post_source hvalue hpaid.symm
    have hbottom : w.dataManager.selectedBottomCurrency = some request.currency := hself
    have hone : rate = 1 := by
      apply mul_left_cancel₀ hvalue
      calc w.dataManager.valueForExchange * rate
          = w.dataManager.valueForExchange := hcredit
        _ = w.dataManager.valueForExchange * 1 := (mul_one _).symm
    rw [hrate, hbottom, Option.bind_some, hone] at hstored
    exact ⟨hbottom, hstored.symm⟩

/-- A survived body without a string base repeats the stored list: anything else it could
do to the store is a new row or a changed balance. -/
theorem Succeeded.repeated {same : Bool} {request : Request}
    {fields rates : List (NSString × JSON)} {w' : World Data}
    (h : Succeeded same request (some (.object fields)) w w')
    (hkey : request.currency ∈ w.realm.keys)
    (hobject : fields.lookup "rates".toList = some (.object rates))
    (hbase : ¬∃ base, fields.lookup "base".toList = some (.string base))
    (hrealm : w'.realm = w.realm) : Repeated w request fields rates := by
  have hlist := Except.ok.inj (h.parsed.symm.trans (initWithAttributes_object hobject))
  have hstored := h.stored
  rw [hlist] at hstored
  have hrows : h.refreshed.realm.rateLists = (finishOperation w).realm.rateLists := by
    rw [← h.exchange.rateLists.2.1, ← h.left.realm, hrealm]
    rfl
  obtain ⟨hequal,hrefreshed⟩ := hstored.rows hrows
  obtain ⟨other,hother,hrates⟩ := isEqual_rates hequal
  have hnone : fields.lookup "base".toList = none := by
    rcases hstored.base with hb | hb | hb
    · exact hb
    · -- a null base never compares equal, so the refresh has written
      simp [UnmanagedRateList.isEqual, hb, hother] at hequal
    · exact absurd hb hbase
  rw [hother] at hequal
  refine ⟨hnone, ⟨other, hother, isEqual_none hequal hnone, hrates.symm⟩, ?_⟩
  have hx := h.exchange
  rw [hrefreshed] at hx
  have hrate : storedRate (finishOperation w) request.currency = _ :=
    storedRate_object hother hrates.symm
  exact moneyStays_of_realm (w := finishOperation w) hkey hx hrate
    (h.left.realm.symm.trans hrealm)

/-- Only digestible bodies are survived. -/
theorem Survived.digestible {same : Bool} {request : Request} {json : Option JSON}
    {w' : World Data} (h : Survived same request json w w')
    (hkey : request.currency ∈ w.realm.keys) :
    (∃ fields rates, json = some (.object fields) ∧ Digestible w request fields rates) ∧
      Occupied w := by
  obtain ⟨hs⟩ := (success_ends same request json).of_run_ok h.ended
  obtain ⟨fields,rfl⟩ := hs.object
  obtain ⟨rates,hobject,hread⟩ := hs.readable hkey h.reads
  obtain ⟨g,hg,hcount⟩ := h.left
  refine ⟨⟨fields, rates, rfl, hobject, hread, ?_⟩, g, hg, by omega⟩
  by_cases hbase : ∃ base, fields.lookup "base".toList = some (.string base)
  · exact Or.inl hbase
  · refine Or.inr (hs.repeated hkey hobject hbase (h.untouched ?_))
    rintro ⟨fields',base,-,hfields,hstring,-⟩
    obtain rfl : fields = fields' := by simpa using hfields
    exact hbase ⟨base, hstring⟩

end

/-- The first launch, with its three requests in flight. -/
def firstLaunch : Process (List Token) := (Process.installed Realm.empty).run [.launch .interned]

theorem firstLaunch_flight : ∃ w request, firstLaunch = .running w ∧
    w.request 0 = some request ∧ Occupied w := by
  have halive : firstLaunch.world?.isSome = true := by decide +kernel
  have hflight : (firstLaunch.world?.bind (fun w => w.request 0)).isSome = true := by
    decide +kernel
  have hcount : firstLaunch.world?.any (fun w =>
      w.group.any (fun g => decide ((w.groups.group g).count ≠ 0))) = true := by decide +kernel
  obtain ⟨w,hw⟩ := Process.exists_running halive
  rw [hw] at hflight hcount
  obtain ⟨request,hrequest⟩ := Option.isSome_iff_exists.mp hflight
  obtain ⟨g,hg,hoccupied⟩ := (Option.any_eq_true _ _).mp (show w.group.any _ = true from hcount)
  exact ⟨w, request, hw, hrequest, g, hg, of_decide_eq_true hoccupied⟩

end CurrencyConverter
