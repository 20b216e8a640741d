import CurrencyConverter.Preview
import CurrencyConverter.LinkedRows
import CurrencyConverter.KeyedWrites

/-! What a step does to the stored rate lists. On the rows it is at most one assignment of a
new row, depending on how two strings compare; on their contents it is the write of what was
received, however they compare. -/
namespace CurrencyConverter
open JSONTree Token Effects

variable {Data : Type} {w : World Data}

namespace Realm

/-- The row a currency's link points at. -/
def listRow (realm : Realm Data) (key : NSString) : Option ℕ :=
  (realm.find key).bind Currency.rateList

/-- The rows of the store, owned by the currencies. -/
def table (realm : Realm Data) : LinkedRows.Table NSString :=
  ⟨realm.rateLists.length, realm.listRow⟩

/-- The two stores differ in amounts only, as far as rate lists go. -/
structure SameLists (realm other : Realm Data) : Prop where
  rows : other.rateLists = realm.rateLists
  listRow : other.listRow = realm.listRow

variable {realm other third : Realm Data}

theorem SameLists.refl (realm : Realm Data) : SameLists realm realm := ⟨rfl, rfl⟩

theorem SameLists.trans (h : SameLists realm other) (h' : SameLists other third) :
    SameLists realm third := ⟨h'.rows.trans h.rows, h'.listRow.trans h.listRow⟩

theorem rateList_eq_listRow (realm : Realm Data) (key : NSString) :
    realm.rateList key = (realm.listRow key).bind (fun row => realm.rateLists[row]?) := by
  rw [rateList, listRow, Option.bind_assoc]

theorem SameLists.rateList (h : SameLists realm other) : other.rateList = realm.rateList := by
  funext key
  rw [rateList_eq_listRow, rateList_eq_listRow, h.rows, h.listRow]

theorem SameLists.table (h : SameLists realm other) : other.table = realm.table := by
  rw [Realm.table, Realm.table, h.rows, h.listRow]

theorem sameLists_addAmount (realm : Realm Data) (key : NSString) (delta : ℚ) :
    SameLists realm (realm.addAmount key delta) := by
  refine ⟨rfl, ?_⟩
  funext i
  rw [listRow, find_addAmount, listRow]
  split
  · cases realm.find i <;> rfl
  · rfl

/-- Assigning a list to a stored currency appends a row and points its link there. -/
theorem table_setRateList {key : NSString} (rateList : RateList Data)
    (hkey : key ∈ realm.keys) :
    (realm.setRateList key rateList).table = realm.table.assign key := by
  obtain ⟨c,hc⟩ := realm.find_of_mem_keys hkey
  apply LinkedRows.Table.ext
  · simp [table, setRateList, LinkedRows.Table.assign]
  · funext i
    change (realm.setRateList key rateList).listRow i =
      Function.update realm.listRow key (some realm.rateLists.length) i
    rw [listRow, find_setRateList]
    by_cases hi : i = key
    · rw [if_pos hi, hi, hc, Function.update_self]
      rfl
    · rw [if_neg hi, Function.update_of_ne hi, listRow]

theorem rateList_setRateList {key : NSString} (rateList : RateList Data)
    (hkey : key ∈ realm.keys) : (realm.setRateList key rateList).rateList =
      KeyedWrites.write realm.rateList (key, rateList) := by
  funext i
  by_cases hi : i = key
  · rw [hi, realm.rateList_setRateList_self key rateList hkey]
    exact (Function.update_self key (some rateList) realm.rateList).symm
  · rw [realm.rateList_setRateList_of_ne key rateList hi]
    exact (Function.update_of_ne hi (some rateList) realm.rateList).symm

/-- Seeding links no list. -/
theorem sameLists_firstEnterConfigurationIfNeeded (realm : Realm Data) :
    SameLists realm realm.firstEnterConfigurationIfNeeded := by
  unfold firstEnterConfigurationIfNeeded
  split
  · next hempty =>
    have hnone : realm.currencies = [] := List.length_eq_zero_iff.mp hempty
    refine ⟨rfl, ?_⟩
    funext key
    have hold : realm.listRow key = none := by simp [listRow, find, KeyedRows.find, hnone]
    rw [hold]
    -- the three seeded currencies have no link
    simp only [listRow, find, KeyedRows.find, seedCurrencies]
    cases hfound : List.find? _ _ with
    | none => rfl
    | some c =>
      have hmem := List.mem_of_find?_eq_some hfound
      simp only [List.mem_cons, List.not_mem_nil, or_false] at hmem
      rcases hmem with rfl | rfl | rfl <;> rfl
  · exact .refl realm

/-- Every row is owned exactly when every row is the list of some currency. -/
theorem allOwned_table_iff (realm : Realm Data) : LinkedRows.AllOwned realm.table ↔
    ∀ row < realm.rateLists.length, ∃ c ∈ realm.currencies, c.rateList = some row := by
  apply forall₂_congr
  intro row _
  change (∃ key, realm.listRow key = some row) ↔ _
  constructor
  · rintro ⟨key,hkey⟩
    obtain ⟨c,hc,hrow⟩ := Option.bind_eq_some_iff.mp hkey
    exact ⟨c, KeyedRows.find_mem _ hc, hrow⟩
  · rintro ⟨c,hc,hrow⟩
    refine ⟨c.currencyString, ?_⟩
    rw [listRow, find, KeyedRows.find_of_mem _ realm.primaryKey hc]
    exact hrow

theorem length_rateLists_le (h : LinkedRows.AllOwned realm.table) :
    realm.rateLists.length ≤ realm.currencies.length := by
  have howner (key : NSString) (row : ℕ) (hrow : realm.table.link key = some row) :
      key ∈ realm.keys := by
    obtain ⟨c,hc,-⟩ := Option.bind_eq_some_iff.mp hrow
    have hkey : c.currencyString = key := KeyedRows.find_key _ hc
    rw [← hkey]
    exact mem_keys (KeyedRows.find_mem _ hc)
  calc realm.rateLists.length
      ≤ realm.keys.length := h.next_le howner
    _ = realm.currencies.length := List.length_map _

end Realm

section
variable [JSONSerialization Data]

/-- What the store makes of a response, if it takes it. -/
def receivedList (json : Option JSON) : Option (RateList Data) :=
  (UnmanagedRateList.initWithAttributes json >>= UnmanagedRateList.addToRealm).toOption

/-- The list the success block inserts as a new row, if any. -/
def insertedList (same : Bool) (w : World Data) (request : Request) (json : Option JSON) :
    Option (RateList Data) :=
  if rewrites same w request json then receivedList json else none

/-- The request an action answers, with the list its response brings. -/
def World.received (w : World Data) : Action → Option (Request × RateList Data)
  | .responded _ task json => (w.request task).bind (fun request =>
    (receivedList json).map (fun rateList => (request, rateList)))
  | _ => none

/-- The same, where the list is going to be a new row. -/
def World.inserted (w : World Data) : Action → Option (Request × RateList Data)
  | .responded same task json => (w.request task).bind (fun request =>
    (insertedList same.base w request json).map (fun rateList => (request, rateList)))
  | _ => none

theorem receivedList_of_parsed {json : Option JSON} {rateList : UnmanagedRateList Data}
    (hp : UnmanagedRateList.initWithAttributes json = .ok rateList) :
    receivedList json = rateList.addToRealm.toOption := by
  rw [receivedList, hp]
  rfl

theorem insertedList_of_parsed {same : Bool} {request : Request} {json : Option JSON}
    {rateList : UnmanagedRateList Data}
    (hp : UnmanagedRateList.initWithAttributes json = .ok rateList) :
    insertedList same w request json =
      if rateList.isEqual same (w.realm.rateList request.currency) then none
      else rateList.addToRealm.toOption := by
  simp only [insertedList, receivedList_of_parsed hp, rewrites, hp, Bool.not_eq_true']
  cases rateList.isEqual same (w.realm.rateList request.currency) with
  | false => rfl
  | true => rfl

/-- A list that compares equal to a stored one has its content, whichever way the pointers
compare. -/
theorem addToRealm_of_isEqual {same : Bool} {rateList : UnmanagedRateList Data}
    {other : RateList Data} (h : rateList.isEqual same (some other) = true) :
    rateList.addToRealm = .ok other := by
  obtain ⟨found,hfound,hrates⟩ := isEqual_rates h
  obtain rfl : other = found := Option.some.inj hfound
  unfold UnmanagedRateList.isEqual at h
  unfold UnmanagedRateList.addToRealm
  cases other with
  | mk base rates =>
    cases hbase : rateList.base with
    | none =>
      cases base with
      | none => simp only [hrates]
      | some s => simp [hbase, identical] at h
    | some json =>
      cases json with
      | string s =>
        cases base with
        | none => simp [hbase, identical] at h
        | some t =>
          simp only [hbase, Option.bind_some, Bool.and_eq_true, identical_some] at h
          simp only [hrates, h.1.1]
      | _ => simp [hbase] at h

/-- A response the store takes and does not insert is in the store already. -/
theorem rateList_of_not_inserted {same : Bool} {request : Request} {json : Option JSON}
    {stored : RateList Data} (hr : receivedList json = some stored)
    (hi : insertedList same w request json = none) :
    w.realm.rateList request.currency = some stored := by
  cases hp : (UnmanagedRateList.initWithAttributes json :
      Except NSException (UnmanagedRateList Data)) with
  | error x =>
    rw [receivedList, hp] at hr
    contradiction
  | ok rateList =>
    rw [receivedList_of_parsed hp] at hr
    rw [insertedList_of_parsed hp, hr] at hi
    split at hi
    · next he =>
      obtain ⟨other,hother,-⟩ := isEqual_rates he
      rw [hother] at he ⊢
      rw [addToRealm_of_isEqual he] at hr
      exact hr
    · contradiction

/-- The store with one list inserted, or none. -/
def Realm.insertList (realm : Realm Data) (key : NSString) : Option (RateList Data) → Realm Data
  | none => realm
  | some rateList => realm.setRateList key rateList

theorem Stored.realm {same : Bool} {request : Request} {json : Option JSON}
    {rateList : UnmanagedRateList Data} {refreshed : World Data}
    (hp : UnmanagedRateList.initWithAttributes json = .ok rateList)
    (h : Stored same request.currency rateList (finishOperation w) refreshed) :
    refreshed.realm =
      w.realm.insertList request.currency (insertedList same w request json) := by
  rw [insertedList_of_parsed hp]
  cases h with
  | kept he =>
    have he' : rateList.isEqual same (w.realm.rateList request.currency) = true := he
    rw [if_pos he']
    rfl
  | written stored he hs =>
    have he' : rateList.isEqual same (w.realm.rateList request.currency) = false := he
    rw [he', hs]
    rfl

/-- On the contents a refresh writes what was received, inserted or not. -/
theorem rateList_insertList {same : Bool} {request : Request} {json : Option JSON}
    (hkey : request.currency ∈ w.realm.keys) :
    (w.realm.insertList request.currency (insertedList same w request json)).rateList =
      KeyedWrites.writes w.realm.rateList
        ((receivedList json).toList.map (fun rateList => (request.currency, rateList))) := by
  cases hr : (receivedList json : Option (RateList Data)) with
  | none =>
    have hnone : insertedList same w request json = none := by
      rw [insertedList, hr]
      split <;> rfl
    rw [hnone]
    rfl
  | some stored =>
    cases hi : insertedList same w request json with
    | none =>
      have hstored := rateList_of_not_inserted hr hi
      exact (Function.update_eq_self_iff.mpr hstored.symm).symm
    | some list =>
      -- what is inserted is what was received
      obtain rfl : list = stored := by
        rw [insertedList, hr] at hi
        split at hi
        · exact (Option.some.inj hi).symm
        · contradiction
      exact Realm.rateList_setRateList list hkey

/-- An exchange changes amounts only. -/
theorem Exchanged.sameLists {key : NSString} {needed : Bool} {w' : World Data}
    (h : Exchanged key w needed w') : Realm.SameLists w.realm w'.realm := by
  cases h with
  | notNeeded => exact .refl _
  | rejected => exact .refl _
  | committed rate =>
    have hdebit := Realm.sameLists_addAmount w.realm key (-w.dataManager.valueForExchange)
    cases hb : w.dataManager.selectedBottomCurrency with
    | none =>
      simp only [resetValue, StorageService.commitTransfer, askedTransfer, hb, Option.elim_none]
      exact hdebit
    | some bottom =>
      simp only [resetValue, StorageService.commitTransfer, askedTransfer, hb, Option.elim_some]
      exact hdebit.trans (Realm.sameLists_addAmount _ bottom _)

theorem Succeeded.sameLists {same : Bool} {request : Request} {json : Option JSON}
    {w' : World Data} (h : Succeeded same request json w w') : Realm.SameLists
      (w.realm.insertList request.currency (insertedList same w request json)) w'.realm := by
  rw [← h.stored.realm h.parsed, h.left.realm]
  exact h.exchange.sameLists

/-- Wherever the success block is stopped, it has inserted the list or was not going to. -/
theorem SuccessAborted.sameLists {same : Bool} {request : Request} {json : Option JSON}
    {e : Abort} {w' : World Data} (h : SuccessAborted same request json w e w') :
    Realm.SameLists
      (w.realm.insertList request.currency (insertedList same w request json)) w'.realm := by
  cases h with
  | parsing x hx =>
    have hnone : insertedList same w request json = none := by
      rw [insertedList, rewrites, hx]
      rfl
    rw [hnone]
    exact .refl _
  | storing rateList x hp he hx =>
    have hnone : insertedList same w request json = none := by
      rw [insertedList_of_parsed hp, he, hx]
      rfl
    rw [hnone]
    exact .refl _
  | exchanging rateList _ x hp hs =>
    rw [← hs.realm hp]
    exact .refl _
  | leaving rateList refreshed _ _ hp hs hx =>
    rw [← hs.realm hp]
    exact hx.sameLists

namespace Process

/-- The request a step answers, with the list its response brings; none by a launch or while
nothing runs. -/
def received (p : Process Data) (a : Action) : Option (Request × RateList Data) :=
  p.world?.bind (fun w => w.received a)

/-- The same, where the step inserts the list as a new row. -/
def inserted (p : Process Data) (a : Action) : Option (Request × RateList Data) :=
  p.world?.bind (fun w => w.inserted a)

/-- The store after the step's insertion. -/
def afterInsertion (p : Process Data) (a : Action) : Realm Data :=
  match p.inserted a with
  | none => p.disk.realm
  | some (request, rateList) => p.disk.realm.setRateList request.currency rateList

end Process

theorem afterInsertion_responded {same : Identity} {task : ℕ} {json : Option JSON}
    {request : Request} (hr : w.request task = some request) :
    (Process.running w).afterInsertion (.responded same task json) =
      w.realm.insertList request.currency (insertedList same.base w request json) := by
  have hinserted : (Process.running w).inserted (.responded same task json) =
      (insertedList same.base w request json).map (fun rateList => (request, rateList)) := by
    simp only [Process.inserted, Process.world?, Option.bind_some, World.inserted, hr]
  rw [Process.afterInsertion, hinserted]
  cases insertedList same.base w request json with
  | none => rfl
  | some rateList => rfl

/-- Nothing but a response changes a list. -/
theorem Turn.sameLists {a : Action} {w' : World Data} (h : Turn a w w') :
    Realm.SameLists ((Process.running w).afterInsertion a) w'.realm := by
  cases h with
  | responded same _ _ task json request hr h =>
    rw [afterInsertion_responded hr]
    exact h.sameLists
  | ticked =>
    rw [startBatch_realm]
    exact .refl _
  | idle _ _ h =>
    cases a with
    | responded same task json =>
      have hnone : (Process.running w).inserted (.responded same task json) = none := by
        have hr : w.request task = none := h
        simp only [Process.inserted, Process.world?, Option.bind_some, World.inserted, hr]
        rfl
      rw [Process.afterInsertion, hnone]
      exact .refl _
    | _ => exact .refl _
  | _ => exact .refl _

theorem TurnAborted.sameLists {a : Action} {e : Abort} {d : Disk Data}
    (h : TurnAborted a w e d) :
    Realm.SameLists ((Process.running w).afterInsertion a) d.realm := by
  cases h with
  | filling _ _ x h =>
    cases a with
    | responded same task json => exact absurd rfl (h same task json)
    | _ => exact .refl _
  | editing => exact .refl _
  | pressing => exact .refl _
  | responding same _ w' task json request _ hr h =>
    rw [afterInsertion_responded hr]
    exact h.sameLists

theorem Launched.realm {same : Identity} {d : Disk Data} {w' : World Data}
    (h : Launched same d w') : w'.realm = (seededDisk d).realm := by
  cases h with
  | mk first top bottom hfirst htop hbottom => exact startBatch_realm _ _

namespace Process

/-- Apart from its insertion a step leaves all lists alone. -/
theorem step_sameLists (p : Process Data) (a : Action) :
    Realm.SameLists (p.afterInsertion a) (p.step a).disk.realm := by
  have hs := step_cases p a
  generalize p.step a = q at hs
  have hlaunch (same : Identity) : p.afterInsertion (.launch same) = p.disk.realm := by
    cases p <;> rfl
  have hseed := Realm.sameLists_firstEnterConfigurationIfNeeded p.disk.realm
  cases hs with
  | launched _ same w' h =>
    rw [hlaunch]
    change Realm.SameLists p.disk.realm w'.realm
    rw [h.realm]
    exact hseed
  | launchAborted _ same x =>
    rw [hlaunch]
    exact hseed
  | off => exact .refl _
  | turned _ w' _ _ h => exact h.sameLists
  | aborted _ _ _ d _ h => exact h.sameLists

/-- While a process runs, its requests in flight are for stored currencies. -/
def RequestsStored (p : Process Data) : Prop :=
  ∀ w, p = running w → ∀ r ∈ w.requests, r.currency ∈ w.realm.keys

theorem requestsStored_of_run (actions : List Action) :
    RequestsStored ((installed (Realm.empty : Realm Data)).run actions) :=
  fun _ hrun _ hr => (seeded_of_run hrun).request_mem_keys hr

theorem mem_keys_of_inserted {p : Process Data} {a : Action} (hp : p.RequestsStored)
    {request : Request} {rateList : RateList Data}
    (h : p.inserted a = some (request, rateList)) : request.currency ∈ p.disk.realm.keys := by
  obtain ⟨w,hw,hinserted⟩ := Option.bind_eq_some_iff.mp h
  have hrunning := eq_running hw
  cases a with
  | responded same task json =>
    obtain ⟨found,hfound,hrest⟩ := Option.bind_eq_some_iff.mp hinserted
    obtain ⟨list,-,hpair⟩ := Option.map_eq_some_iff.mp hrest
    obtain ⟨rfl,-⟩ := Prod.mk.inj hpair
    rw [hrunning]
    exact hp w hrunning found (List.mem_of_find?_eq_some hfound)
  | _ => contradiction

/-- The write a received list is. -/
def entry (received : Request × RateList Data) : NSString × RateList Data :=
  (received.1.currency, received.2)

/-- On the contents a step writes the list it has received. -/
theorem step_rateList {p : Process Data} (hp : p.RequestsStored) (a : Action) :
    (p.step a).disk.realm.rateList =
      KeyedWrites.writes p.disk.realm.rateList ((p.received a).toList.map entry) := by
  rw [(p.step_sameLists a).rateList]
  cases p with
  | terminated d reason => cases a <;> rfl
  | running w =>
    cases a with
    | responded same task json =>
      cases hr : w.request task with
      | none =>
        have hinserted : (running w).inserted (.responded same task json) = none := by
          simp only [inserted, world?, Option.bind_some, World.inserted, hr, Option.bind_none]
        have hreceived : (running w).received (.responded same task json) = none := by
          simp only [received, world?, Option.bind_some, World.received, hr, Option.bind_none]
        rw [afterInsertion, hinserted, hreceived]
        rfl
      | some request =>
        have hkey := hp w rfl request (List.mem_of_find?_eq_some hr)
        have hreceived : ((running w).received (.responded same task json)).toList.map entry =
            (receivedList json).toList.map (fun rateList => (request.currency, rateList)) := by
          simp only [received, world?, Option.bind_some, World.received, hr]
          cases (receivedList json : Option (RateList Data)) with
          | none => rfl
          | some rateList => rfl
        rw [afterInsertion_responded hr, hreceived]
        exact rateList_insertList hkey
    | _ => rfl

/-- On the rows a step is at most one assignment of a new row. -/
theorem step_table {p : Process Data} (hp : p.RequestsStored) (a : Action) :
    (p.step a).disk.realm.table = match p.inserted a with
      | none => p.disk.realm.table
      | some (request, _) => p.disk.realm.table.assign request.currency := by
  rw [(p.step_sameLists a).table, afterInsertion]
  cases h : p.inserted a with
  | none => rfl
  | some x => exact Realm.table_setRateList x.2 (mem_keys_of_inserted hp h)

end Process

end

end CurrencyConverter
