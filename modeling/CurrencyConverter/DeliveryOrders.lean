import CurrencyConverter.BatchReports
import CurrencyConverter.Deliveries
import CurrencyConverter.PendingExchange
import CurrencyConverter.RateListRuns

/-! The app takes the replies in whatever order they come. Each is one step of the observed
state while the group to leave counts someone, so all orders end alike or all abort. -/
namespace CurrencyConverter
open JSONTree Token

variable {Data : Type} {w : World Data}

/-- What the group the global points to still counts. -/
def World.groupCount (w : World Data) : ℕ := w.group.elim 0 (fun g => (w.groups.group g).count)

theorem occupied_iff (w : World Data) : Occupied w ↔ w.groupCount ≠ 0 := by
  rw [Occupied, World.groupCount]
  cases w.group with
  | none => simp
  | some g => simp

theorem LeftOnce.groupCount {request : Request} {w' : World Data} (h : LeftOnce request w w') :
    w.groupCount = w'.groupCount+1 := by
  rw [World.groupCount, World.groupCount, h.kept, h.current]
  exact WaitGroup.Table.leave_count h.leave

/-- A transfer between stored currencies posts to every balance. -/
theorem Paid.amount_eq {t : Transfer} {d e : Disk Data} (h : Paid t d e)
    (hsource : t.source ∈ d.realm.keys) (htarget : ∀ key ∈ t.target, key ∈ d.realm.keys) :
    e.realm.amount = fun i => t.post i (d.realm.amount i) := by
  funext i
  by_cases hi : i ∈ d.realm.keys
  · exact h.amount i hi
  · -- a currency without a row has a balance of zero, before and after
    have hi' : i ∉ e.realm.keys := by
      rw [keys_of_codes h.codes]
      exact hi
    have hs : t.source ≠ i := fun heq => hi (heq ▸ hsource)
    have ht : t.target ≠ some i := fun heq => hi (htarget i heq)
    rw [e.realm.amount_of_not_mem hi', d.realm.amount_of_not_mem hi,
      TransferLedger.Transfer.post, if_neg hs, if_neg ht, sub_zero, add_zero]

/-- The two replies are for different currencies, and not both perform an exchange. -/
def Delivery.Apart (d e : Delivery) : Prop :=
  d.request.currency ≠ e.request.currency ∧
    (d.request.performExchange = false ∨ e.request.performExchange = false)

theorem Delivery.Apart.symm {d e : Delivery} (h : Apart d e) : Apart e d :=
  ⟨h.1.symm, h.2.symm⟩

instance : Std.Symm Delivery.Apart := ⟨fun _ _ h => h.symm⟩

/-- Replies to requests in flight for pairwise different currencies, at most one of which
exchanges, each with a documented response or an error. -/
structure Pending (w : World Data) (deliveries : List Delivery) : Prop where
  flight : ∀ d ∈ deliveries, d.request ∈ w.requests
  apart : deliveries.Pairwise Delivery.Apart
  wellFormed : ∀ d ∈ deliveries, d.WellFormed

theorem Pending.of_perm {deliveries order : List Delivery} (h : Pending w deliveries)
    (hp : order.Perm deliveries) : Pending w order where
  flight d hd := h.flight d (hp.mem_iff.mp hd)
  apart := (hp.pairwise_iff Delivery.Apart.symm).mpr h.apart
  wellFormed d hd := h.wellFormed d (hp.mem_iff.mp hd)

section
variable [JSONSerialization Data]

/-- The exchange in its own world, at the rate it has looked up. -/
theorem Exchanged.amount {key : NSString} {needed : Bool} {w' : World Data} {rate : ℚ}
    (h : Exchanged key w needed w') (hkey : key ∈ w.realm.keys)
    (hbottom : ∀ code ∈ w.dataManager.selectedBottomCurrency, code ∈ w.realm.keys)
    (hrate : ∀ looked, storedRate w key = .ok looked → looked = rate) :
    w'.realm.amount = if needed then
      w.observed.exchangedAmount key w.dataManager.selectedBottomCurrency rate
    else w.realm.amount := by
  cases h with
  | notNeeded => rfl
  | rejected error looked hlooked hrefused =>
    exact (if_neg (not_covered_of_refused hrefused)).symm
  | committed looked hlooked hfunds hvalue =>
    obtain rfl := hrate looked hlooked
    have hpaid := (paid_commitTransfer w (askedTransfer w key looked)).amount_eq hkey hbottom
    exact hpaid.trans (if_pos ⟨hfunds, hvalue⟩).symm

/-- The rate the exchange looks up is that of the response. -/
theorem Succeeded.amount {same : Bool} {request : Request} {json : Option JSON}
    {w' : World Data} (h : Succeeded same request json w w') (hw : Seeded w)
    (hkey : request.currency ∈ w.realm.keys) : w'.realm.amount =
      if request.performExchange then
        w.observed.exchangedAmount request.currency w.dataManager.selectedBottomCurrency
          ((responseRate json w.dataManager.selectedBottomCurrency).toOption.getD 0)
      else w.realm.amount := by
  obtain ⟨hmanager,hkeys,hsame⟩ := h.refreshed_frame
  have hbottom : ∀ code ∈ h.refreshed.dataManager.selectedBottomCurrency,
      code ∈ h.refreshed.realm.keys := by
    intro code hcode
    obtain ⟨bottom,hmem,hselected⟩ := hw.bottom_mem
    rw [hmanager] at hcode
    obtain rfl : code = bottom := Option.mem_unique hcode hselected
    rw [hkeys, keys_of_seededCodes hw.codes]
    exact hmem
  have hrate : ∀ looked,
      CurrencyConverter.storedRate h.refreshed request.currency = .ok looked →
      looked = (responseRate json w.dataManager.selectedBottomCurrency).toOption.getD 0 := by
    intro looked hlooked
    have hresponse := h.stored.storedRate h.parsed hlooked
    rw [hmanager] at hresponse
    rw [hresponse]
    rfl
  have hx := h.exchange.amount (hkeys ▸ hkey) hbottom hrate
  have hvalue : h.refreshed.dataManager.valueForExchange = w.dataManager.valueForExchange :=
    congrArg DataManager.valueForExchange hmanager
  rw [h.left.realm, hx, hmanager, hsame]
  split
  · exact Observed.exchangedAmount_congr hsame hvalue _ _ _
  · rfl

/-- A handled response moves the observed state as told without the app. -/
theorem Succeeded.observed {same : Bool} {request : Request} {json : Option JSON}
    {w' : World Data} (h : Succeeded same request json w w') (hw : Seeded w)
    (hkey : request.currency ∈ w.realm.keys) : w'.observed =
      w.observed.after w.dataManager.selectedBottomCurrency ⟨request, .success json⟩ := by
  apply Observed.ext
  · exact h.amount hw hkey
  · exact h.sameLists.rateList.trans (rateList_insertList hkey)
  · exact h.value
  · exact h.counters.1

/-- One reply has been taken: its request is out of flight, and a success has left the
group. -/
structure Delivered (d : Delivery) (w w' : World Data) : Prop where
  observed : w'.observed = w.observed.after w.dataManager.selectedBottomCurrency d
  bottom : w'.dataManager.selectedBottomCurrency = w.dataManager.selectedBottomCurrency
  requests : w'.requests = w.requests.erase d.request
  count : w.groupCount = w'.groupCount + if d.succeeds then 1 else 0

theorem Succeeded.delivered {same : Bool} {request : Request} {json : Option JSON}
    {w' : World Data} (h : Succeeded same request json (completed w request) w')
    (hw : Seeded w) (hr : request ∈ w.requests) :
    Delivered ⟨request, .success json⟩ w w' := by
  obtain ⟨-,-,hbottom⟩ := h.selections
  obtain ⟨hleft⟩ := h.leftOnce
  have hkey : request.currency ∈ (completed w request).realm.keys := hw.request_mem_keys hr
  exact ⟨h.observed (hw.completed request) hkey, hbottom, h.requests, hleft.groupCount⟩

/-- A documented response is not stopped before it leaves, and a group that counts someone can
be left. -/
theorem Delivery.WellFormed.not_aborted {same : Bool} {request : Request} {json : Option JSON}
    (h : WellFormed ⟨request, .success json⟩) (hw : Seeded w) (hr : request ∈ w.requests)
    (hcount : w.groupCount ≠ 0) {e : Abort} {w' : World Data}
    (ha : SuccessAborted same request json (completed w request) e w') : False := by
  obtain ⟨base,rates,⟨fields,rfl,hbase,hrates⟩,hread⟩ := h json rfl
  have hdigestible : Digestible (completed w request) request fields rates := by
    refine ⟨hrates, ?_, Or.inl ⟨base, hbase⟩⟩
    intro code hcode
    apply hread code
    rw [← keys_of_seededCodes hw.codes]
    exact hcode
  have hoccupied : Occupied (completed w request) := (occupied_iff w).mpr hcount
  exact hdigestible.not_aborted (hw.completed request) (hw.request_mem_keys hr) hoccupied ha

/-- One step: the reply is taken, or a success finds the group empty and aborts. -/
theorem Delivery.Answers.step {d : Delivery} {a : Action} (ha : Answers d a) (hw : Seeded w)
    (ht : Tasked w) (hd : d.request ∈ w.requests) (hwf : d.WellFormed) :
    (∃ w', (Process.running w).step a = .running w' ∧ Seeded w' ∧ Tasked w' ∧
        Delivered d w w') ∨
      d.succeeds = true ∧ w.groupCount = 0 ∧
        ∃ e disk, (Process.running w).step a = .terminated disk (some e) := by
  have hr := ht.request_eq hd
  cases ha with
  | failure request error =>
    have hturn := Turn.failed w request.taskIdentifier error request hr
    exact Or.inl ⟨_, Process.step_failed hr error, hturn.seeded hw, hturn.tasked ht,
      ⟨rfl, rfl, rfl, rfl⟩⟩
  | success request json same =>
    rcases Process.step_responded hr same json with ⟨w',hstep,⟨h⟩⟩ | ⟨e,w',hstep,h⟩
    · have hturn := Turn.responded same w w' request.taskIdentifier json request hr h
      exact Or.inl ⟨w', hstep, hturn.seeded hw, hturn.tasked ht, h.delivered hw hd⟩
    · refine Or.inr ⟨rfl, ?_, e, w'.toDisk, hstep⟩
      by_contra hcount
      exact hwf.not_aborted hw hd hcount h

theorem Pending.tail {d : Delivery} {rest : List Delivery} {w' : World Data}
    (h : Pending w (d :: rest)) (hd : Delivered d w w') : Pending w' rest := by
  obtain ⟨happart,hrest⟩ := List.pairwise_cons.mp h.apart
  refine ⟨?_, hrest, fun e he => h.wellFormed e (List.mem_cons_of_mem d he)⟩
  intro e he
  have hne : e.request ≠ d.request := by
    intro heq
    exact (happart e he).1 (congrArg Request.currency heq).symm
  rw [hd.requests]
  exact (List.mem_erase_of_ne hne).mpr (h.flight e (List.mem_cons_of_mem d he))

omit [JSONSerialization Data] in
theorem startsNothing_of_answers {order : List Delivery} {actions : List Action}
    (h : List.Forall₂ Delivery.Answers order actions) : ∀ a ∈ actions, StartsNothing a := by
  induction h with
  | nil => exact fun a ha => absurd ha List.not_mem_nil
  | cons hhead _ ih =>
    intro a ha
    rcases List.mem_cons.mp ha with rfl | ha
    · cases hhead with
      | success => trivial
      | failure => trivial
    · exact ih a ha

/-- Taking the replies one after the other, the app is the fold of the observed state, unless
there are more successes than the group counts. -/
theorem Pending.run {order : List Delivery} {actions : List Action} (h : Pending w order)
    (ha : List.Forall₂ Delivery.Answers order actions) (hw : Seeded w) (ht : Tasked w) :
    (order.countP Delivery.succeeds ≤ w.groupCount ∧
        ∃ w', (Process.running w).run actions = .running w' ∧ w'.observed =
          order.foldl (Observed.after w.dataManager.selectedBottomCurrency) w.observed) ∨
      (w.groupCount < order.countP Delivery.succeeds ∧
        ∃ e disk, (Process.running w).run actions = .terminated disk (some e)) := by
  -- on the order: the rest is pending in the world after the first reply
  induction ha generalizing w with
  | nil => exact Or.inl ⟨Nat.zero_le _, w, rfl, rfl⟩
  | @cons d a order actions hhead htail ih =>
    have hstep := hhead.step hw ht (h.flight d List.mem_cons_self)
      (h.wellFormed d List.mem_cons_self)
    simp only [Process.run, Transition.run_cons, List.countP_cons, List.foldl_cons]
    rcases hstep with ⟨w',hstep,hw',ht',hd⟩ | ⟨hsucceeds,hzero,e,disk,hstep⟩
    · have hrest := ih (h.tail hd) hw' ht'
      -- a success takes one from the group and one from the successes to come
      have hcount := hd.count
      rw [hstep, ← hd.observed, ← hd.bottom]
      rcases hrest with ⟨hle,hrun⟩ | ⟨hlt,hrun⟩
      · exact Or.inl ⟨by omega, hrun⟩
      · exact Or.inr ⟨by omega, hrun⟩
    · -- the process stays as it is, whatever is left to deliver
      have hnothing := startsNothing_of_answers htail
      refine Or.inr ⟨?_, e, disk, ?_⟩
      · rw [hzero, hsucceeds, if_pos rfl]
        omega
      · rw [hstep]
        exact Process.run_terminated disk (some e) hnothing

/-- The observed state after replies that are pairwise apart does not depend on their order. -/
theorem Observed.foldl_after_perm (bottom : Option NSString) (o : Observed Data)
    {first second : List Delivery} (hp : first.Perm second)
    (hapart : first.Pairwise Delivery.Apart) :
    first.foldl (after bottom) o = second.foldl (after bottom) o := by
  apply hp.foldl_eq'
  -- neighbours may change places, and every permutation is made of such changes
  intro d hd e he o
  by_cases hde : d = e
  · rw [hde]
  · obtain ⟨hcurrency,hexchange⟩ := hapart.forall hd he hde
    exact after_comm bottom o hcurrency hexchange

end

/-- A reply for each request in flight: rates for euros and pounds, an error for dollars. -/
def repliesFor (requests : List Request) : List Delivery :=
  requests.map (fun request => ⟨request,
    if request.currency = "EUR".toList then .success laterEuroRates
    else if request.currency = "GBP".toList then .success poundRates
    else .failure timedOut⟩)

theorem pending_repliesFor (h : w.requests.Pairwise (fun r s => r.currency ≠ s.currency ∧
    (r.performExchange = false ∨ s.performExchange = false))) :
    Pending w (repliesFor w.requests) := by
  refine ⟨?_, List.pairwise_map.mpr h, ?_⟩
  · intro d hd
    obtain ⟨request,hr,rfl⟩ := List.mem_map.mp hd
    exact hr
  · intro d hd json hjson
    obtain ⟨request,hr,rfl⟩ := List.mem_map.mp hd
    simp only at hjson
    split at hjson
    · obtain rfl := Reply.success.inj hjson
      exact ⟨_, _, hasContent_ratesResponse _ _, by decide +kernel⟩
    · split at hjson
      · obtain rfl := Reply.success.inj hjson
        exact ⟨_, _, hasContent_ratesResponse _ _, by decide +kernel⟩
      · contradiction

/-- The answers to the first batch have emptied the group of the second. -/
def emptiedGroup : List Action :=
  [.launch .interned, .timerFired, .responded .interned 0 euroRates,
    .responded .interned 1 euroRates, .responded .interned 2 poundRates]

end CurrencyConverter
