import CurrencyConverter.TransferSteps
import CurrencyConverter.JSONTokens

/-! Exchange requests over whole runs: how many transfers the presses allow, what has to
happen between two of them, and when a transfer is the one the press confirmed. -/
namespace CurrencyConverter
open JSONTree Token

variable {Data : Type} {w : World Data}

/-- How often the enabled button has been pressed. -/
def presses (history : List Event) : ℕ := history.count .pressed

theorem presses_le_of_suffix {old new : List Event} (h : old <:+ new) :
    presses old ≤ presses new := h.sublist.count_le _

theorem fire_history (w : World Data) (fired group : ℕ) :
    w.history <:+ (RateListService.fire w fired group).history := List.suffix_append _ _

theorem startBatch_history (w : World Data) (currencies : List NSString) :
    w.history <:+ (startBatch w currencies).history := by
  have hissued : (issueBatch (openGroup w) w.groups.next currencies).history = w.history :=
    issueBatch_frame (fun w => w.history) (fun _ _ _ => rfl) _ currencies
  rw [← hissued]
  exact fire_history _ _ _

theorem Left.history {request : Request} {w' : World Data} (h : Left request w w') :
    w.history <:+ w'.history := by
  cases h with
  | mk group fired groups hg hl =>
    have hleft := List.suffix_cons (Event.left request group) w.history
    exact hleft.trans (List.suffix_append _ _)

section
variable [JSONSerialization Data]

theorem Exchanged.history {key : NSString} {needed : Bool} {w' : World Data}
    (h : Exchanged key w needed w') : w.history <:+ w'.history := by
  cases h with
  | notNeeded => exact List.suffix_refl _
  | rejected => exact List.suffix_cons _ _
  | committed => exact List.suffix_cons _ _

theorem Stored.history {same : Bool} {key : NSString} {rateList : UnmanagedRateList Data}
    {refreshed : World Data} (h : Stored same key rateList w refreshed) :
    w.history <:+ refreshed.history := by
  obtain ⟨realm,modifications,rfl,-,-⟩ := h.frame
  exact List.suffix_refl _

theorem SuccessAborted.history {same : Bool} {request : Request} {json : Option JSON}
    {e : Abort} {w' : World Data} (h : SuccessAborted same request json w e w') :
    w.history <:+ w'.history := by
  cases h with
  | parsing => exact List.suffix_refl _
  | storing => exact List.suffix_refl _
  | exchanging rateList _ x hp hs => exact hs.history
  | leaving rateList refreshed _ _ hp hs hx =>
    exact hs.history.trans hx.history

/-- The history only grows. -/
theorem Turn.history {a : Action} {w' : World Data} (h : Turn a w w') :
    w.history <:+ w'.history := by
  cases h with
  | edited => exact List.suffix_cons _ _
  | pressed => exact List.suffix_cons _ _
  | failed => exact List.suffix_cons _ _
  | ticked => exact startBatch_history _ _
  | responded same _ _ task json request hr h =>
    have hx : w.history <:+ h.exchanged.history := h.stored.history.trans h.exchange.history
    exact hx.trans h.left.history
  | _ => exact List.suffix_refl _

theorem TurnAborted.history {a : Action} {e : Abort} {d : Disk Data}
    (h : TurnAborted a w e d) : w.history <:+ d.history := by
  cases h with
  | filling => exact List.suffix_refl _
  | editing => exact List.suffix_cons _ _
  | pressing => exact List.suffix_cons _ _
  | responding same _ w' task json request _ hr h => exact h.history

end

theorem request_mem {task : ℕ} {request : Request} (h : w.request task = some request) :
    request ∈ w.requests := List.mem_of_find?_eq_some h

/-- An exchange request that is answered is in flight no more. -/
theorem completed_exchanges_length {request : Request} (hmem : request ∈ w.requests) :
    (completed w request).exchanges.length + (if request.performExchange then 1 else 0) =
      w.exchanges.length := by
  have hcount := List.countP_erase Request.performExchange w.requests request
  simp only [World.exchanges, completed, ← List.countP_eq_length_filter, hcount, hmem, true_and]
  split
  · next h =>
    have hpos : 0 < w.requests.countP Request.performExchange :=
      List.countP_pos_iff.mpr ⟨request, hmem, h⟩
    omega
  · omega

/-- Transfers and pending exchanges together are covered by presses. -/
def Covered (w : World Data) : Prop :=
  (transfers w.history).length + w.exchanges.length ≤ presses w.history

def Spent (d : Disk Data) : Prop := (transfers d.history).length ≤ presses d.history

theorem Answered.length {request : Request} {json : Option JSON} {d : Disk Data}
    (h : Answered w request json d) : (transfers d.history).length ≤
      (transfers w.history).length + (if request.performExchange then 1 else 0) := by
  cases h with
  | still h => rw [h.transfers]; omega
  | paid t hc h =>
    rw [h.transfers, hc.needed, List.length_cons]
    exact le_refl _

/-- After a response, aborted or not, the presses still cover what is left. -/
theorem Covered.answered {request : Request} {json : Option JSON} {d : Disk Data}
    (hw : Covered w) (hmem : request ∈ w.requests) (h : Answered w request json d)
    (hhistory : w.history <:+ d.history) :
    (transfers d.history).length + (completed w request).exchanges.length ≤
      presses d.history := by
  have hlen := h.length
  have hflight := completed_exchanges_length hmem
  have hpresses := presses_le_of_suffix hhistory
  unfold Covered at hw
  omega

theorem Covered.still {d : Disk Data} (hw : Covered w) (h : Still w.toDisk d)
    (hhistory : w.history <:+ d.history) {pending : ℕ} (hp : pending ≤ w.exchanges.length) :
    (transfers d.history).length + pending ≤ presses d.history := by
  have hpresses := presses_le_of_suffix hhistory
  unfold Covered at hw
  rw [h.transfers]
  omega

section
variable [JSONSerialization Data]

theorem Turn.covered {a : Action} {w' : World Data} (h : Turn a w w') (hw : Covered w) :
    Covered w' := by
  have hhistory := h.history
  cases h with
  | idle => exact hw
  | pressed _ group top henabled hgroup htop =>
    -- the press that issues the request also pays for it
    have hpresses : presses (Event.pressed :: w.history) = presses w.history+1 :=
      List.count_cons_self
    change (transfers (Event.pressed :: w.history)).length + (w.exchanges.length+1) ≤
      presses (Event.pressed :: w.history)
    rw [transfers_cons_other rfl, hpresses]
    unfold Covered at hw
    omega
  | ticked => exact hw.still (still_startBatch _ _) hhistory (by rw [startBatch_exchanges])
  | responded same _ _ task json request hr h =>
    have hflight : w'.exchanges = (completed w request).exchanges := by
      rw [World.exchanges, h.requests, World.exchanges]
    rw [Covered, hflight]
    exact hw.answered (request_mem hr) h.answered.of_completed hhistory
  | failed _ task error request hr =>
    have hlength := completed_exchanges_length (request_mem hr)
    exact hw.still (still_record (finishOperation (completed w request)) rfl) hhistory
      (by change (completed w request).exchanges.length ≤ _; omega)
  | edited same _ text bottom hcell =>
    exact hw.still (still_record w rfl) hhistory (le_refl _)
  | _ => exact hw.still (.refl _) hhistory (le_refl _)

theorem TurnAborted.spent {a : Action} {e : Abort} {d : Disk Data} (h : TurnAborted a w e d)
    (hw : Covered w) : Spent d := by
  have hhistory := h.history
  cases h with
  | responding same _ w' task json request _ hr h =>
    have hc := hw.answered (request_mem hr) h.answered.of_completed hhistory
    exact (Nat.le_add_right _ _).trans hc
  | filling => exact hw.still (.refl _) hhistory (Nat.zero_le _)
  | editing => exact hw.still (still_record w rfl) hhistory (Nat.zero_le _)
  | pressing => exact hw.still (still_record w rfl) hhistory (Nat.zero_le _)

theorem Launched.spent {same : Identity} {d : Disk Data} {w' : World Data} (hd : Spent d)
    (h : Launched same d w') : Spent w'.toDisk ∧ Covered w' := by
  have htransfers : transfers w'.history = transfers d.history := h.disk.transfers
  cases h with
  | mk first top bottom hfirst htop hbottom =>
    -- no request survives a launch, and a batch asks for no exchange
    have hpresses := presses_le_of_suffix (startBatch_history (shownFirst d first top bottom)
      (seededDisk d).realm.sortedKeys)
    let started := startBatch (shownFirst d first top bottom) (seededDisk d).realm.sortedKeys
    have hnone : started.exchanges = [] := startBatch_exchanges _ _
    have hspent : (transfers started.history).length ≤ presses started.history := by
      calc (transfers started.history).length
          = (transfers d.history).length := congrArg List.length htransfers
        _ ≤ presses d.history := hd
        _ ≤ presses started.history := hpresses
    refine ⟨hspent, ?_⟩
    change (transfers started.history).length + started.exchanges.length ≤
      presses started.history
    rw [hnone, List.length_nil, Nat.add_zero]
    exact hspent

theorem preserved_spent : Process.Preserved (Spent : Disk Data → Prop) Covered
    (fun _ _ => True) where
  launched hd hl := hl.spent hd
  seeded hd := hd
  turned _ hw _ ht := by
    have hw' := ht.covered hw
    exact ⟨(Nat.le_add_right _ _).trans hw', hw'⟩
  aborted _ hw _ ha := ha.spent hw

/-- Without an edit the entered amount stays zero. -/
theorem preserved_unentered : Process.Preserved (fun _ : Disk Data => True)
    (fun w => w.dataManager.valueForExchange = 0)
    (fun _ a => ∀ same text, a ≠ .textEdited same text) where
  launched _ hl := ⟨trivial, hl.value⟩
  seeded _ := trivial
  turned _ hw hc ht := by
    refine ⟨trivial, ?_⟩
    rcases ht.value_cases with hkept | hreset | ⟨same,text,ha,-⟩
    · rw [hkept, hw]
    · exact hreset
    · exact (hc same text ha).elim
  aborted _ _ _ _ := trivial

namespace Process

/-- The step from `p` commits a transfer. -/
def Transfers (p : Process Data) (a : Action) : Prop :=
  transfers (p.step a).disk.history ≠ transfers p.disk.history

theorem Transfers.commitsAt {p : Process Data} {a : Action} (h : p.Transfers a) :
    ∃ w request json t, p.CommitsAt a w request json t := by
  rcases p.step_money a with hun | hc
  · exact (h hun.transfers).elim
  · exact hc

/-- After the exchange attempt nothing is entered any more. -/
theorem CommitsAt.reset {p : Process Data} {a : Action} {w : World Data} {request : Request}
    {json : Option JSON} {t : Transfer} (h : p.CommitsAt a w request json t) :
    (p.step a).Holds (fun _ => True) (fun w => w.dataManager.valueForExchange = 0) := by
  obtain ⟨same,rfl⟩ := h.response
  have hs := p.step_cases (.responded same request.taskIdentifier json)
  rw [h.running] at hs ⊢
  generalize (Process.running w).step (.responded same request.taskIdentifier json) = q at hs ⊢
  -- an aborted response leaves no app behind, a handled one has reset the amount
  cases hs with
  | aborted _ _ e d ha ht => trivial
  | turned _ w' _ ha ht =>
    refine ⟨trivial, ?_⟩
    cases ht with
    | idle _ _ hidle => exact absurd (hidle.symm.trans h.flight) (by simp)
    | responded _ _ _ _ _ found hfound hsucceeded =>
      obtain rfl : found = request := Option.mem_unique hfound h.flight
      have hvalue := hsucceeded.value
      rw [h.commits.needed, if_pos rfl] at hvalue
      exact hvalue

end Process

/-- No double spend: there are at most as many transfers as presses, and between two
steps that commit a transfer the amount has been entered again. -/
theorem no_double_spend (realm : Realm Data) (actions : List Action) :
    let p := (Process.installed realm).run actions
    (transfers p.disk.history).length ≤ presses p.disk.history ∧
      ∀ before a middle b after, actions = before ++ a :: (middle ++ b :: after) →
        ((Process.installed realm).run before).Transfers a →
        ((Process.installed realm).run (before ++ a :: middle)).Transfers b →
        ∃ same text, Action.textEdited same text ∈ middle := by
  intro p
  refine ⟨?_, ?_⟩
  · exact (preserved_spent.run_always (p := .installed realm) (le_refl 0) actions).disk
  · intro before a middle b after _ ha hb
    -- the first transfer resets the amount, and without an edit it stays zero
    by_contra hnone
    push Not at hnone
    obtain ⟨v,request,json,t,hcommit⟩ := ha.commitsAt
    obtain ⟨w,later,json',u,hcommit'⟩ := hb.commitsAt
    have hzero := preserved_unentered.run_of_actions hcommit.reset
      (fun c hc same text he => hnone same text (he ▸ hc))
    have hrun : (Process.installed realm).run (before ++ a :: middle) =
        (((Process.installed realm).run before).step a).run middle := by
      rw [Process.run, Transition.run_append, Transition.run_cons]
      rfl
    rw [← hrun, hcommit'.running] at hzero
    exact hcommit'.commits.value (hcommit'.commits.debit.trans hzero.2)

end

/-- While an exchange request is in flight, a bottom scroll selects only what was selected
at its press, and an edit enters only what was entered then, or zero. -/
def Undisturbed (w : World Data) : Action → Prop
  | .bottomScrollEnded _ item => item < w.dataManager.currencies.length →
    ∀ r ∈ w.exchanges,
      r.issue.selectedBottomCurrency = w.dataManager.currencies[min item (numberOfPages-1)]?
  | .textEdited _ text => ∀ r ∈ w.exchanges,
    ExchangeCell.enteredValue text = 0 ∨ ExchangeCell.enteredValue text = r.issue.valueForExchange
  | _ => True

instance : ∀ (w : World Data) (a : Action), Decidable (Undisturbed w a)
  | w, .bottomScrollEnded _ item => inferInstanceAs (Decidable (item < _ → ∀ r ∈ w.exchanges, _))
  | w, .textEdited _ _ => inferInstanceAs (Decidable (∀ r ∈ w.exchanges, _ ∨ _))
  | _, .launch _ | _, .topScrollEnded _ _ | _, .exchangePressed | _, .timerFired
  | _, .responded _ _ _ | _, .failed _ _ | _, .notified _ _ => isTrue trivial

/-- What an exchange request will find is what its press saw, or an amount of zero. -/
def AsPressed (w : World Data) : Prop :=
  ∀ r ∈ w.exchanges, r.issue.selectedTopCurrency = some r.currency ∧
    w.dataManager.selectedBottomCurrency = r.issue.selectedBottomCurrency ∧
    (w.dataManager.valueForExchange = 0 ∨
      w.dataManager.valueForExchange = r.issue.valueForExchange)

/-- A turn that adds no exchange and keeps bottom selection and amount. -/
theorem AsPressed.keep {w' : World Data} (hw : AsPressed w)
    (hexchanges : ∀ r ∈ w'.exchanges, r ∈ w.exchanges)
    (hbottom : w'.dataManager.selectedBottomCurrency = w.dataManager.selectedBottomCurrency)
    (hvalue : w'.dataManager.valueForExchange = w.dataManager.valueForExchange ∨
      w'.dataManager.valueForExchange = 0) : AsPressed w' := by
  intro r hr
  obtain ⟨htop,hb,hv⟩ := hw r (hexchanges r hr)
  refine ⟨htop, hbottom.trans hb, ?_⟩
  rcases hvalue with h | h
  · rwa [h]
  · exact Or.inl h

theorem completed_exchanges_subset (w : World Data) (request : Request) :
    ∀ r ∈ (completed w request).exchanges, r ∈ w.exchanges := by
  intro r hr
  have hsub : (w.requests.erase request).Sublist w.requests := List.erase_sublist
  exact (hsub.filter Request.performExchange).subset hr

section
variable [JSONSerialization Data]

theorem Turn.asPressed {a : Action} {w' : World Data} (h : Turn a w w') (hw : AsPressed w)
    (hc : Undisturbed w a) : AsPressed w' := by
  cases h with
  | idle => exact hw
  | scrolledTop => exact hw.keep (fun _ h => h) rfl (Or.inl rfl)
  | scrolledBottom same _ item bottom cell hitem hbottom hcell =>
    intro r hr
    obtain ⟨htop,-,hv⟩ := hw r hr
    exact ⟨htop, (hbottom.symm.trans (hc hitem r hr).symm), hv⟩
  | edited same _ text bottom hcell =>
    intro r hr
    obtain ⟨htop,hb,-⟩ := hw r hr
    exact ⟨htop, hb, hc r hr⟩
  | pressed _ group top henabled hgroup htop =>
    intro r hr
    change r ∈ _ :: w.exchanges at hr
    rcases List.mem_cons.mp hr with rfl | hr
    · exact ⟨htop, rfl, Or.inr rfl⟩
    · exact hw r hr
  | ticked =>
    have hmanager := startBatch_dataManager w w.timer
    apply hw.keep _ (congrArg DataManager.selectedBottomCurrency hmanager)
      (Or.inl (congrArg DataManager.valueForExchange hmanager))
    rw [startBatch_exchanges]
    exact fun _ h => h
  | responded same _ _ task json request hr h =>
    -- the other exchanges in flight find the amount reset, or as it was
    obtain ⟨-,-,hbottom⟩ := h.selections
    apply hw.keep
    · rw [World.exchanges, h.requests]
      exact completed_exchanges_subset w request
    · exact hbottom
    · rw [h.value]
      split
      · exact Or.inr rfl
      · exact Or.inl rfl
  | failed _ task error request hr =>
    exact hw.keep (completed_exchanges_subset w request) rfl (Or.inl rfl)
  | deliveredNothing => exact hw.keep (fun _ h => h) rfl (Or.inl rfl)
  | notified => exact hw.keep (fun _ h => h) rfl (Or.inl rfl)

theorem preserved_asPressed : Process.Preserved (fun _ : Disk Data => True) AsPressed
    Undisturbed where
  launched _ hl := by
    refine ⟨trivial, ?_⟩
    cases hl with
    | mk first top bottom hfirst htop hbottom =>
      intro r hr
      change r ∈ (startBatch _ _).exchanges at hr
      rw [startBatch_exchanges] at hr
      contradiction
  seeded _ := trivial
  turned _ hw hc ht := ⟨trivial, ht.asPressed hw hc⟩
  aborted _ _ _ _ := trivial

/-- In a run that leaves bottom selection and amount alone while exchanges are in flight,
every transfer is the one its press confirmed. -/
theorem transfer_as_pressed (realm : Realm Data) (actions : List Action)
    (hm : Transition.Meets Process.step (Process.When Undisturbed) (.installed realm) actions)
    (a : Action) (w : World Data) (request : Request) (json : Option JSON) (t : Transfer)
    (hc : ((Process.installed realm).run actions).CommitsAt a w request json t) :
    request.issue.selectedTopCurrency = some t.source ∧
      request.issue.selectedBottomCurrency = t.target ∧
      request.issue.valueForExchange = t.debit := by
  have hrun := preserved_asPressed.run (p := .installed realm) trivial hm
  rw [hc.running] at hrun
  have hmem : request ∈ w.exchanges :=
    List.mem_filter.mpr ⟨request_mem hc.flight, hc.commits.needed⟩
  obtain ⟨htop,hbottom,hvalue⟩ := hrun.2 request hmem
  have hdebit := hc.commits.debit
  refine ⟨by rw [htop, hc.commits.source], by rw [← hbottom, hc.commits.target], ?_⟩
  rcases hvalue with hzero | hentered
  · exact absurd (hdebit.trans hzero) hc.commits.value
  · rw [hdebit, hentered]

end

theorem pressedTenEuros_as_pressed : ∃ a w request json t,
    ((Process.installed (Realm.empty : Realm (List Token))).run pressedTenEuros).CommitsAt
        a w request json t ∧
      request.issue.selectedTopCurrency = some t.source ∧
      request.issue.selectedBottomCurrency = t.target ∧
      request.issue.valueForExchange = t.debit := by
  have hcommits : ((Process.installed (Realm.empty : Realm (List Token))).run
      pressedTenEuros).Transfers (.responded .interned 3 (euroRates)) := by
    unfold Process.Transfers
    decide +kernel
  obtain ⟨w,request,json,t,hc⟩ := hcommits.commitsAt
  exact ⟨_, w, request, json, t, hc, transfer_as_pressed Realm.empty pressedTenEuros
    (by decide +kernel) _ w request json t hc⟩

/-- The bottom view is scrolled from dollars to pounds before the response arrives: the
ten euros confirmed against dollars become pounds. -/
theorem late_scroll_redirects : ¬ ∀ (actions : List Action) (a : Action)
    (w : World (List Token)) (request : Request) (json : Option JSON) (t : Transfer),
    ((Process.installed Realm.empty).run actions).CommitsAt a w request json t →
      request.issue.selectedTopCurrency = some t.source ∧
        request.issue.selectedBottomCurrency = t.target ∧
        request.issue.valueForExchange = t.debit := by
  intro hclaim
  let p := (Process.installed (Realm.empty : Realm (List Token))).run
    (pressedTenEuros ++ [.bottomScrollEnded .interned 2])
  let a := Action.responded .interned 3 (euroRates)
  have hcommits : p.Transfers a := by
    unfold Process.Transfers
    decide +kernel
  obtain ⟨w,request,json,t,hc⟩ := hcommits.commitsAt
  have hpounds : (transfers (p.step a).disk.history).map TransferLedger.Transfer.target =
      [some "GBP".toList] := by decide +kernel
  have hdollars : ∀ r ∈ p.requests, r.performExchange = true →
      r.issue.selectedBottomCurrency = some "USD".toList := by decide +kernel
  have hbottom := (hclaim _ a w request json t hc).2.1
  have hissue := hdollars request (by
    rw [hc.running]
    exact request_mem hc.flight) hc.commits.needed
  rw [hc.paid.transfers, List.map_cons, List.cons.injEq] at hpounds
  rw [hissue, hpounds.1] at hbottom
  revert hbottom
  decide

end CurrencyConverter
