import CurrencyConverter.RateListSteps

/-! An exchange that ends without a transfer: what is left of it for the user to try again. -/
namespace CurrencyConverter
open JSONTree Token

variable {Data : Type} {w : World Data}

/-- The action ends the request of this task, in its failure block or in its success block. -/
inductive Completion (task : ℕ) : Action → Prop
  | failed (error : NSError) : Completion task (.failed task error)
  | responded (same : Identity) (json : Option JSON) :
      Completion task (.responded same task json)

/-- The network has failed. -/
def FailureBlock : Action → Prop
  | .failed _ _ => True
  | _ => False

/-- The pending exchange is as it was: balances, selections and amount, and the lists of all
currencies but one. -/
structure Intact (source : NSString) (w w' : World Data) : Prop where
  amount : ∀ i, w'.realm.amount i = w.realm.amount i
  top : w'.dataManager.selectedTopCurrency = w.dataManager.selectedTopCurrency
  bottom : w'.dataManager.selectedBottomCurrency = w.dataManager.selectedBottomCurrency
  value : w'.dataManager.valueForExchange = w.dataManager.valueForExchange
  lists : ∀ i ≠ source, w'.realm.rateList i = w.realm.rateList i

/-- The failure block touches nothing of the exchange. -/
theorem intact_failed (request : Request) (error : NSError) : Intact request.currency w
    ((finishOperation (completed w request)).record (.alerted error)) :=
  ⟨fun _ => rfl, rfl, rfl, rfl, fun _ _ => rfl⟩

/-- Taking the request out of flight is no part of the exchange. -/
theorem intact_completed_iff {source : NSString} {request : Request} {w' : World Data} :
    Intact source (completed w request) w' ↔ Intact source w w' := by
  constructor
  · rintro ⟨hamount,htop,hbottom,hvalue,hlists⟩
    exact ⟨hamount, htop, hbottom, hvalue, hlists⟩
  · rintro ⟨hamount,htop,hbottom,hvalue,hlists⟩
    exact ⟨hamount, htop, hbottom, hvalue, hlists⟩

section
variable [JSONSerialization Data]

/-- Refused by the storage service, an exchange keeps everything but the amount. -/
theorem Succeeded.intact_iff {same : Bool} {request : Request} {json : Option JSON}
    {w' : World Data} (h : Succeeded same request json w w')
    (hn : request.performExchange = true)
    (hnone : transfers w'.history = transfers w.history) :
    Intact request.currency w w' ↔ w.dataManager.valueForExchange = 0 := by
  obtain ⟨-,htop,hbottom⟩ := h.selections
  have hreset := h.value
  rw [hn, if_pos rfl] at hreset
  constructor
  · intro hintact
    -- the reset comes after a refusal too
    rw [← hintact.value, hreset]
  · intro hzero
    refine ⟨?_, htop, hbottom, hreset.trans hzero.symm, fun i hi => h.rateList_of_ne hi⟩
    · intro i
      cases h.answered with
      | still hstill => exact hstill.amount i
      | paid t hc hpaid =>
        have hlonger : transfers w'.history = t :: transfers w.history := hpaid.transfers
        rw [hnone] at hlonger
        exact absurd hlonger (by simp)

/-- An exchange that ends without a transfer leaves the pending exchange intact if and only if
the network has failed or no amount was entered. -/
theorem failed_exchange_intact_iff (w : World Data) {task : ℕ} {request : Request}
    (hr : w.request task = some request) (hn : request.performExchange = true) {a : Action}
    (ha : Completion task a) {w' : World Data}
    (hstep : (Process.running w).step a = .running w')
    (hnone : transfers w'.history = transfers w.history) :
    Intact request.currency w w' ↔ FailureBlock a ∨ w.dataManager.valueForExchange = 0 := by
  cases ha with
  | failed error =>
    rw [Process.step_failed hr] at hstep
    obtain rfl := Process.running.inj hstep
    exact iff_of_true (intact_failed request error) (Or.inl trivial)
  | responded same json =>
    have hblock : FailureBlock (.responded same task json) ↔ False := Iff.rfl
    rw [hblock, false_or]
    rcases Process.step_responded hr same json with ⟨v,hv,⟨h⟩⟩ | ⟨e,v,hv,h⟩
    · obtain rfl : v = w' := Process.running.inj (hv.symm.trans hstep)
      rw [← intact_completed_iff]
      exact h.intact_iff hn hnone
    · exact absurd (hv.symm.trans hstep) (by simp)

end

/-- More than the balance is entered and confirmed. -/
def pressedFiveHundred : List Action :=
  [.launch .interned, .bottomScrollEnded .interned 1, .textEdited .interned (some "500".toList),
    .exchangePressed]

theorem pressedFiveHundred_flight : ∃ w request,
    (Process.installed (Realm.empty : Realm (List Token))).run pressedFiveHundred = .running w ∧
    w.request 3 = some request ∧ request.performExchange = true ∧
    w.dataManager.valueForExchange = 500 ∧ transfers w.history = [] := by
  let p := (Process.installed (Realm.empty : Realm (List Token))).run pressedFiveHundred
  have hflight : p.world?.map (fun w => ((w.request 3).map Request.performExchange,
      w.dataManager.valueForExchange, transfers w.history)) = some (some true, 500, []) := by
    decide +kernel
  obtain ⟨w,hw,hall⟩ := Option.map_eq_some_iff.mp hflight
  simp only [Prod.mk.injEq] at hall
  obtain ⟨hrequest,hvalue,htransfers⟩ := hall
  obtain ⟨request,hr,hn⟩ := Option.map_eq_some_iff.mp hrequest
  exact ⟨w, request, Process.eq_running hw, hr, hn, hvalue, htransfers⟩

def timedOut : NSError := ⟨"NSURLErrorDomain".toList, -1001, "The request timed out.".toList⟩

/-- The network fails, and the five hundred can be confirmed again. -/
theorem failed_exchange_intact_iff_timedOut : ∃ (w w' : World (List Token)) (request : Request),
    w.request 3 = some request ∧
    (Process.running w).step (.failed 3 timedOut) = .running w' ∧
    Intact request.currency w w' := by
  obtain ⟨w,request,-,hr,hn,-,-⟩ := pressedFiveHundred_flight
  have hstep := Process.step_failed hr timedOut
  refine ⟨w, _, request, hr, hstep, ?_⟩
  exact (failed_exchange_intact_iff w hr hn (.failed timedOut) hstep rfl).mpr (Or.inl trivial)

/-- The exchange is refused for want of money, and the entered amount is gone. -/
theorem refused_exchange_reset : ¬ ∀ (actions : List Action) (w : World (List Token)),
    (Process.installed Realm.empty).run actions = .running w →
    ∀ task request, w.request task = some request → request.performExchange = true →
    ∀ a, Completion task a → ∀ w', (Process.running w).step a = .running w' →
    transfers w'.history = transfers w.history → Intact request.currency w w' := by
  intro hclaim
  obtain ⟨w,request,hrun,hr,hn,hvalue,hnone⟩ := pressedFiveHundred_flight
  let a : Action := .responded .interned 3 euroRates
  let p := (Process.installed (Realm.empty : Realm (List Token))).run pressedFiveHundred
  have hreset : (p.step a).world?.map (fun w => (w.dataManager.valueForExchange,
      transfers w.history)) = some (0, []) := by decide +kernel
  have hp : p = .running w := hrun
  rw [hp] at hreset
  obtain ⟨w',hw',hpair⟩ := Option.map_eq_some_iff.mp hreset
  obtain ⟨hzero,hstill⟩ := Prod.mk.inj hpair
  have hintact := hclaim pressedFiveHundred w hrun 3 request hr hn a (.responded _ _) w'
    (Process.eq_running hw') (hstill.trans hnone.symm)
  have hkept := hintact.value
  rw [hzero, hvalue] at hkept
  exact absurd hkept (by decide)

end CurrencyConverter
