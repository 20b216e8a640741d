import CurrencyConverter.RefreshNoOp

/-! Replies to requests in flight, delivered in any order. What the user can see afterwards
is a state of its own, on which the replies for different currencies commute; the app
refines it for as long as no reply finds its group empty. -/
namespace CurrencyConverter
open JSONTree Token

variable {Data : Type} {w : World Data}

/-- Requests in flight have different task identifiers, given out before the next one. -/
structure Tasked (w : World Data) : Prop where
  distinct : (w.requests.map Request.taskIdentifier).Nodup
  issued : ∀ r ∈ w.requests, r.taskIdentifier < w.issued

theorem Tasked.congr {w' : World Data} (hw : Tasked w) (hrequests : w'.requests = w.requests)
    (hissued : w'.issued = w.issued) : Tasked w' := by
  refine ⟨?_, ?_⟩
  · rw [hrequests]
    exact hw.distinct
  · rw [hrequests, hissued]
    exact hw.issued

theorem Tasked.enterAndIssue (hw : Tasked w) (group : ℕ) (base : NSString) (needed : Bool) :
    Tasked (enterAndIssue w group base needed) := by
  refine ⟨?_, ?_⟩
  · apply List.nodup_cons.mpr
    refine ⟨?_, hw.distinct⟩
    -- the new identifier is above all those in flight
    intro hmem
    obtain ⟨r,hr,htask⟩ := List.mem_map.mp hmem
    exact absurd htask (hw.issued r hr).ne
  · intro r hr
    rcases List.mem_cons.mp hr with rfl | hr
    · exact Nat.lt_succ_self _
    · exact Nat.lt_succ_of_lt (hw.issued r hr)

theorem Tasked.issueBatch (hw : Tasked w) (group : ℕ) (currencies : List NSString) :
    Tasked (issueBatch w group currencies) := by
  induction currencies generalizing w with
  | nil => exact hw
  | cons base currencies ih => exact ih (hw.enterAndIssue group base false)

theorem Tasked.startBatch (hw : Tasked w) (currencies : List NSString) :
    Tasked (startBatch w currencies) := by
  have hopen : Tasked (openGroup w) := hw.congr rfl rfl
  exact (hopen.issueBatch w.groups.next currencies).congr rfl rfl

theorem Tasked.completed (hw : Tasked w) (request : Request) : Tasked (completed w request) := by
  have hsub : (w.requests.erase request).Sublist w.requests := List.erase_sublist
  refine ⟨?_, ?_⟩
  · exact (hsub.map Request.taskIdentifier).nodup hw.distinct
  · intro r hr
    exact hw.issued r (hsub.subset hr)

/-- A request in flight is found by its task. -/
theorem Tasked.request_eq (hw : Tasked w) {request : Request} (hr : request ∈ w.requests) :
    w.request request.taskIdentifier = some request :=
  KeyedRows.find_of_mem Request.taskIdentifier hw.distinct hr

section
variable [JSONSerialization Data]

theorem Turn.tasked {a : Action} {w' : World Data} (h : Turn a w w') (hw : Tasked w) :
    Tasked w' := by
  cases h with
  | pressed _ group top henabled hgroup htop =>
    have hrecord : Tasked (w.record .pressed) := hw.congr rfl rfl
    exact hrecord.enterAndIssue group top true
  | ticked => exact hw.startBatch w.timer
  | responded same _ _ task json request hr h =>
    exact (hw.completed request).congr h.requests h.counters.2
  | failed _ task error request hr => exact (hw.completed request).congr rfl rfl
  | _ => exact hw.congr rfl rfl

theorem Launched.tasked {same : Identity} {d : Disk Data} {w' : World Data}
    (h : Launched same d w') : Tasked w' := by
  cases h with
  | mk first top bottom hfirst htop hbottom =>
    have hnone : Tasked (shownFirst d first top bottom) :=
      ⟨List.nodup_nil, fun r hr => absurd hr List.not_mem_nil⟩
    exact (hnone.startBatch _).congr rfl rfl

theorem preserved_tasked : Process.Preserved (fun _ : Disk Data => True) Tasked
    (fun _ _ => True) where
  launched _ hl := ⟨trivial, hl.tasked⟩
  seeded _ := trivial
  turned _ hw _ ht := ⟨trivial, ht.tasked hw⟩
  aborted _ _ _ _ := trivial

theorem tasked_of_run {actions : List Action}
    (h : (Process.installed (Realm.empty : Realm Data)).run actions = .running w) :
    Tasked w := by
  have hend := preserved_tasked.run_always (p := .installed (Realm.empty : Realm Data)) trivial
    actions
  rw [h] at hend
  exact hend.2

end

/-- What came of a request: a response for the success block, or an error for the failure
block. -/
inductive Reply where
  | success (json : Option JSON)
  | failure (error : NSError)

structure Delivery where
  request : Request
  reply : Reply

namespace Delivery

def succeeds (d : Delivery) : Bool :=
  match d.reply with
  | .success _ => true
  | .failure _ => false

/-- A documented response whose rates can be read at every code. -/
def WellFormed (d : Delivery) : Prop := ∀ json, d.reply = .success json →
  ∃ base rates, HasContent json base rates ∧
    ∀ code ∈ Currency.allCurrencies, readable (rates.lookup code) = true

/-- The turn of the main queue that delivers the reply, however its pointers compare. -/
inductive Answers : Delivery → Action → Prop
  | success (request : Request) (json : Option JSON) (same : Identity) :
      Answers ⟨request, .success json⟩ (.responded same request.taskIdentifier json)
  | failure (request : Request) (error : NSError) :
      Answers ⟨request, .failure error⟩ (.failed request.taskIdentifier error)

/-- The turns deliver all the replies, in some order. -/
def Ordered (deliveries : List Delivery) (actions : List Action) : Prop :=
  ∃ order, order.Perm deliveries ∧ List.Forall₂ Answers order actions

/-- The turn that delivers the reply when equal strings are one object. -/
def turn (d : Delivery) : Action :=
  match d.reply with
  | .success json => .responded .interned d.request.taskIdentifier json
  | .failure error => .failed d.request.taskIdentifier error

theorem answers_turns (deliveries : List Delivery) :
    List.Forall₂ Answers deliveries (deliveries.map turn) := by
  rw [List.forall₂_map_right_iff, List.forall₂_same]
  rintro ⟨request,reply⟩ -
  cases reply with
  | success json => exact .success request json .interned
  | failure error => exact .failure request error

theorem ordered_turns {deliveries order : List Delivery} (h : order.Perm deliveries) :
    Ordered deliveries (order.map turn) := ⟨order, h, answers_turns order⟩

end Delivery

/-- The balances, the rate lists, the entered amount and the indicator. -/
@[ext] structure Observed (Data : Type) where
  amount : NSString → ℚ
  rateList : NSString → Option (RateList Data)
  valueForExchange : ℚ
  indicator : NetworkActivityIndicatorManager

def World.observed (w : World Data) : Observed Data where
  amount := w.realm.amount
  rateList := w.realm.rateList
  valueForExchange := w.dataManager.valueForExchange
  indicator := w.indicator

namespace Observed

/-- The exchange of an entered amount: one transfer at this rate, or a refusal. -/
def exchangedAmount (o : Observed Data) (source : NSString) (bottom : Option NSString)
    (rate : ℚ) : NSString → ℚ :=
  let t : Transfer := ⟨source, o.valueForExchange, bottom, o.valueForExchange * rate⟩
  if o.valueForExchange ≤ o.amount source ∧ o.valueForExchange ≠ 0 then
    fun i => t.post i (o.amount i)
  else o.amount

/-- An exchange looks at the balances and the entered amount only. -/
theorem exchangedAmount_congr {o o' : Observed Data} (hamount : o.amount = o'.amount)
    (hvalue : o.valueForExchange = o'.valueForExchange) (source : NSString)
    (bottom : Option NSString) (rate : ℚ) :
    o.exchangedAmount source bottom rate = o'.exchangedAmount source bottom rate := by
  rw [exchangedAmount, exchangedAmount, hamount, hvalue]

variable [JSONSerialization Data]

/-- The write of a response's list, if the store takes it. -/
def written (currency : NSString) (json : Option JSON) : List (NSString × RateList Data) :=
  (receivedList json).toList.map (fun rateList => (currency, rateList))

/-- What a reply does, told without the app: its list is written, an exchange is made at its
own rate, and one operation of the network ends. -/
def after (bottom : Option NSString) (o : Observed Data) (d : Delivery) : Observed Data :=
  match d.reply with
  | .failure _ => { o with indicator := o.indicator.networkOperationFinished }
  | .success json =>
    let rate := (responseRate json bottom).toOption.getD 0
    { amount := if d.request.performExchange then o.exchangedAmount d.request.currency bottom rate
        else o.amount
      rateList := KeyedWrites.writes o.rateList (written d.request.currency json)
      valueForExchange := if d.request.performExchange then 0 else o.valueForExchange
      indicator := o.indicator.networkOperationFinished }

theorem writes_written_comm (cells : NSString → Option (RateList Data)) {first second : NSString}
    (h : first ≠ second) (json json' : Option JSON) :
    KeyedWrites.writes (KeyedWrites.writes cells (written first json)) (written second json') =
      KeyedWrites.writes (KeyedWrites.writes cells (written second json'))
        (written first json) := by
  apply KeyedWrites.writes_comm
  intro x hx y hy
  obtain ⟨_,-,rfl⟩ := List.mem_map.mp hx
  obtain ⟨_,-,rfl⟩ := List.mem_map.mp hy
  exact h

/-- Replies for different currencies commute when at most one of them exchanges. -/
theorem after_comm (bottom : Option NSString) (o : Observed Data) {d e : Delivery}
    (hcurrency : d.request.currency ≠ e.request.currency)
    (hexchange : d.request.performExchange = false ∨ e.request.performExchange = false) :
    (o.after bottom d).after bottom e = (o.after bottom e).after bottom d := by
  unfold after
  cases d.reply with
  | failure _ =>
    cases e.reply with
    | failure _ => rfl
    | success _ => rfl
  | success json =>
    cases e.reply with
    | failure _ => rfl
    | success json' =>
      apply Observed.ext
      -- the one that exchanges nothing changes neither the balances nor the amount
      · rcases hexchange with hn | hn
        · simp [exchangedAmount, hn]
        · simp [exchangedAmount, hn]
      · exact writes_written_comm o.rateList hcurrency json json'
      · rcases hexchange with hn | hn
        · simp [hn]
        · simp [hn]
      · rfl

end Observed

end CurrencyConverter
