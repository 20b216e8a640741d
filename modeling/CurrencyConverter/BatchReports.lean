import CurrencyConverter.GroupRuns

/-! One batch from its start to the end of its last request: it is reported exactly once,
and only if no request of it fails. -/
namespace CurrencyConverter
open JSONTree Token WaitGroup

variable {Data : Type} {w : World Data}

/-- The one block of group `g` has fired, beyond the `base` reports before, or still waits. -/
def ReportedOnce (groups : Table) (history : List Event) (g base : ℕ) : Prop :=
  ((groups.group g).count = 0 ∧ (groups.group g).blocks = 0 ∧ reports history g = base+1) ∨
    ((groups.group g).count ≠ 0 ∧ (groups.group g).blocks = 1 ∧ reports history g = base)

/-- The batch of group `g` after `leaked` failures: its count is what is in flight plus what
failed. -/
structure Reporting (g base leaked : ℕ) (w : World Data) : Prop where
  current : w.group = some g
  count : (w.groups.group g).count = w.requests.length+leaked
  report : ReportedOnce w.groups w.history g base

theorem Reporting.congr {g base leaked : ℕ} {w' : World Data} (hw : Reporting g base leaked w)
    (hgroup : w'.group = w.group) (hgroups : w'.groups = w.groups)
    (hrequests : w'.requests.length = w.requests.length)
    (hreports : reports w'.history g = reports w.history g) : Reporting g base leaked w' := by
  refine ⟨hgroup.trans hw.current, ?_, ?_⟩
  · rw [hgroups, hrequests]
    exact hw.count
  · rw [ReportedOnce, hgroups, hreports]
    exact hw.report

/-- Issuing the requests of a batch, one entry and one request each. -/
theorem issueBatch_count (g : ℕ) (currencies : List NSString)
    (hcount : (w.groups.group g).count = w.requests.length)
    (hblocks : (w.groups.group g).blocks = 0) :
    ((issueBatch w g currencies).groups.group g).count =
        (issueBatch w g currencies).requests.length ∧
      ((issueBatch w g currencies).groups.group g).blocks = 0 := by
  induction currencies generalizing w with
  | nil => exact ⟨hcount, hblocks⟩
  | cons base currencies ih =>
    apply ih (w := enterAndIssue w g base false)
    · simp [enterAndIssue, RateListService.issueRequest, Table.enter, hcount]
    · simp [enterAndIssue, RateListService.issueRequest, Table.enter, hblocks]

theorem reporting_startBatch (hidle : w.requests = []) (currencies : List NSString) :
    Reporting w.groups.next (reports w.history w.groups.next) 0 (startBatch w currencies) := by
  let g := w.groups.next
  let issued := issueBatch (openGroup w) g currencies
  obtain ⟨hcount,hblocks⟩ := issueBatch_count (w := openGroup w) g currencies
    (by simp [openGroup, Table.create, g, hidle]) (by simp [openGroup, Table.create, g])
  have hhistory : issued.history = w.history :=
    issueBatch_frame (fun w => w.history) (fun _ _ _ => rfl) g currencies
  have hreports : reports (startBatch w currencies).history g =
      (issued.groups.notify g).1+reports w.history g := by
    calc reports (startBatch w currencies).history g
        = (if g = g then (issued.groups.notify g).1 else 0)+reports issued.history g :=
          reports_replicate _ g g issued.history
      _ = (issued.groups.notify g).1+reports w.history g := by rw [if_pos rfl, hhistory]
  have hnotified : ((startBatch w currencies).groups.group g).count =
      (issued.groups.group g).count := issued.groups.notify_count g g
  refine ⟨issueBatch_group (w := openGroup w) g currencies, hnotified.trans hcount, ?_⟩
  rw [ReportedOnce, hnotified, hreports]
  rcases issued.groups.notify_blocks g with ⟨hzero,hfired,hb⟩ | ⟨hpos,hfired,hb⟩
  · exact Or.inl ⟨hzero, hb.trans hblocks, by rw [hfired, Nat.add_comm]⟩
  · exact Or.inr ⟨hpos, hb.trans (congrArg Nat.succ hblocks), by rw [hfired, Nat.zero_add]⟩

/-- Actions that put no request in flight. -/
def StartsNothing : Action → Prop
  | .launch _ => False
  | .exchangePressed => False
  | .timerFired => False
  | _ => True

/-- No request in flight ends in its failure block. -/
def Unfailed (w : World Data) : Action → Prop
  | .failed task _ => w.request task = none
  | _ => True

theorem completed_length {r : Request} (hr : r ∈ w.requests) :
    w.requests.length = (completed w r).requests.length+1 := by
  have hlen := List.length_erase_of_mem hr
  have hpos := List.length_pos_of_mem hr
  simp only [completed]
  omega

theorem Reporting.leftOnce {g base leaked : ℕ} {r : Request} {w' : World Data}
    (hw : Reporting g base leaked w) (hr : r ∈ w.requests)
    (hrequests : w'.requests = (completed w r).requests)
    (h : LeftOnce r (completed w r) w') : Reporting g base leaked w' := by
  obtain rfl : h.group = g := Option.mem_unique h.current hw.current
  have hleave : w.groups.leave h.group = some (h.fired, w'.groups) := h.leave
  have hcount := Table.leave_count hleave
  have hlen := completed_length hr
  have hreports : reports w'.history h.group = h.fired+reports w.history h.group := by
    have hleft : reports (.left r h.group :: groupEvents (completed w r).history) h.group =
        reports (groupEvents w.history) h.group := reports_cons_other _ _ (by simp)
    calc reports w'.history h.group
        = reports (groupEvents w'.history) h.group := (reports_groupEvents _ _).symm
      _ = h.fired+reports (.left r h.group :: groupEvents (completed w r).history) h.group := by
        rw [h.events, reports_replicate, if_pos rfl]
      _ = h.fired+reports w.history h.group := by rw [hleft, reports_groupEvents]
  have hold := hw.count
  refine ⟨h.kept.trans hw.current, ?_, ?_⟩
  · rw [hrequests]
    omega
  · -- the block waited while the request was inside, and fires if it was the last one
    rcases hw.report with ⟨hzero,-,-⟩ | ⟨-,hblocks,hbase⟩
    · omega
    · rw [ReportedOnce, hreports, hbase]
      rcases Table.leave_blocks hleave with ⟨hz,hfired,hb⟩ | ⟨hz,hfired,hb⟩
      · exact Or.inl ⟨hz, hb, by rw [hfired, hblocks, Nat.add_comm]⟩
      · exact Or.inr ⟨hz, hb.trans hblocks, by rw [hfired, Nat.zero_add]⟩

section
variable [JSONSerialization Data]

/-- One turn of the batch: a failure leaks one member, anything else leaks none. -/
theorem Turn.reporting {a : Action} {w' : World Data} (h : Turn a w w') (ha : StartsNothing a)
    {g base leaked : ℕ} (hw : Reporting g base leaked w) :
    ∃ leaked', Reporting g base leaked' w' ∧
      (leaked' = leaked ∧ Unfailed w a ∨ leaked' = leaked+1 ∧ ¬Unfailed w a) := by
  cases h with
  | pressed => exact ha.elim
  | ticked => exact ha.elim
  | responded same _ _ task json request hr h =>
    obtain ⟨hleft⟩ := h.leftOnce
    have hmem := List.mem_of_find?_eq_some hr
    exact ⟨leaked, hw.leftOnce hmem h.requests hleft, Or.inl ⟨rfl, trivial⟩⟩
  | failed _ task error request hr =>
    -- one request less in flight, and the count as it was
    have hlen := completed_length (List.mem_of_find?_eq_some hr)
    refine ⟨leaked+1, ⟨hw.current, ?_, ?_⟩, Or.inr ⟨rfl, ?_⟩⟩
    · have hcount := hw.count
      change (w.groups.group g).count = (completed w request).requests.length+(leaked+1)
      omega
    · have hother : reports (.alerted error :: w.history) g = reports w.history g :=
        List.count_cons_of_ne (by simp)
      change ReportedOnce w.groups (.alerted error :: w.history) g base
      rw [ReportedOnce, hother]
      exact hw.report
    · intro hnone
      exact absurd (hr.symm.trans hnone) (by simp)
  | idle _ _ h =>
    refine ⟨leaked, hw, Or.inl ⟨rfl, ?_⟩⟩
    cases a with
    | failed task error => exact h
    | _ => trivial
  | edited same _ text bottom =>
    have hother : reports (.edited (ExchangeCell.enteredValue text) :: w.history) g =
      reports w.history g := reports_cons_other w.history g (by simp)
    exact ⟨leaked, hw.congr rfl rfl rfl hother, Or.inl ⟨rfl, trivial⟩⟩
  | _ => exact ⟨leaked, hw.congr rfl rfl rfl rfl, Or.inl ⟨rfl, trivial⟩⟩

theorem Process.run_terminated (d : Disk Data) (reason : Option Abort) {actions : List Action}
    (ha : ∀ a ∈ actions, StartsNothing a) :
    (terminated d reason).run actions = terminated d reason := by
  induction actions with
  | nil => rfl
  | cons a actions ih =>
    have hstep : (terminated d reason).step a = terminated d reason := by
      cases a with
      | launch same => exact (ha _ List.mem_cons_self).elim
      | _ => rfl
    rw [run, Transition.run_cons, hstep]
    exact ih (fun b hb => ha b (List.mem_cons_of_mem a hb))

/-- A whole run of the batch: nothing is leaked exactly when no request fails. -/
theorem Process.run_reporting {actions : List Action} (ha : ∀ a ∈ actions, StartsNothing a)
    {g base leaked : ℕ} {w w' : World Data} (hw : Reporting g base leaked w)
    (hrun : (running w).run actions = running w') :
    ∃ leaked', Reporting g base leaked' w' ∧ leaked ≤ leaked' ∧
      (leaked' = leaked ↔ Transition.Meets Process.step (When Unfailed) (running w) actions) := by
  induction actions generalizing w leaked with
  | nil =>
    obtain rfl : w = w' := Process.running.inj hrun
    exact ⟨leaked, hw, le_refl _, iff_of_true rfl trivial⟩
  | cons a actions ih =>
    have hhead := ha a List.mem_cons_self
    have htail : ∀ b ∈ actions, StartsNothing b := fun b hb => ha b (List.mem_cons_of_mem a hb)
    have hs := (running w).step_cases a
    rw [run, Transition.run_cons] at hrun
    simp only [Transition.Meets]
    generalize (running w).step a = q at hs hrun ⊢
    cases hs with
    | launched _ same => exact hhead.elim
    | launchAborted _ same => exact hhead.elim
    -- a process that has aborted stays so, without a launch to start it again
    | aborted _ _ e d _ h =>
      have hdead := run_terminated d (some e) htail
      exact absurd (hdead.symm.trans hrun) (by simp)
    | turned _ v _ _ h =>
      obtain ⟨between,hv,hcase⟩ := h.reporting hhead hw
      obtain ⟨leaked',hw',hle,hiff⟩ := ih htail hv hrun
      refine ⟨leaked', hw', ?_, ?_⟩
      · rcases hcase with ⟨hb,-⟩ | ⟨hb,-⟩ <;> omega
      · -- the first action fails a request, or the rest of the run decides
        rcases hcase with ⟨rfl,hunfailed⟩ | ⟨hb,hfailed⟩
        · rw [hiff]
          exact ⟨fun h => ⟨hunfailed, h⟩, fun h => h.2⟩
        · refine iff_of_false (by omega) ?_
          intro h
          exact hfailed h.1

/-- A batch whose requests have all ended has an empty group and exactly one report if and
only if none of them failed. The list of the repeating timer is set after the first batch
has been started, and plays no part. -/
theorem batch_reported_iff (w : World Data) (hidle : w.requests = [])
    (currencies timer : List NSString) (actions : List Action)
    (ha : ∀ a ∈ actions, StartsNothing a) (w' : World Data)
    (hrun : (Process.running { startBatch w currencies with timer }).run actions = .running w')
    (hdone : w'.requests = []) :
    ((w'.groups.group w.groups.next).count = 0 ∧
      reports w'.history w.groups.next = reports w.history w.groups.next+1) ↔
    Transition.Meets Process.step (Process.When Unfailed)
      (.running { startBatch w currencies with timer }) actions := by
  have hstart : Reporting w.groups.next (reports w.history w.groups.next) 0
      { startBatch w currencies with timer } :=
    (reporting_startBatch hidle currencies).congr rfl rfl rfl rfl
  obtain ⟨leaked,hw',-,hiff⟩ := Process.run_reporting ha hstart hrun
  have hcount := hw'.count
  rw [hdone, List.length_nil, Nat.zero_add] at hcount
  rw [← hiff, hcount]
  refine ⟨fun h => h.1, fun hzero => ⟨hzero, ?_⟩⟩
  rcases hw'.report with ⟨-,-,hreports⟩ | ⟨hpos,-,-⟩
  · exact hreports
  · exact absurd (hcount.trans hzero) hpos

end

/-- The first view of the first launch, before its batch is started. -/
def firstView : World (List Token) :=
  let cell : ExchangeCell := {
    currencyLabel := "EUR".toList
    balanceLabel := "You have € 100.00".toList }
  shownFirst ⟨Realm.empty, [], 0⟩ "EUR".toList cell cell

def firstBatch : Process (List Token) :=
  .running { startBatch firstView Currency.allCurrencies with timer := Currency.allCurrencies }

def answeredBatch : List Action :=
  [.responded .interned 2 euroRates, .responded .interned 0 euroRates,
    .topScrollEnded .interned 1, .responded .interned 1 euroRates]

theorem batch_reported_iff_answeredBatch : ∃ w', firstBatch.run answeredBatch = .running w' ∧
    (((w'.groups.group firstView.groups.next).count = 0 ∧ reports w'.history
        firstView.groups.next = reports firstView.history firstView.groups.next+1) ↔
      Transition.Meets Process.step (Process.When Unfailed) firstBatch answeredBatch) := by
  have halive : (firstBatch.run answeredBatch).world?.isSome = true := by decide +kernel
  have hrequests : (firstBatch.run answeredBatch).requests = [] := by decide +kernel
  obtain ⟨w',hrun⟩ := Process.exists_running halive
  rw [hrun] at hrequests
  refine ⟨w', hrun, ?_⟩
  exact batch_reported_iff firstView rfl Currency.allCurrencies Currency.allCurrencies
    answeredBatch (by simp [answeredBatch, StartsNothing]) w' hrun hrequests

/-- One request of the batch fails and the two others are answered: the group keeps a count
of one and the batch is never reported. -/
theorem failed_batch_unreported : ¬ ∀ (w : World (List Token)) (currencies timer : List NSString)
    (actions : List Action) (w' : World (List Token)), w.requests = [] →
    (∀ a ∈ actions, StartsNothing a) →
    (Process.running { startBatch w currencies with timer }).run actions = .running w' →
    w'.requests = [] →
    (w'.groups.group w.groups.next).count = 0 ∧
      reports w'.history w.groups.next = reports w.history w.groups.next+1 := by
  intro hclaim
  let timeout : NSError := ⟨"NSURLErrorDomain".toList, -1001, "The request timed out.".toList⟩
  let actions : List Action := [.failed 0 timeout, .responded .interned 1 euroRates,
    .responded .interned 2 euroRates]
  have halive : (firstBatch.run actions).world?.isSome = true := by decide +kernel
  have hrequests : (firstBatch.run actions).requests = [] := by decide +kernel
  have hsilent : reports (firstBatch.run actions).disk.history 0 = 0 := by decide +kernel
  obtain ⟨w',hrun⟩ := Process.exists_running halive
  rw [hrun] at hrequests hsilent
  have hreported := hclaim firstView Currency.allCurrencies Currency.allCurrencies actions w'
    rfl (by simp [actions, StartsNothing]) hrun hrequests
  exact absurd (hsilent.symm.trans hreported.2) (by decide)

end CurrencyConverter
