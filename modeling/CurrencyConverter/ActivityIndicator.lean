import CurrencyConverter.BatchReports
import CurrencyConverter.JSONTokens
import CurrencyConverter.ScaledCounter

/-! The network activity indicator over whole runs: the pointer that serves as its counter is
eight times the number of requests in flight, so it is zero when there are none. -/
namespace CurrencyConverter
open JSONTree Token ScaledCounter

variable {Data : Type} {w : World Data}

namespace NetworkActivityIndicatorManager

/-- The manager counts `n` operations and shows whether there are any. -/
structure Counts (m : NetworkActivityIndicatorManager) (n : ℕ) : Prop where
  loadingCount : m.loadingCount = scaled 64 8 n
  visible : m.visible = true ↔ n ≠ 0

variable {m : NetworkActivityIndicatorManager} {n : ℕ}

theorem counts_initial : Counts {} 0 := ⟨rfl, by simp⟩

/-- A pointer to eight-byte elements holds fewer than `2^61` of them apart. -/
theorem Counts.loadingCount_eq_zero_iff (h : m.Counts n) (hn : n < 2^61) :
    m.loadingCount = 0 ↔ n = 0 := by
  rw [h.loadingCount]
  exact scaled_eq_zero_iff (by omega) (by omega)

theorem Counts.started (h : m.Counts n) (hn : n < 2^61) :
    m.networkOperationStarted.Counts (n+1) := by
  refine ⟨?_, ?_⟩
  · calc m.loadingCount+8
        = scaled 64 8 n+BitVec.ofNat 64 8 := by rw [h.loadingCount]; rfl
      _ = scaled 64 8 (n+1) := scaled_succ n
  · -- the first operation shows the indicator, a later one finds it shown
    have hzero := h.loadingCount_eq_zero_iff hn
    have hvisible := h.visible
    simp only [networkOperationStarted, hzero, ne_eq, Nat.succ_ne_zero, not_false_eq_true,
      iff_true]
    split
    · rfl
    · next hne => exact hvisible.mpr hne

theorem Counts.finished (h : m.Counts (n+1)) (hn : n+1 < 2^61) :
    m.networkOperationFinished.Counts n := by
  have hne : m.loadingCount ≠ 0 := by
    rw [ne_eq, h.loadingCount_eq_zero_iff hn]
    exact Nat.succ_ne_zero n
  have hpos : 0 < m.loadingCount := by
    apply Nat.pos_of_ne_zero
    intro h0
    exact hne (BitVec.eq_of_toNat_eq h0)
  have hcount : m.loadingCount-8 = scaled 64 8 n := by
    calc m.loadingCount-8
        = scaled 64 8 (n+1)-BitVec.ofNat 64 8 := by rw [h.loadingCount]; rfl
      _ = scaled 64 8 n := scaled_pred n
  have hzero : scaled 64 8 n = 0 ↔ n = 0 := scaled_eq_zero_iff (by omega) (by omega)
  simp only [networkOperationFinished, hpos, ↓reduceIte, hcount]
  refine ⟨rfl, ?_⟩
  -- the last operation hides the indicator, an earlier one leaves it shown
  simp only [hzero]
  split
  · next h0 => simp [h0]
  · next h0 => exact iff_of_true (h.visible.mpr (Nat.succ_ne_zero n)) h0

end NetworkActivityIndicatorManager

/-- The indicator counts the requests in flight. -/
def Indicated (w : World Data) : Prop := w.indicator.Counts w.requests.length

/-- Fewer requests are in flight than the pointer can count. -/
def WithinCounter (w : World Data) : Prop := w.requests.length < 2^61

instance (w : World Data) : Decidable (WithinCounter w) := inferInstanceAs (Decidable (_ < _))

theorem Indicated.enterAndIssue (hw : Indicated w) (hn : WithinCounter w) (group : ℕ)
    (base : NSString) (needed : Bool) : Indicated (enterAndIssue w group base needed) :=
  hw.started hn

theorem issueBatch_length (group : ℕ) (currencies : List NSString) :
    (issueBatch w group currencies).requests.length = w.requests.length+currencies.length := by
  induction currencies generalizing w with
  | nil => rfl
  | cons base currencies ih =>
    calc (issueBatch (enterAndIssue w group base false) group currencies).requests.length
        = (w.requests.length+1)+currencies.length := ih
      _ = w.requests.length+(base :: currencies).length := by rw [List.length_cons]; omega

/-- The requests of a batch are started one by one, and none of them ends before the batch is
complete. -/
theorem Indicated.issueBatch (hw : Indicated w) (group : ℕ) (currencies : List NSString)
    (hn : w.requests.length+currencies.length < 2^61) :
    Indicated (issueBatch w group currencies) := by
  induction currencies generalizing w with
  | nil => exact hw
  | cons base currencies ih =>
    rw [List.length_cons] at hn
    apply ih (hw.enterAndIssue (show w.requests.length < 2^61 by omega) group base false)
    change (w.requests.length+1)+currencies.length < 2^61
    omega

theorem Indicated.startBatch (hw : Indicated w) (currencies : List NSString)
    (hn : WithinCounter (startBatch w currencies)) : Indicated (startBatch w currencies) := by
  have hlen := issueBatch_length (w := openGroup w) w.groups.next currencies
  have hn' : (openGroup w).requests.length+currencies.length < 2^61 := by
    rw [← hlen]
    exact hn
  have hopen : Indicated (openGroup w) := hw
  exact hopen.issueBatch w.groups.next currencies hn'

theorem Indicated.finished {request : Request} {w' : World Data} (hw : Indicated w)
    (hn : WithinCounter w) (hr : request ∈ w.requests)
    (hindicator : w'.indicator = w.indicator.networkOperationFinished)
    (hrequests : w'.requests = (completed w request).requests) : Indicated w' := by
  have hlen := completed_length hr
  have hcounts : w.indicator.Counts ((completed w request).requests.length+1) := by
    rw [← hlen]
    exact hw
  rw [Indicated, hindicator, hrequests]
  apply hcounts.finished
  rw [← hlen]
  exact hn

section
variable [JSONSerialization Data]

theorem Turn.indicated {a : Action} {w' : World Data} (h : Turn a w w') (hw : Indicated w)
    (hn : WithinCounter w) (hn' : WithinCounter w') : Indicated w' := by
  cases h with
  | pressed _ group top henabled hgroup htop =>
    have hrecord : Indicated (w.record .pressed) := hw
    exact hrecord.enterAndIssue hn group top true
  | ticked => exact hw.startBatch w.timer hn'
  | responded same _ _ task json request hr h =>
    exact hw.finished hn (List.mem_of_find?_eq_some hr) h.counters.1 h.requests
  | failed _ task error request hr =>
    exact hw.finished hn (List.mem_of_find?_eq_some hr) rfl rfl
  | _ => exact hw

theorem Launched.indicated {same : Identity} {d : Disk Data} {w' : World Data}
    (h : Launched same d w') (hn : WithinCounter w') : Indicated w' := by
  cases h with
  | mk first top bottom hfirst htop hbottom =>
    have hinitial : Indicated (shownFirst d first top bottom) :=
      NetworkActivityIndicatorManager.counts_initial
    exact hinitial.startBatch (seededDisk d).realm.sortedKeys hn

theorem preserved_indicated : Process.Preserved (fun _ : Disk Data => True)
    (fun w => WithinCounter w → Indicated w) (fun w _ => WithinCounter w) where
  launched _ hl := ⟨trivial, hl.indicated⟩
  seeded _ := trivial
  turned _ hw hc ht := ⟨trivial, ht.indicated (hw hc) hc⟩
  aborted _ _ _ _ := trivial

/-- While fewer than `2^61` requests are in flight, the counter is eight times their number,
the indicator is visible exactly when there is one, and the end of a request never finds
the counter at zero. -/
theorem indicator_truthful (realm : Realm Data) (actions : List Action)
    (hm : Transition.Meets Process.step (Process.When (fun w _ => WithinCounter w))
      (.installed realm) actions) (w : World Data)
    (hrun : (Process.installed realm).run actions = .running w) (hn : WithinCounter w) :
    w.indicator.loadingCount = BitVec.ofNat 64 (8*w.requests.length) ∧
      (w.indicator.visible = true ↔ w.requests ≠ []) ∧
      ∀ task request, w.request task = some request → w.indicator.loadingCount ≠ 0 := by
  have hend := preserved_indicated.run (p := .installed realm) trivial hm
  rw [hrun] at hend
  have hcounts : w.indicator.Counts w.requests.length := hend.2 hn
  refine ⟨hcounts.loadingCount, ?_, ?_⟩
  · rw [hcounts.visible, ne_eq, List.length_eq_zero_iff]
  · intro task request hr
    have hpos := List.length_pos_of_mem (List.mem_of_find?_eq_some hr)
    rw [ne_eq, hcounts.loadingCount_eq_zero_iff hn]
    omega

end

/-- Two batches overlap, one request fails, and one is answered. -/
def overlappingBatches : List Action :=
  [.launch .interned, .timerFired, .failed 1 ⟨"NSURLErrorDomain".toList, -1001,
    "The request timed out.".toList⟩, .responded .interned 3 euroRates]

theorem indicator_truthful_overlappingBatches : ∃ w,
    (Process.installed (Realm.empty : Realm (List Token))).run overlappingBatches = .running w ∧
    w.indicator.loadingCount = BitVec.ofNat 64 (8*w.requests.length) ∧
      (w.indicator.visible = true ↔ w.requests ≠ []) ∧
      ∀ task request, w.request task = some request → w.indicator.loadingCount ≠ 0 := by
  have hflight : ((Process.installed (Realm.empty : Realm (List Token))).run
      overlappingBatches).world?.map (fun w => w.requests.length) = some 4 := by decide +kernel
  obtain ⟨w,hw,hfour⟩ := Option.map_eq_some_iff.mp hflight
  have hrun := Process.eq_running hw
  have hn : WithinCounter w := by
    rw [WithinCounter, hfour]
    omega
  exact ⟨w, hrun, indicator_truthful Realm.empty overlappingBatches (by decide +kernel) w hrun hn⟩

end CurrencyConverter
