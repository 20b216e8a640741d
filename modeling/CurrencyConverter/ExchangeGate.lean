import CurrencyConverter.TransferSteps
import CurrencyConverter.JSONTokens

/-! The Exchange button as a gate. It is recomputed at the end of a scroll only, from the
identity of two strings, while launches, scrolls and notifications change what is selected
and what is there to select. -/
namespace CurrencyConverter
open JSONTree Token

variable {Data : Type} {w : World Data}

/-- A currency is selected in both views. -/
def BothSelected (w : World Data) : Prop :=
  ∃ top bottom, w.dataManager.selectedTopCurrency = some top ∧
    w.dataManager.selectedBottomCurrency = some bottom

/-- The codes selected in the two views differ as character sequences. -/
def SelectionsDiffer (w : World Data) : Prop :=
  ∃ top bottom, w.dataManager.selectedTopCurrency = some top ∧
    w.dataManager.selectedBottomCurrency = some bottom ∧ top ≠ bottom

/-- The turns that end a scroll. -/
def Scrolls (w : World Data) : Action → Prop
  | .topScrollEnded _ item => item < w.dataManager.currencies.length
  | .bottomScrollEnded _ item => item < w.dataManager.currencies.length
  | _ => False

/-- A scroll that selects the currency selected in the other view reads its code twice: the
two reads have to answer one object. -/
def ReadsOneObject (w : World Data) : Action → Prop
  | .topScrollEnded same item => item < w.dataManager.currencies.length →
    w.dataManager.currencies[min item (numberOfPages-1)]? = w.dataManager.selectedBottomCurrency →
    same.selection = true
  | .bottomScrollEnded same item => item < w.dataManager.currencies.length →
    w.dataManager.currencies[min item (numberOfPages-1)]? = w.dataManager.selectedTopCurrency →
    same.selection = true
  | _ => True

instance : ∀ (w : World Data) (a : Action), Decidable (ReadsOneObject w a)
  | w, .topScrollEnded same item => inferInstanceAs (Decidable
      (item < w.dataManager.currencies.length →
        w.dataManager.currencies[min item (numberOfPages-1)]? =
          w.dataManager.selectedBottomCurrency → same.selection = true))
  | w, .bottomScrollEnded same item => inferInstanceAs (Decidable
      (item < w.dataManager.currencies.length →
        w.dataManager.currencies[min item (numberOfPages-1)]? =
          w.dataManager.selectedTopCurrency → same.selection = true))
  | _, .launch _ | _, .textEdited _ _ | _, .exchangePressed | _, .timerFired
  | _, .responded _ _ _ | _, .failed _ _ | _, .notified _ _ => isTrue trivial

/-- The button opens for different codes only. -/
structure Gate (w : World Data) : Prop where
  selected : BothSelected w
  closed : w.screen.exchangeEnabled = true → SelectionsDiffer w

/-- The gate depends on the selections and the button. -/
theorem Gate.congr {w' : World Data} (hw : Gate w)
    (htop : w'.dataManager.selectedTopCurrency = w.dataManager.selectedTopCurrency)
    (hbottom : w'.dataManager.selectedBottomCurrency = w.dataManager.selectedBottomCurrency)
    (hscreen : w'.screen.exchangeEnabled = w.screen.exchangeEnabled) : Gate w' := by
  refine ⟨?_, ?_⟩
  · rw [BothSelected, htop, hbottom]
    exact hw.selected
  · rw [SelectionsDiffer, hscreen, htop, hbottom]
    exact hw.closed

/-- The button recomputed for two selected codes: right if and only if equal codes are read
as one object. -/
theorem updated_gate_iff {same : Bool} {top bottom : NSString}
    (htop : w.dataManager.selectedTopCurrency = some top)
    (hbottom : w.dataManager.selectedBottomCurrency = some bottom)
    (henabled : w.screen.exchangeEnabled = !w.dataManager.isCurrenciesEqual same) :
    (w.screen.exchangeEnabled = true ↔ SelectionsDiffer w) ↔ (top = bottom → same = true) := by
  have hequal : w.dataManager.isCurrenciesEqual same = true ↔ top = bottom ∧ same = true := by
    rw [DataManager.isCurrenciesEqual, htop, hbottom, identical_some]
  have hbutton : w.screen.exchangeEnabled = true ↔ ¬(top = bottom ∧ same = true) := by
    rw [henabled, ← hequal, Bool.not_eq_true', Bool.not_eq_true]
  have hdiffer : SelectionsDiffer w ↔ top ≠ bottom := by
    constructor
    · rintro ⟨t,b,ht,hb,hne⟩
      obtain rfl : top = t := Option.mem_unique htop ht
      obtain rfl : bottom = b := Option.mem_unique hbottom hb
      exact hne
    · intro hne
      exact ⟨top, bottom, htop, hbottom, hne⟩
  rw [hbutton, hdiffer]
  by_cases hcodes : top = bottom
  · simp [hcodes]
  · simp [hcodes]

section
variable [JSONSerialization Data]

/-- The condition is exact: a scroll that ends leaves the button right if and only if it
meets the condition. -/
theorem Turn.scrolled_gate_iff {a : Action} {w' : World Data} (h : Turn a w w')
    (hw : BothSelected w) (ha : Scrolls w a) : BothSelected w' ∧
      ((w'.screen.exchangeEnabled = true ↔ SelectionsDiffer w') ↔ ReadsOneObject w a) := by
  obtain ⟨top,bottom,htop,hbottom⟩ := hw
  cases h with
  | scrolledTop same _ item selected cell hitem hselected hcell =>
    have hgate := updated_gate_iff
      (w := CurrencyConverter.scrolledTop same w item selected cell) rfl hbottom rfl
    refine ⟨⟨selected, bottom, rfl, hbottom⟩, hgate.trans ?_⟩
    simp only [ReadsOneObject, hitem, hselected, hbottom, forall_const, Option.some.injEq]
  | scrolledBottom same _ item selected cell hitem hselected hcell =>
    have hgate := updated_gate_iff
      (w := CurrencyConverter.scrolledBottom same w item selected cell) htop rfl rfl
    refine ⟨⟨top, selected, htop, rfl⟩, hgate.trans ?_⟩
    simp only [ReadsOneObject, hitem, hselected, htop, forall_const, Option.some.injEq,
      eq_comm (a := top)]
  | idle _ _ h =>
    -- a scroll to an item that is there is not idle
    cases a with
    | topScrollEnded same item => exact absurd ha (not_lt.mpr h)
    | bottomScrollEnded same item => exact absurd ha (not_lt.mpr h)
    | _ => exact ha.elim
  | _ => exact ha.elim

/-- Any turn keeps the gate under the condition: only scrolls select or touch the button. -/
theorem Turn.gate {a : Action} {w' : World Data} (h : Turn a w w') (hw : Gate w)
    (hc : ReadsOneObject w a) : Gate w' := by
  by_cases hscroll : Scrolls w a
  · obtain ⟨hselected,hiff⟩ := h.scrolled_gate_iff hw.selected hscroll
    exact ⟨hselected, (hiff.mpr hc).mp⟩
  · cases h with
    | scrolledTop same _ item top cell hitem => exact absurd hitem hscroll
    | scrolledBottom same _ item bottom cell hitem => exact absurd hitem hscroll
    | ticked =>
      have hmanager := startBatch_dataManager w w.timer
      have hscreen := startBatch_screen w w.timer
      exact hw.congr (congrArg DataManager.selectedTopCurrency hmanager)
        (congrArg DataManager.selectedBottomCurrency hmanager)
        (congrArg Screen.exchangeEnabled hscreen)
    | responded same _ _ task json request hr h =>
      obtain ⟨hscreen,-⟩ := h.frame
      obtain ⟨-,htop,hbottom⟩ := h.selections
      exact hw.congr htop hbottom (congrArg Screen.exchangeEnabled hscreen)
    | _ => exact hw.congr rfl rfl rfl

/-- A launch selects the first currency in both views and disables the button. -/
theorem Launched.gate {same : Identity} {d : Disk Data} {w' : World Data}
    (h : Launched same d w') : Gate w' := by
  cases h with
  | mk first top bottom hfirst htop hbottom =>
    let shown := shownFirst d first top bottom
    have hmanager := startBatch_dataManager shown (seededDisk d).realm.sortedKeys
    have hscreen := startBatch_screen shown (seededDisk d).realm.sortedKeys
    have hdisabled : Gate shown := ⟨⟨first, first, rfl, rfl⟩, fun h => nomatch h⟩
    exact hdisabled.congr (congrArg DataManager.selectedTopCurrency hmanager)
      (congrArg DataManager.selectedBottomCurrency hmanager)
      (congrArg Screen.exchangeEnabled hscreen)

theorem preserved_gate : Process.Preserved (fun _ : Disk Data => True) Gate ReadsOneObject where
  launched _ hl := ⟨trivial, hl.gate⟩
  seeded _ := trivial
  turned _ hw hc ht := ⟨trivial, ht.gate hw hc⟩
  aborted _ _ _ _ := trivial

/-- What a run must keep of its button: in every state reached it opens for different codes
only, and after every scroll it is open exactly for different codes. -/
structure Gated (start : Process Data) (actions : List Action) : Prop where
  closed : ∀ before after w, actions = before ++ after → start.run before = .running w →
    w.screen.exchangeEnabled = true → SelectionsDiffer w
  scrolled : ∀ before a after v w, actions = before ++ a :: after →
    start.run before = .running v → Scrolls v a → start.run (before ++ [a]) = .running w →
    (w.screen.exchangeEnabled = true ↔ SelectionsDiffer w)

/-- The button is a correct gate, over any store, in every run in which equal codes are read
as one object. -/
theorem exchange_gated (realm : Realm Data) (actions : List Action)
    (hm : Transition.Meets Process.step (Process.When ReadsOneObject) (.installed realm)
      actions) : Gated (.installed realm) actions := by
  -- the condition on a run is one on each of its prefixes
  have hgate (before : List Action) (w : World Data)
      (hrun : (Process.installed realm).run before = .running w)
      (hbefore : Transition.Meets Process.step (Process.When ReadsOneObject)
        (.installed realm) before) : Gate w := by
    have hend := preserved_gate.run (p := .installed realm) trivial hbefore
    rw [hrun] at hend
    exact hend.2
  refine ⟨?_, ?_⟩
  · rintro before after w rfl hrun
    rw [Transition.meets_append] at hm
    exact (hgate before w hrun hm.1).closed
  · rintro before a after v w rfl hv hscroll hw
    rw [Transition.meets_append] at hm
    have hselected := (hgate before v hv hm.1).selected
    have hcondition : Process.When ReadsOneObject ((Process.installed realm).run before) a :=
      hm.2.1
    have hstep : ((Process.installed realm).run before).step a = .running w := by
      rw [← hw]
      exact (Transition.run_concat Process.step _ before a).symm
    rw [hv] at hcondition hstep
    have hs := (Process.running v).step_cases a
    rw [hstep] at hs
    cases hs with
    | launched => exact hscroll.elim
    | turned _ _ _ _ h => exact (h.scrolled_gate_iff hselected hscroll).2.mpr hcondition

end

/-- Both views are scrolled to dollars, the second time with both codes in one object. -/
def scrolledToDollars : List Action :=
  [.launch .interned, .bottomScrollEnded ⟨false, false, false⟩ 1, .topScrollEnded .interned 1]

theorem exchange_gated_scrolledToDollars :
    Gated (.installed (Realm.empty : Realm (List Token))) scrolledToDollars :=
  exchange_gated Realm.empty scrolledToDollars (by decide +kernel)

/-- The bottom view is scrolled to dollars and back, and the two reads of the euro's code
answer two strings: the button is enabled for one currency in both views. -/
theorem two_reads_open_gate : ¬ ∀ (realm : Realm (List Token)) (actions : List Action),
    Gated (.installed realm) actions := by
  intro hclaim
  let actions : List Action := [.launch .interned, .bottomScrollEnded .interned 1,
    .bottomScrollEnded ⟨true, false, true⟩ 0]
  have hopen : ((Process.installed (Realm.empty : Realm (List Token))).run actions).world?.map
      (fun w => (w.screen.exchangeEnabled, w.dataManager.selectedTopCurrency,
        w.dataManager.selectedBottomCurrency)) =
      some (true, some "EUR".toList, some "EUR".toList) := by decide +kernel
  obtain ⟨w,hw,hall⟩ := Option.map_eq_some_iff.mp hopen
  simp only [Prod.mk.injEq] at hall
  obtain ⟨henabled,htop,hbottom⟩ := hall
  obtain ⟨t,b,ht,hb,hne⟩ := (hclaim Realm.empty actions).closed actions [] w
    (List.append_nil actions).symm (Process.eq_running hw) henabled
  rw [htop] at ht
  rw [hbottom] at hb
  exact hne ((Option.some.inj ht).symm.trans (Option.some.inj hb))

end CurrencyConverter
