import CurrencyConverter.SeededApp

/-! The amount the user sees and the amount that is going to be exchanged are two copies of
one value. Which turns keep them together, and which pull them apart. -/
namespace CurrencyConverter
open JSONTree Token ExchangeCell

def hasDigit (text : NSString) : Bool := text.any Char.isDigit

/-- The text of an amount field stands for `value`. -/
structure Denotes (text : NSString) (value : ℚ) : Prop where
  blank : hasDigit text = false ↔ value = 0
  number : hasDigit text = true → DecimalText.floatValue (strippedText text) = value

theorem denotes_nil {value : ℚ} : Denotes [] value ↔ value = 0 := by
  constructor
  · intro h
    exact h.blank.mp rfl
  · rintro rfl
    exact ⟨iff_of_true rfl rfl, fun h => nomatch h⟩

/-- A text with digits stands for one number only, and one without for zero only. -/
theorem Denotes.unique {text : NSString} {value other : ℚ} (h : Denotes text value)
    (h' : Denotes text other) : value = other := by
  cases hd : hasDigit text with
  | false =>
    calc value
        = 0 := h.blank.mp hd
      _ = other := (h'.blank.mp hd).symm
  | true =>
    calc value
        = DecimalText.floatValue (strippedText text) := (h.number hd).symm
      _ = other := h'.number hd

theorem hasDigit_strippedText (text : NSString) : hasDigit (strippedText text) = hasDigit text := by
  induction text with
  | nil => rfl
  | cons c text ih =>
    -- the two characters that are stripped are no digits
    by_cases hminus : c = '-'
    · subst hminus
      exact ih
    · by_cases hblank : c = ' '
      · subst hblank
        exact ih
      · have hkept : strippedText (c :: text) = c :: strippedText text := by
          simp [strippedText, hminus, hblank]
        rw [hkept]
        exact congrArg (fun b => c.isDigit || b) ih

theorem strippedText_strippedText (text : NSString) :
    strippedText (strippedText text) = strippedText text := by
  simp only [strippedText, List.filter_filter]
  apply List.filter_congr
  intro c _
  by_cases hblank : c = ' '
  · simp [hblank]
  · simp [hblank]

/-- What the text handler writes back reads as the amount it took over. -/
theorem enteredText_some (text : NSString) :
    hasDigit (enteredText (some text)) = hasDigit text ∧
      strippedText (enteredText (some text)) = strippedText text := by
  constructor
  · exact hasDigit_strippedText text
  · exact strippedText_strippedText text

theorem enteredValue_of_no_digit {text : NSString} (h : hasDigit text = false) :
    enteredValue (some text) = 0 := by
  apply DecimalText.floatValue_of_no_digit
  intro c hc
  have hnone : hasDigit (strippedText text) = false := (hasDigit_strippedText text).trans h
  simpa using List.any_eq_false.mp hnone c hc

/-- An edit keeps the two copies together unless it enters a numeral that reads as zero. -/
theorem denotes_entered (text : Option NSString) :
    Denotes (enteredText text) (enteredValue text) ↔
      (hasDigit (enteredText text) = true → enteredValue text ≠ 0) := by
  constructor
  · intro h hd hzero
    have hnone := h.blank.mpr hzero
    rw [hd] at hnone
    contradiction
  · intro h
    cases text with
    | none =>
      -- nil is written back as `(null)`
      exact ⟨iff_of_true rfl rfl, fun hd => nomatch hd⟩
    | some text =>
      obtain ⟨hdigits,hstripped⟩ := enteredText_some text
      rw [hdigits] at h
      refine ⟨?_, fun _ => congrArg DecimalText.floatValue hstripped⟩
      rw [hdigits]
      constructor
      · exact enteredValue_of_no_digit
      · intro hzero
        by_contra hd
        exact h (by simpa using hd) hzero

variable {Data : Type} {w : World Data}

/-- The visible top cell stands for the entered amount. -/
def Shown (w : World Data) : Prop :=
  Denotes w.screen.topCell.valueTextField w.dataManager.valueForExchange

/-- The turns that keep the field and the amount together. A non-zero amount is neither
scrolled away, nor reloaded away by a notification, nor exchanged, and no numeral that
reads as zero is entered. -/
def FieldKept (w : World Data) : Action → Prop
  | .topScrollEnded _ item => item < w.dataManager.currencies.length →
    w.screen.topItem ≠ item → w.dataManager.valueForExchange = 0
  | .textEdited _ text => hasDigit (enteredText text) = true → enteredValue text ≠ 0
  | .responded _ task _ => ∀ request ∈ w.requests, w.request task = some request →
    request.performExchange = true → w.dataManager.valueForExchange = 0
  | .notified _ count => w.screen.topItem ∈ modifiedIndexes w count →
    w.dataManager.valueForExchange = 0
  | _ => True

instance : ∀ (w : World Data) (a : Action), Decidable (FieldKept w a)
  | w, .topScrollEnded _ item => inferInstanceAs (Decidable
      (item < w.dataManager.currencies.length → w.screen.topItem ≠ item →
        w.dataManager.valueForExchange = 0))
  | _, .textEdited _ text => inferInstanceAs (Decidable
      (hasDigit (enteredText text) = true → enteredValue text ≠ 0))
  | w, .responded _ _ _ => inferInstanceAs (Decidable (∀ request ∈ w.requests, _))
  | w, .notified _ count => inferInstanceAs (Decidable
      (w.screen.topItem ∈ modifiedIndexes w count → w.dataManager.valueForExchange = 0))
  | _, .launch _ | _, .bottomScrollEnded _ _ | _, .exchangePressed | _, .timerFired
  | _, .failed _ _ => isTrue trivial

theorem fieldKept_of_idle {a : Action} (h : Idle w a) : FieldKept w a := by
  cases a with
  | topScrollEnded same item => exact fun hlt => absurd h (not_le.mpr hlt)
  | responded same task json =>
    intro request _ hr
    rw [h] at hr
    contradiction
  | launch | textEdited | notified => exact h.elim
  | _ => trivial

section
variable [JSONSerialization Data]

/-- A filled top cell has an empty amount field, whatever the entered amount is. -/
theorem top_valueTextField {same : Bool} {realm : Realm Data} {dataManager : DataManager}
    {dequeued cell : ExchangeCell} {row : ℕ}
    (h : dataManager.cellForItemAtIndexPath .top same realm dequeued row = .ok cell) :
    cell.valueTextField = [] := by
  unfold DataManager.cellForItemAtIndexPath at h
  split at h
  · contradiction
  · obtain ⟨symbol,-,h⟩ := Effects.except_bind_ok h
    cases h
    rfl

theorem Refilled.denotes_iff {needed : Prop} {same : Bool} {item : ℕ} {old cell : ExchangeCell}
    {value : ℚ} (h : Refilled needed .top same w item old cell)
    (hold : Denotes old.valueTextField value) :
    Denotes cell.valueTextField value ↔ (needed → value = 0) := by
  by_cases hneeded : needed
  · rw [top_valueTextField (h.1 hneeded), denotes_nil]
    exact ⟨fun hzero _ => hzero, fun hzero => hzero hneeded⟩
  · rw [h.2 hneeded]
    exact iff_of_true hold (fun hn => absurd hn hneeded)

/-- A handled exchange resets the amount and not the text. -/
theorem Succeeded.shown_iff {same : Bool} {request : Request} {json : Option JSON}
    {w' : World Data} (h : Succeeded same request json w w') (hw : Shown w) :
    Shown w' ↔ (request.performExchange = true → w.dataManager.valueForExchange = 0) := by
  obtain ⟨hscreen,-,-,-,hmanager⟩ := h.frame
  rw [Shown, hscreen, hmanager]
  cases hn : request.performExchange with
  | false => exact iff_of_true hw (fun h => nomatch h)
  | true =>
    constructor
    · intro hreset _
      exact hw.unique hreset
    · intro hzero
      have hkept : Denotes w.screen.topCell.valueTextField w.dataManager.valueForExchange := hw
      rw [hzero rfl] at hkept
      exact hkept

/-- The condition is exact: of the turns that end normally, those and only those that meet
it keep the field and the amount together. -/
theorem Turn.shown_iff {a : Action} {w' : World Data} (h : Turn a w w') (hw : Shown w) :
    Shown w' ↔ FieldKept w a := by
  cases h with
  | idle _ _ h => exact iff_of_true hw (fieldKept_of_idle h)
  | scrolledTop same _ item top cell hitem htop hcell =>
    exact (hcell.denotes_iff hw).trans ⟨fun h _ => h, fun h => h hitem⟩
  | edited same _ text bottom hcell => exact denotes_entered text
  | ticked =>
    have hscreen := startBatch_screen w w.timer
    have hmanager := startBatch_dataManager w w.timer
    refine iff_of_true ?_ trivial
    rw [Shown, hscreen, hmanager]
    exact hw
  | responded same _ _ task json request hr h =>
    rw [h.shown_iff hw]
    constructor
    · intro hreset other _ hother
      obtain rfl : request = other := Option.mem_unique hr hother
      exact hreset
    · intro hc
      exact hc request (List.mem_of_find?_eq_some hr) hr
  | deliveredNothing same _ count h =>
    have hnone : modifiedIndexes w count = [] := congrArg (List.map _) h
    refine iff_of_true hw ?_
    intro hmem
    rw [hnone] at hmem
    contradiction
  | notified same _ count top bottom h htop hbottom => exact htop.denotes_iff hw
  | scrolledBottom => exact iff_of_true hw trivial
  | pressed => exact iff_of_true hw trivial
  | failed => exact iff_of_true hw trivial

/-- A launch shows an empty field and an amount of zero. -/
theorem Launched.shown {same : Identity} {d : Disk Data} {w' : World Data}
    (h : Launched same d w') : Shown w' := by
  have hvalue := h.value
  cases h with
  | mk first top bottom hfirst htop hbottom =>
    have hscreen := startBatch_screen (shownFirst d first top bottom)
      (seededDisk d).realm.sortedKeys
    have htext : top.valueTextField = [] := top_valueTextField htop
    rw [Shown, hvalue]
    refine (congrArg (fun screen : Screen => Denotes screen.topCell.valueTextField 0)
      hscreen).mpr ?_
    exact htext ▸ denotes_nil.mpr rfl

theorem preserved_shown : Process.Preserved (fun _ : Disk Data => True) Shown FieldKept where
  launched _ hl := ⟨trivial, hl.shown⟩
  seeded _ := trivial
  turned _ hw hc ht := ⟨trivial, (ht.shown_iff hw).mpr hc⟩
  aborted _ _ _ _ := trivial

end

/-- The amount is entered, and the response of an exchange is handled after it has been
emptied again. -/
def emptiedTenEuros : List Action :=
  pressedTenEuros ++ [.textEdited .interned (some []), .responded .interned 3 euroRates]

end CurrencyConverter
