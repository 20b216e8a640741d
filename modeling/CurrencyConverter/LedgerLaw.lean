import CurrencyConverter.TransferSteps
import CurrencyConverter.JSONTokens

/-! The money over whole runs, relaunches included: balances obey the ledger's law, and
none goes below zero while rates do not. -/
namespace CurrencyConverter
open JSONTree Token TransferLedger

variable {Data : Type} {w : World Data}

namespace Realm

def seededCodes : List (ℤ × NSString) :=
  seedCurrencies.map (fun c => (c.index, c.currencyString))

def seededAmount (key : NSString) : ℚ :=
  (KeyedRows.find Currency.currencyString key seedCurrencies).elim 0 Currency.amount

end Realm

/-- Nothing has been stored yet. -/
def Unseeded (d : Disk Data) : Prop := d.realm.currencies = [] ∧ transfers d.history = []

/-- The store refines the ledger: its codes are the seeded ones, and every balance is the
ledger's balance of the transfers committed so far. -/
structure Booked (d : Disk Data) : Prop where
  codes : d.realm.codes = Realm.seededCodes
  amount : ∀ i ∈ d.realm.keys,
    d.realm.amount i = balance Realm.seededAmount (transfers d.history) i

theorem keys_of_codes {d e : Disk Data} (h : e.realm.codes = d.realm.codes) :
    e.realm.keys = d.realm.keys := by
  rw [Realm.keys_eq_codes, h, ← Realm.keys_eq_codes]

theorem Booked.still {d e : Disk Data} (hd : Booked d) (h : Still d e) : Booked e := by
  refine ⟨h.codes.trans hd.codes, ?_⟩
  intro i hi
  rw [keys_of_codes h.codes] at hi
  rw [h.amount, h.transfers, hd.amount i hi]

/-- One committed transfer is one entry of the ledger. -/
theorem Booked.paid {d e : Disk Data} {t : Transfer} (hd : Booked d)
    (h : Paid t d e) : Booked e := by
  refine ⟨h.codes.trans hd.codes, ?_⟩
  intro i hi
  rw [keys_of_codes h.codes] at hi
  calc e.realm.amount i
      = t.post i (d.realm.amount i) := h.amount i hi
    _ = t.post i (balance Realm.seededAmount (transfers d.history) i) := by rw [hd.amount i hi]
    _ = balance Realm.seededAmount (t :: transfers d.history) i := (balance_cons _ t _ i).symm
    _ = balance Realm.seededAmount (transfers e.history) i := by rw [h.transfers]

theorem Booked.turnMoney {a : Action} {d : Disk Data} (hw : Booked w.toDisk)
    (h : TurnMoney w a d) : Booked d := by
  cases h with
  | still _ _ h => exact hw.still h
  | answered same task json request _ hr h =>
    cases h with
    | still h => exact hw.still h
    | paid t hc h => exact hw.paid h

theorem booked_seededDisk {d : Disk Data} (hd : Unseeded d ∨ Booked d) :
    Booked (seededDisk d) := by
  rcases seededDisk_cases d with hs | ⟨hempty,hseed,hhistory⟩
  · rw [hs]
    rcases hd with hd | hd
    · -- an empty store is seeded, so it is not left as it is
      have hlen : (seededDisk d).realm.currencies.length = 3 := by
        simp [seededDisk, Realm.firstEnterConfigurationIfNeeded, hd.1, Realm.seedCurrencies]
      rw [hs, hd.1] at hlen
      contradiction
    · exact hd
  · have hnone : transfers d.history = [] := by
      rcases hd with hd | hd
      · exact hd.2
      · have hcodes := hd.codes
        rw [Realm.codes, hempty] at hcodes
        contradiction
    refine ⟨?_, ?_⟩
    · rw [Realm.codes, hseed]
      rfl
    · intro i hi
      rw [hhistory, hnone, balance_nil, Realm.amount, Realm.find, hseed]
      rfl

section
variable [JSONSerialization Data]

theorem preserved_booked : Process.Preserved (fun d : Disk Data => Unseeded d ∨ Booked d)
    (fun w => Booked w.toDisk) (fun _ _ => True) where
  launched hd hl := by
    have hw := (booked_seededDisk hd).still hl.disk
    exact ⟨Or.inr hw, hw⟩
  seeded hd := Or.inr (booked_seededDisk hd)
  turned _ hw _ ht := ⟨Or.inr (hw.turnMoney ht.money), hw.turnMoney ht.money⟩
  aborted _ hw _ ha := Or.inr (hw.turnMoney ha.money)

/-- A launch leaves a booked store behind, whether the first view loads or not. -/
theorem booked_of_launch {p : Process Data} (hp : Unseeded p.disk ∨ Booked p.disk)
    (same : Identity) : Booked (p.step (.launch same)).disk := by
  have hs := Process.step_launch p same
  generalize p.step (.launch same) = q at hs
  cases hs with
  | launched _ _ w' h => exact (booked_seededDisk hp).still h.disk
  | launchAborted _ _ x => exact booked_seededDisk hp
  | off disk reason _ ha => exact (ha same rfl).elim
  | turned w w' _ ha h => exact (ha same rfl).elim
  | aborted w _ e d ha h => exact (ha same rfl).elim

/-- Once the store is booked it stays booked, relaunches included. -/
theorem preserved_booked_disk :
    Process.Preserved (Booked : Disk Data → Prop) (fun _ => True) (fun _ _ => True) where
  launched hd hl := ⟨(booked_seededDisk (Or.inr hd)).still hl.disk, trivial⟩
  seeded hd := booked_seededDisk (Or.inr hd)
  turned hw _ _ ht := ⟨hw.turnMoney ht.money, trivial⟩
  aborted hw _ _ ha := hw.turnMoney ha.money

omit [JSONSerialization Data] in
theorem unseeded_installed : (Process.installed (Realm.empty : Realm Data)).Holds
    (fun d => Unseeded d ∨ Booked d) (fun w => Booked w.toDisk) :=
  Or.inl ⟨rfl, rfl⟩

theorem booked_of_launched {actions : List Action}
    (h : ∃ same, Action.launch same ∈ actions) :
    Booked ((Process.installed (Realm.empty : Realm Data)).run actions).disk := by
  obtain ⟨same,hmem⟩ := h
  obtain ⟨before,after,rfl⟩ := List.append_of_mem hmem
  rw [Process.run, Transition.run_append, Transition.run_cons]
  -- split the run at the launch: before it the store may be empty, after it it is booked
  let p := Process.installed (Realm.empty : Realm Data)
  have hbefore : Unseeded (p.run before).disk ∨ Booked (p.run before).disk :=
    (preserved_booked.run_always unseeded_installed before).disk
  have hlaunch := booked_of_launch hbefore same
  apply Process.Holds.disk (I := fun _ => True)
  exact preserved_booked_disk.run_always (Process.holds_of_disk hlaunch) after

/-- The ledger's law: in every run from the first installation the seeded codes stay, every
balance is its seeded amount minus the debits and plus the credits committed so far, and
every step commits one transfer at the rate of the response it handles, or none. -/
theorem ledger_law (actions : List Action) :
    let p := (Process.installed (Realm.empty : Realm Data)).run actions
    ((∃ same, Action.launch same ∈ actions) → p.disk.realm.codes = Realm.seededCodes) ∧
      (∀ c ∈ p.disk.realm.currencies, c.amount =
        balance Realm.seededAmount (transfers p.disk.history) c.currencyString) ∧
      ∀ a, Unmoved p.disk (p.step a).disk ∨
        ∃ w request json t, p.CommitsAt a w request json t := by
  intro p
  refine ⟨fun h => (booked_of_launched h).codes, ?_, fun a => p.step_money a⟩
  intro c hc
  have hp : Unseeded p.disk ∨ Booked p.disk :=
    (preserved_booked.run_always unseeded_installed actions).disk
  rcases hp with hempty | hbooked
  · rw [hempty.1] at hc
    contradiction
  · rw [← Realm.amount_of_mem hc]
    exact hbooked.amount _ (Realm.mem_keys hc)

end

/-- Every rate a response carries is at least zero. -/
def NonNegativeRates : Action → Prop
  | .responded _ _ json => ∀ code rate, responseRate json code = .ok rate → 0 ≤ rate
  | _ => True

/-- A response of the documented form: positive rates, and none for the base itself. -/
def Documented (json : Option JSON) : Prop :=
  ∃ fields base rates, json = some (.object fields) ∧
    fields.lookup "base".toList = some (.string base) ∧
    fields.lookup "rates".toList = some (.object rates) ∧
    ∀ entry ∈ rates, entry.1 ≠ base ∧ ∃ q, entry.2 = .number q ∧ 0 < q

def DocumentedAction : Action → Prop
  | .responded _ _ json => Documented json
  | _ => True

/-- Whether a response has a rate for `code`. -/
def hasRate (json : Option JSON) (code : NSString) : Bool :=
  match valueForKeyPath json "rates".toList with
  | .ok (some (.object rates)) => (rates.lookup code).isSome
  | _ => false

theorem Documented.rates {json : Option JSON} (h : Documented json) {code : Option NSString}
    {rate : ℚ} (hrate : responseRate json code = .ok rate) :
    0 ≤ rate ∧ ∀ c, code = some c → hasRate json c = true → 0 < rate := by
  obtain ⟨fields,base,rates,rfl,-,hfound,hentries⟩ := h
  have hpath : valueForKeyPath (some (.object fields)) "rates".toList =
      .ok (some (.object rates)) := congrArg Except.ok hfound
  have hvalue : entryFloatValue (code.bind (fun c => rates.lookup c)) = .ok rate :=
    (responseRate_object code hfound).symm.trans hrate
  cases hlookup : code.bind (fun c => rates.lookup c) with
  | none =>
    -- a missing code reads as zero, and is not among the rates
    rw [hlookup] at hvalue
    cases hvalue
    refine ⟨le_refl 0, ?_⟩
    rintro c rfl hc
    rw [Option.bind_some] at hlookup
    rw [hasRate, hpath] at hc
    simp only [hlookup] at hc
    contradiction
  | some value =>
    obtain ⟨c,rfl,hc⟩ := Option.bind_eq_some_iff.mp hlookup
    obtain ⟨before,after,hsplit,-⟩ := List.lookup_eq_some_iff.mp hc
    have hmem : (c, value) ∈ rates := by simp [hsplit]
    obtain ⟨-,q,hq,hpos⟩ := hentries _ hmem
    obtain rfl : value = .number q := hq
    rw [hlookup] at hvalue
    obtain rfl : q = rate := Except.ok.inj hvalue
    exact ⟨hpos.le, fun _ _ _ => hpos⟩

theorem DocumentedAction.nonNegative {a : Action} (h : DocumentedAction a) :
    NonNegativeRates a := by
  cases a with
  | responded same task json => exact fun code rate hrate => (h.rates hrate).1
  | _ => trivial

theorem documented_euroRates : Documented euroRates := by
  refine ⟨_, "EUR".toList, [("USD".toList, .number (21/20)), ("GBP".toList, .number (17/20))],
    rfl, rfl, rfl, ?_⟩
  intro entry hentry
  simp only [List.mem_cons, List.not_mem_nil, or_false] at hentry
  rcases hentry with rfl | rfl
  · exact ⟨by decide, 21/20, rfl, by decide +kernel⟩
  · exact ⟨by decide, 17/20, rfl, by decide +kernel⟩

/-- Ten euros, answered while dollars are still selected. -/
def exchangedTenEuros : List Action :=
  pressedTenEuros ++ [.responded .interned 3 euroRates]

theorem documented_exchangedTenEuros : ∀ a ∈ exchangedTenEuros, DocumentedAction a := by
  simp [exchangedTenEuros, pressedTenEuros, DocumentedAction, documented_euroRates]

def NoDebt (d : Disk Data) : Prop := ∀ i ∈ d.realm.keys, 0 ≤ d.realm.amount i

theorem NoDebt.still {d e : Disk Data} (hd : NoDebt d) (h : Still d e) : NoDebt e := by
  intro i hi
  rw [keys_of_codes h.codes] at hi
  rw [h.amount]
  exact hd i hi

theorem NoDebt.paid {d e : Disk Data} {t : Transfer} (hd : NoDebt d) (h : Paid t d e)
    (hfunds : t.debit ≤ d.realm.amount t.source) (hcredit : 0 ≤ t.credit) : NoDebt e := by
  intro i hi
  rw [keys_of_codes h.codes] at hi
  rw [h.amount i hi]
  apply Transfer.post_nonneg (hd i hi) _ hcredit
  rintro rfl
  exact hfunds

theorem noDebt_seededDisk {d : Disk Data} (hd : NoDebt d) : NoDebt (seededDisk d) := by
  rcases seededDisk_cases d with hs | ⟨-,hseed,-⟩
  · rwa [hs]
  · intro i hi
    have hrow : ∀ c ∈ Realm.seedCurrencies, 0 ≤ c.amount := by decide +kernel
    rw [Realm.amount, Realm.find, hseed]
    cases hf : KeyedRows.find Currency.currencyString i Realm.seedCurrencies with
    | none => exact le_refl 0
    | some c => exact hrow c (KeyedRows.find_mem _ hf)

/-- What the text handler takes over is never negative: it strips every minus sign. -/
theorem enteredValue_nonneg (text : Option NSString) : 0 ≤ ExchangeCell.enteredValue text := by
  cases text with
  | none => exact le_refl 0
  | some text =>
    apply DecimalText.floatValue_nonneg
    simp [ExchangeCell.strippedText]

theorem NoDebt.turnMoney {a : Action} {d : Disk Data} (hw : NoDebt w.toDisk)
    (hvalue : 0 ≤ w.dataManager.valueForExchange) (hc : NonNegativeRates a)
    (h : TurnMoney w a d) : NoDebt d := by
  cases h with
  | still _ _ h => exact hw.still h
  | answered same task json request _ hr h =>
    cases h with
    | still h => exact hw.still h
    | paid t ht h =>
      -- the guard of the service covers the debit, the rates make the credit non-negative
      obtain ⟨rate,hrate,hcredit⟩ := ht.rate
      have hdebit : 0 ≤ t.debit := hvalue.trans_eq ht.debit.symm
      have hpos : 0 ≤ t.credit := by
        rw [hcredit]
        exact mul_nonneg hdebit (hc _ rate hrate)
      exact hw.paid h ht.funds hpos

section
variable [JSONSerialization Data]

theorem Turn.value_nonneg {a : Action} {w' : World Data} (h : Turn a w w')
    (hw : 0 ≤ w.dataManager.valueForExchange) : 0 ≤ w'.dataManager.valueForExchange := by
  rcases h.value_cases with hkept | hreset | ⟨same,text,-,hentered⟩
  · rwa [hkept]
  · exact le_of_eq hreset.symm
  · rw [hentered]
    exact enteredValue_nonneg text

theorem preserved_noDebt : Process.Preserved (NoDebt : Disk Data → Prop)
    (fun w => 0 ≤ w.dataManager.valueForExchange) (fun _ a => NonNegativeRates a) where
  launched hd hl := ⟨(noDebt_seededDisk hd).still hl.disk, le_of_eq hl.value.symm⟩
  seeded hd := noDebt_seededDisk hd
  turned hd hw hc ht := ⟨hd.turnMoney hw hc ht.money, ht.value_nonneg hw⟩
  aborted hd hw hc ha := hd.turnMoney hw hc ha.money

/-- No balance and no entered amount ever goes below zero, whatever is typed, selected,
pressed and answered, as long as the rates do not. -/
theorem balances_nonneg (actions : List Action) (h : ∀ a ∈ actions, NonNegativeRates a) :
    let p := (Process.installed (Realm.empty : Realm Data)).run actions
    (∀ c ∈ p.disk.realm.currencies, 0 ≤ c.amount) ∧
      ∀ w, p = .running w → 0 ≤ w.dataManager.valueForExchange := by
  intro p
  have hstart : (Process.installed (Realm.empty : Realm Data)).Holds NoDebt
      (fun w => 0 ≤ w.dataManager.valueForExchange) := by
    intro i hi
    exact absurd hi List.not_mem_nil
  have hp := preserved_noDebt.run_of_actions hstart h
  refine ⟨?_, ?_⟩
  · intro c hc
    rw [← Realm.amount_of_mem hc]
    exact hp.disk _ (Realm.mem_keys hc)
  · intro w hw
    have hrun : (Process.running w).Holds NoDebt
        (fun w => 0 ≤ w.dataManager.valueForExchange) := hw ▸ hp
    exact hrun.2

end

theorem balances_nonneg_exchangedTenEuros :
    let p := (Process.installed (Realm.empty : Realm (List Token))).run exchangedTenEuros
    (∀ c ∈ p.disk.realm.currencies, 0 ≤ c.amount) ∧
      ∀ w, p = .running w → 0 ≤ w.dataManager.valueForExchange :=
  balances_nonneg exchangedTenEuros
    (fun a ha => (documented_exchangedTenEuros a ha).nonNegative)

/-- An exchange that is about to be committed finds a bottom currency other than the source,
and the response has a rate for it. -/
def Quoted (w : World Data) : Action → Prop
  | .responded _ task json => ∀ request ∈ w.requests, w.request task = some request →
    request.performExchange = true → w.dataManager.valueForExchange ≠ 0 →
    w.dataManager.valueForExchange ≤ w.realm.amount request.currency →
    w.dataManager.selectedBottomCurrency.any
      (fun bottom => bottom ≠ request.currency && hasRate json bottom) = true
  | _ => True

instance : ∀ (w : World Data) (a : Action), Decidable (Quoted w a)
  | w, .responded _ _ _ => inferInstanceAs (Decidable (∀ request ∈ w.requests, _))
  | _, .launch _ | _, .topScrollEnded _ _ | _, .bottomScrollEnded _ _ | _, .textEdited _ _
  | _, .exchangePressed | _, .timerFired | _, .failed _ _ | _, .notified _ _ => isTrue trivial

/-- Money arrives in another currency. -/
def Arrives (t : Transfer) : Prop :=
  (∃ target, t.target = some target ∧ target ≠ t.source) ∧ 0 < t.credit

def AllArrive (d : Disk Data) : Prop := ∀ t ∈ transfers d.history, Arrives t

theorem Commits.arrives {request : Request} {json : Option JSON} {t : Transfer}
    (h : Commits w request json t) (hdocumented : Documented json)
    (hvalue : 0 ≤ w.dataManager.valueForExchange)
    (hquoted : w.dataManager.selectedBottomCurrency.any
      (fun bottom => bottom ≠ request.currency && hasRate json bottom) = true) :
    Arrives t := by
  obtain ⟨rate,hrate,hcredit⟩ := h.rate
  rw [← h.target, Option.any_eq_true] at hquoted
  obtain ⟨bottom,hbottom,hq⟩ := hquoted
  simp only [Bool.and_eq_true, decide_eq_true_eq] at hq
  have hpos : 0 < rate := (hdocumented.rates hrate).2 bottom hbottom hq.2
  have hdebit : 0 < t.debit := lt_of_le_of_ne (hvalue.trans_eq h.debit.symm) (Ne.symm h.value)
  refine ⟨⟨bottom, hbottom, h.source ▸ hq.1⟩, ?_⟩
  rw [hcredit]
  exact mul_pos hdebit hpos

theorem AllArrive.turnMoney {a : Action} {d : Disk Data} (hw : AllArrive w.toDisk)
    (hvalue : 0 ≤ w.dataManager.valueForExchange) (hc : DocumentedAction a ∧ Quoted w a)
    (h : TurnMoney w a d) : AllArrive d := by
  have hstill (h : Still w.toDisk d) : AllArrive d := by
    rw [AllArrive, h.transfers]
    exact hw
  cases h with
  | still _ _ h => exact hstill h
  | answered same task json request _ hr h =>
    cases h with
    | still h => exact hstill h
    | paid t ht h =>
      rw [AllArrive, h.transfers]
      have hfunds : w.dataManager.valueForExchange ≤ w.realm.amount request.currency := by
        rw [← ht.debit, ← ht.source]
        exact ht.funds
      have hquoted := hc.2 request (List.mem_of_find?_eq_some hr) hr ht.needed
        (ht.debit ▸ ht.value) hfunds
      intro u hu
      rcases List.mem_cons.mp hu with rfl | hu
      · exact ht.arrives hc.1 hvalue hquoted
      · exact hw u hu

section
variable [JSONSerialization Data]

theorem preserved_allArrive : Process.Preserved (AllArrive : Disk Data → Prop)
    (fun w => 0 ≤ w.dataManager.valueForExchange)
    (fun w a => DocumentedAction a ∧ Quoted w a) where
  launched hd hl := by
    refine ⟨?_, le_of_eq hl.value.symm⟩
    rw [AllArrive, hl.disk.transfers]
    exact hd
  seeded hd := hd
  turned hd hw hc ht := ⟨hd.turnMoney hw hc ht.money, ht.value_nonneg hw⟩
  aborted hd hw hc ha := hd.turnMoney hw hc ha.money

/-- No money is destroyed in a run whose exchanges find their rates: every transfer goes to
another currency and credits it. -/
theorem transfers_arrive (realm : Realm Data) (actions : List Action)
    (hdocumented : ∀ a ∈ actions, DocumentedAction a)
    (hm : Transition.Meets Process.step (Process.When Quoted) (.installed realm) actions) :
    ∀ t ∈ transfers ((Process.installed realm).run actions).disk.history,
      (∃ target, t.target = some target ∧ target ≠ t.source) ∧ 0 < t.credit := by
  have hlabels := Transition.meets_of_forall_label Process.step DocumentedAction
    (.installed realm) actions hdocumented
  have hboth : Transition.Meets Process.step
      (Process.When fun w a => DocumentedAction a ∧ Quoted w a) (.installed realm) actions := by
    apply (hlabels.and Process.step hm).mono Process.step
    intro p a h
    cases p with
    | terminated d reason => trivial
    | running w => exact h
  have hstart : (Process.installed realm).Holds AllArrive
      (fun w => 0 ≤ w.dataManager.valueForExchange) := by
    intro t ht
    contradiction
  exact (preserved_allArrive.run hstart hboth).disk

end

theorem transfers_arrive_exchangedTenEuros :
    let made := transfers ((Process.installed (Realm.empty : Realm (List Token))).run
      exchangedTenEuros).disk.history
    made.length = 1 ∧ ∀ t ∈ made,
      (∃ target, t.target = some target ∧ target ≠ t.source) ∧ 0 < t.credit :=
  ⟨by decide +kernel, transfers_arrive Realm.empty exchangedTenEuros
    documented_exchangedTenEuros (by decide +kernel)⟩

/-- The bottom view is scrolled to euros before the response arrives: ten euros are debited
and nothing is credited. -/
theorem late_scroll_destroys : ¬ ∀ actions : List Action,
    (∀ a ∈ actions, DocumentedAction a) →
    ∀ t ∈ transfers ((Process.installed (Realm.empty : Realm (List Token))).run
        actions).disk.history,
      (∃ target, t.target = some target ∧ target ≠ t.source) ∧ 0 < t.credit := by
  intro hclaim
  let actions := pressedTenEuros ++
    [.bottomScrollEnded .interned 0, .responded .interned 3 euroRates]
  have hdocumented : ∀ a ∈ actions, DocumentedAction a := by
    simp [actions, pressedTenEuros, DocumentedAction, documented_euroRates]
  have hlost : transfers ((Process.installed (Realm.empty : Realm (List Token))).run
      actions).disk.history = [⟨"EUR".toList, 10, some "EUR".toList, 0⟩] := by decide +kernel
  have harrives := hclaim actions hdocumented
  rw [hlost] at harrives
  exact absurd (harrives _ List.mem_cons_self).2 (by decide +kernel)

end CurrencyConverter
