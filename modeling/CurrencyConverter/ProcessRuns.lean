import CurrencyConverter.HandlerSpecs

/-! A process taking turns, being killed and being launched again: the cases of one step,
and the rule that carries an invariant of the store and one of the running app over
every run. -/
namespace CurrencyConverter
open JSONTree Effects

variable {Data : Type} [JSONSerialization Data]

/-- The first lines of a launch only seed the store. -/
def seededDisk (disk : Disk Data) : Disk Data :=
  { disk with realm := disk.realm.firstEnterConfigurationIfNeeded }

/-- The first view before its batch of requests is started. -/
def shownFirst (disk : Disk Data) (first : NSString) (top bottom : ExchangeCell) :
    World Data where
  toDisk := seededDisk disk
  dataManager := {
    currencies := (seededDisk disk).realm.sortedKeys
    selectedTopCurrency := some first
    selectedBottomCurrency := some first }
  screen := { topCell := top, bottomCell := bottom }

inductive Launched (same : Identity) (disk : Disk Data) : World Data → Prop
  | mk (first : NSString) (top bottom : ExchangeCell)
      (hfirst : (seededDisk disk).realm.sortedKeys[0]? = some first)
      (htop : (shownFirst disk first {} {}).dataManager.cellForItemAtIndexPath .top same.cell
        (seededDisk disk).realm {} 0 = .ok top)
      (hbottom : (shownFirst disk first {} {}).dataManager.cellForItemAtIndexPath .bottom
        same.cell (seededDisk disk).realm {} 0 = .ok bottom) :
      Launched same disk
        { startBatch (shownFirst disk first top bottom) (seededDisk disk).realm.sortedKeys with
          timer := (seededDisk disk).realm.sortedKeys }

theorem didFinishLaunching_ends (same : Identity) (disk : Disk Data) :
    Ends (didFinishLaunching same.cell) ({ disk with } : World Data)
      (fun _ w' => Launched same disk w')
      (fun e w' => w'.toDisk = seededDisk disk ∧ ∃ x, e = .exception x) := by
  simp only [didFinishLaunching, ViewController.viewDidLoad,
    ViewController.didReceivedCurrenciesFromStorage, ViewController.reloadTopCell,
    ViewController.reloadBottomCell, ends_bind, ends_get, ends_set, ends_modify, ends_orRaise]
  refine ⟨?_, fun x _ => ⟨rfl, x, rfl⟩⟩
  intro selected hselected
  obtain ⟨first,hfirst,rfl⟩ := selectTopCurrencyAtIndex_ok hselected
  refine ⟨?_, fun x _ => ⟨rfl, x, rfl⟩⟩
  intro selected hselected
  obtain ⟨second,hsecond,rfl⟩ := selectBottomCurrencyAtIndex_ok hselected
  -- both page controls start at the first page
  obtain rfl : first = second := Option.mem_unique hfirst hsecond
  refine ⟨fun top htop => ⟨?_, fun x _ => ⟨rfl, x, rfl⟩⟩, fun x _ => ⟨rfl, x, rfl⟩⟩
  intro bottom hbottom
  exact ends_of_run (getRateListForCurrencies_run _) (.mk first top bottom hfirst htop hbottom)

namespace Process

/-- One step of a process. -/
inductive Step : Process Data → Action → Process Data → Prop
  | launched (p : Process Data) (same : Identity) (w' : World Data)
      (h : Launched same p.disk w') : Step p (.launch same) (running w')
  | launchAborted (p : Process Data) (same : Identity) (x : NSException) :
      Step p (.launch same) (terminated (seededDisk p.disk) (some (.exception x)))
  | off (disk : Disk Data) (reason : Option Abort) (a : Action)
      (ha : ∀ same, a ≠ .launch same) : Step (terminated disk reason) a (terminated disk reason)
  | turned (w w' : World Data) (a : Action) (ha : ∀ same, a ≠ .launch same)
      (h : Turn a w w') : Step (running w) a (running w')
  | aborted (w : World Data) (a : Action) (e : Abort) (disk : Disk Data)
      (ha : ∀ same, a ≠ .launch same) (h : TurnAborted a w e disk) :
      Step (running w) a (terminated disk (some e))

theorem step_launch (p : Process Data) (same : Identity) :
    Step p (.launch same) (p.step (.launch same)) := by
  have h := didFinishLaunching_ends same p.disk
  have hstep : p.step (.launch same) =
      ofResult ((didFinishLaunching same.cell).run ({ p.disk with } : World Data)) := by
    cases p <;> rfl
  rw [hstep]
  cases hr : (didFinishLaunching same.cell).run ({ p.disk with } : World Data) with
  | ok u w' => exact .launched p same w' (h.of_run_ok hr)
  | error e w' =>
    obtain ⟨hdisk,x,rfl⟩ := h.of_run_error hr
    simp only [ofResult, hdisk]
    exact .launchAborted p same x

theorem step_running (w : World Data) (a : Action) (ha : ∀ same, a ≠ .launch same) :
    Step (running w) a ((running w).step a) := by
  have h := perform_ends (w := w) a ha
  have hstep : (running w).step a = ofResult ((perform a).run w) := by
    cases a with
    | launch same => exact (ha same rfl).elim
    | _ => rfl
  rw [hstep]
  cases hr : (perform a).run w with
  | ok u w' => exact .turned w w' a ha (h.of_run_ok hr)
  | error e w' => exact .aborted w a e _ ha (h.of_run_error hr)

/-- Everything one step can do. -/
theorem step_cases (p : Process Data) (a : Action) : Step p a (p.step a) := by
  by_cases ha : ∃ same, a = .launch same
  · obtain ⟨same,rfl⟩ := ha
    exact step_launch p same
  · have ha' : ∀ same, a ≠ .launch same := fun same h => ha ⟨same, h⟩
    cases p with
    | terminated disk reason =>
      have hstep : (terminated disk reason).step a = terminated disk reason := by
        cases a with
        | launch same => exact (ha' same rfl).elim
        | _ => rfl
      rw [hstep]
      exact .off disk reason a ha'
    | running w => exact step_running w a ha'

/-- A response to a request in flight runs its success block, to the end or to an abort. -/
theorem step_responded {w : World Data} {task : ℕ} {request : Request}
    (hr : w.request task = some request) (same : Identity) (json : Option JSON) :
    (∃ w', (running w).step (.responded same task json) = running w' ∧
        Nonempty (Succeeded same.base request json (completed w request) w')) ∨
      ∃ e w', (running w).step (.responded same task json) = terminated w'.toDisk (some e) ∧
        SuccessAborted same.base request json (completed w request) e w' := by
  have hs := step_running w (.responded same task json) (fun _ h => nomatch h)
  generalize (running w).step (.responded same task json) = q at hs ⊢
  cases hs with
  | turned _ w' _ _ h =>
    cases h with
    | idle _ _ h => exact absurd (hr.symm.trans h) (by simp)
    | responded _ _ _ _ _ found hfound hsucceeded =>
      obtain rfl : request = found := Option.mem_unique hr hfound
      exact Or.inl ⟨w', rfl, ⟨hsucceeded⟩⟩
  | aborted _ _ e d _ h =>
    cases h with
    | filling _ _ x h => exact absurd rfl (h same task json)
    | responding _ _ w' _ _ found _ hfound haborted =>
      obtain rfl : request = found := Option.mem_unique hr hfound
      exact Or.inr ⟨e, w', rfl, haborted⟩

/-- A failure of a request in flight runs its failure block. -/
theorem step_failed {w : World Data} {task : ℕ} {request : Request}
    (hr : w.request task = some request) (error : NSError) :
    (running w).step (.failed task error) =
      running ((finishOperation (completed w request)).record (.alerted error)) := by
  -- nothing in the failure block raises
  have hends : Ends (perform (.failed task error)) w
      (fun _ w' => w' = (finishOperation (completed w request)).record (.alerted error))
      (fun _ _ => False) := by
    simp only [perform, ends_bind, ends_get, hr, ends_set]
    exact ends_of_run (failure_run error) rfl
  obtain ⟨_,w',hrun,rfl⟩ := hends.exists_ok
  exact congrArg ofResult hrun

omit [JSONSerialization Data] in
theorem eq_running {p : Process Data} {w : World Data} (h : p.world? = some w) :
    p = running w := by
  cases p with
  | terminated disk reason => contradiction
  | running v => exact congrArg running (Option.some.inj h)

omit [JSONSerialization Data] in
theorem exists_running {p : Process Data} (h : p.world?.isSome = true) :
    ∃ w, p = running w := by
  obtain ⟨w,hw⟩ := Option.isSome_iff_exists.mp h
  exact ⟨w, eq_running hw⟩

/-- `D` holds of what survives the process, and `I` of the running app. -/
def Holds (D : Disk Data → Prop) (I : World Data → Prop) : Process Data → Prop
  | terminated disk _ => D disk
  | running w => D w.toDisk ∧ I w

omit [JSONSerialization Data] in
theorem Holds.disk {D : Disk Data → Prop} {I : World Data → Prop} {p : Process Data}
    (h : p.Holds D I) : D p.disk := by
  cases p with
  | terminated disk reason => exact h
  | running w => exact h.1

omit [JSONSerialization Data] in
theorem holds_of_disk {D : Disk Data → Prop} {p : Process Data} (h : D p.disk) :
    p.Holds D (fun _ => True) := by
  cases p with
  | terminated disk reason => exact h
  | running w => exact ⟨h, trivial⟩

/-- What a launch, a turn and an abort each have to preserve. The condition `C` is about
the turns of the running app. -/
structure Preserved (D : Disk Data → Prop) (I : World Data → Prop)
    (C : World Data → Action → Prop) : Prop where
  launched : ∀ {same disk w'}, D disk → Launched same disk w' → D w'.toDisk ∧ I w'
  seeded : ∀ {disk}, D disk → D (seededDisk disk)
  turned : ∀ {w a w'}, D w.toDisk → I w → C w a → Turn a w w' → D w'.toDisk ∧ I w'
  aborted : ∀ {w a e disk}, D w.toDisk → I w → C w a → TurnAborted a w e disk → D disk

/-- A condition on the turns, read on processes. -/
def When (C : World Data → Action → Prop) : Process Data → Action → Prop
  | terminated _ _, _ => True
  | running w, a => C w a

instance (C : World Data → Action → Prop) [∀ w a, Decidable (C w a)] :
    ∀ p a, Decidable (When C p a)
  | terminated _ _, _ => isTrue trivial
  | running w, a => inferInstanceAs (Decidable (C w a))

theorem Preserved.step {D : Disk Data → Prop} {I : World Data → Prop}
    {C : World Data → Action → Prop} (h : Preserved D I C) {p : Process Data} {a : Action}
    (hp : p.Holds D I) (hc : When C p a) : (p.step a).Holds D I := by
  have hs := step_cases p a
  generalize p.step a = q at hs
  -- one case a constructor of `Step`, each answered by a field of `h`
  cases hs with
  | launched _ same w' hl => exact h.launched hp.disk hl
  | launchAborted _ same x => exact h.seeded hp.disk
  | off disk reason => exact hp
  | turned w w' _ _ ht => exact h.turned hp.1 hp.2 hc ht
  | aborted w _ e disk _ ht => exact h.aborted hp.1 hp.2 hc ht

/-- The run rule of the app. -/
theorem Preserved.run {D : Disk Data → Prop} {I : World Data → Prop}
    {C : World Data → Action → Prop} (h : Preserved D I C) {p : Process Data}
    {actions : List Action} (hp : p.Holds D I)
    (hc : Transition.Meets Process.step (When C) p actions) : (p.run actions).Holds D I :=
  Transition.run_invariant Process.step (fun _ _ => h.step) hp hc

omit [JSONSerialization Data] in
theorem when_of_forall {C : World Data → Action → Prop} {a : Action} (h : ∀ w, C w a)
    (p : Process Data) : When C p a := by
  cases p with
  | terminated disk reason => trivial
  | running w => exact h w

/-- The run rule for a condition on the actions alone. -/
theorem Preserved.run_of_actions {D : Disk Data → Prop} {I : World Data → Prop}
    {C : Action → Prop} (h : Preserved D I (fun _ a => C a)) {p : Process Data}
    {actions : List Action} (hp : p.Holds D I) (hc : ∀ a ∈ actions, C a) :
    (p.run actions).Holds D I := by
  apply h.run hp
  have hm := Transition.meets_of_forall_label Process.step C p actions hc
  exact hm.mono Process.step (fun q a hq => when_of_forall (fun _ => hq) q)

/-- The run rule for an invariant of every step. -/
theorem Preserved.run_always {D : Disk Data → Prop} {I : World Data → Prop}
    (h : Preserved D I (fun _ _ => True)) {p : Process Data} (hp : p.Holds D I)
    (actions : List Action) : (p.run actions).Holds D I :=
  h.run_of_actions hp (fun _ _ => trivial)

end Process

end CurrencyConverter
