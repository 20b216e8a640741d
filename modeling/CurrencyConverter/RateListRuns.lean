import CurrencyConverter.RateListSteps

/-! The stored rate lists over whole runs: whose response each of them holds, and when every
row still belongs to a currency. -/
namespace CurrencyConverter
open JSONTree Token

variable {Data : Type} [JSONSerialization Data]

namespace Process

/-- The responses a run delivers to the store, oldest first, each with its request. -/
def responses (p : Process Data) : List Action → List (Request × RateList Data)
  | [] => []
  | a :: actions => (p.received a).toList ++ responses (p.step a) actions

theorem responses_concat (p : Process Data) (actions : List Action) (a : Action) :
    p.responses (actions ++ [a]) = p.responses actions ++ ((p.run actions).received a).toList := by
  induction actions generalizing p with
  | nil => simp [responses, run]
  | cons b actions ih => simp [responses, ih, run]

/-- The responses to requests for one currency. -/
def responsesFor (p : Process Data) (actions : List Action) (key : NSString) :
    List (Request × RateList Data) :=
  (p.responses actions).filter (fun x => x.1.currency = key)

theorem run_rateList (actions : List Action) :
    ((installed (Realm.empty : Realm Data)).run actions).disk.realm.rateList =
      KeyedWrites.writes (fun _ => none)
        (((installed (Realm.empty : Realm Data)).responses actions).map entry) := by
  -- from the end: the last action writes over what the run before it has written
  induction actions using List.reverseRecOn with
  | nil => rfl
  | append_singleton actions a ih =>
    have hstored : RequestsStored ((installed (Realm.empty : Realm Data)).run actions) :=
      requestsStored_of_run actions
    have hstep := step_rateList hstored a
    rw [run, Transition.run_concat, responses_concat, List.map_append, KeyedWrites.writes_append,
      ← ih]
    exact hstep

/-- A stored list is that of the response processed last. -/
theorem run_rateList_eq_last (actions : List Action) (key : NSString) :
    ((installed (Realm.empty : Realm Data)).run actions).disk.realm.rateList key =
      ((installed Realm.empty).responsesFor actions key).getLast?.map Prod.snd := by
  have hfilter (received : List (Request × RateList Data)) :
      KeyedWrites.ofKey key (received.map entry) =
        (received.filter (fun x => x.1.currency = key)).map entry := by
    rw [KeyedWrites.ofKey, List.filter_map]
    rfl
  rw [run_rateList, KeyedWrites.writes_eq, hfilter, List.getLast?_map, Option.map_map,
    Option.or_none]
  rfl

end Process

omit [JSONSerialization Data] in
/-- The last of a list in issue order has been issued last. -/
theorem eq_getLast_of_issued {received : List (Request × RateList Data)}
    {latest : Request × RateList Data} (hmem : latest ∈ received)
    (hsorted : received.Pairwise (fun x y => x.1.taskIdentifier < y.1.taskIdentifier))
    (hlatest : ∀ x ∈ received, x.1.taskIdentifier ≤ latest.1.taskIdentifier) :
    received.getLast? = some latest := by
  obtain ⟨before,after,rfl⟩ := List.append_of_mem hmem
  have hafter : after = [] := by
    -- anything behind it would have been issued later still
    cases after with
    | nil => rfl
    | cons x after =>
      have hpair := (List.pairwise_append.mp hsorted).2.1
      have hlt := (List.pairwise_cons.mp hpair).1 x List.mem_cons_self
      have hle := hlatest x (by simp)
      omega
  rw [hafter, List.getLast?_concat]

/-- After every step the list stored for a currency is that of the response processed last for
it, none before the first; and where its responses have been processed in the order their
requests were issued, that of the request issued last among them. -/
theorem stored_list_is_last_processed (actions : List Action) (key : NSString) :
    let stored :=
      ((Process.installed (Realm.empty : Realm Data)).run actions).disk.realm.rateList key
    let received := (Process.installed (Realm.empty : Realm Data)).responsesFor actions key
    stored = received.getLast?.map Prod.snd ∧
      (received.Pairwise (fun x y => x.1.taskIdentifier < y.1.taskIdentifier) →
        ∀ latest ∈ received, (∀ x ∈ received, x.1.taskIdentifier ≤ latest.1.taskIdentifier) →
          stored = some latest.2) := by
  intro stored received
  have hlast : stored = received.getLast?.map Prod.snd := Process.run_rateList_eq_last actions key
  refine ⟨hlast, ?_⟩
  intro hsorted latest hmem hlatest
  rw [hlast, eq_getLast_of_issued hmem hsorted hlatest, Option.map_some]

/-- A step inserts a row only for a currency without a list. -/
def InsertsFirst (w : World Data) (a : Action) : Prop :=
  ∀ x ∈ w.inserted a, w.realm.rateList x.1.currency = none

instance (w : World Data) (a : Action) : Decidable (InsertsFirst w a) :=
  inferInstanceAs (Decidable (∀ x ∈ w.inserted a, w.realm.rateList x.1.currency = none))

/-- Every rate list in the store is the list of some currency, so there are not more of them
than currencies. -/
structure NoOrphans (realm : Realm Data) : Prop where
  owned : ∀ row < realm.rateLists.length, ∃ c ∈ realm.currencies, c.rateList = some row
  bounded : realm.rateLists.length ≤ realm.currencies.length

omit [JSONSerialization Data] in
theorem noOrphans_iff (realm : Realm Data) :
    NoOrphans realm ↔ LinkedRows.AllOwned realm.table := by
  constructor
  · intro h
    exact realm.allOwned_table_iff.mpr h.owned
  · intro h
    exact ⟨realm.allOwned_table_iff.mp h, Realm.length_rateLists_le h⟩

omit [JSONSerialization Data] in
theorem Realm.rateList_eq_none_iff (realm : Realm Data) (key : NSString) :
    realm.rateList key = none ↔ realm.listRow key = none := by
  rw [rateList_eq_listRow]
  cases hrow : realm.listRow key with
  | none => simp
  | some row =>
    -- a link points at a row
    obtain ⟨c,hc,hlink⟩ := Option.bind_eq_some_iff.mp hrow
    have hlt := realm.links c (KeyedRows.find_mem _ hc) row hlink
    simp [hlt]

namespace Process

/-- One step: rows stay sound, and an orphan appears exactly when a list is replaced. -/
theorem step_noOrphans_iff {p : Process Data} (hp : p.RequestsStored) (a : Action)
    (hs : LinkedRows.Sound p.disk.realm.table) :
    LinkedRows.Sound (p.step a).disk.realm.table ∧
      (NoOrphans (p.step a).disk.realm ↔ NoOrphans p.disk.realm ∧ When InsertsFirst p a) := by
  have htable := step_table hp a
  have hwhen : When InsertsFirst p a ↔
      ∀ x ∈ p.inserted a, p.disk.realm.rateList x.1.currency = none := by
    cases p with
    | terminated d reason => simp [When, inserted, world?]
    | running w => rfl
  rw [noOrphans_iff, noOrphans_iff, hwhen, htable]
  cases p.inserted a with
  | none => exact ⟨hs, by simp⟩
  | some x =>
    refine ⟨hs.assign x.1.currency, ?_⟩
    have hiff := hs.allOwned_assign_iff x.1.currency
    have hlink : p.disk.realm.table.link x.1.currency = none ↔
        p.disk.realm.rateList x.1.currency = none :=
      (p.disk.realm.rateList_eq_none_iff x.1.currency).symm
    simpa only [Option.mem_def, Option.some.injEq, forall_eq', hlink] using hiff

/-- Every link of a reachable store points at a row of its own. -/
theorem run_sound (actions : List Action) : LinkedRows.Sound
    ((installed (Realm.empty : Realm Data)).run actions).disk.realm.table := by
  induction actions using List.reverseRecOn with
  | nil => exact LinkedRows.sound_of_unlinked (fun _ => rfl)
  | append_singleton actions a ih =>
    have hstored : RequestsStored ((installed (Realm.empty : Realm Data)).run actions) :=
      requestsStored_of_run actions
    rw [run, Transition.run_concat]
    exact (step_noOrphans_iff hstored a ih).1

end Process

/-- After a run every rate list is the list of some currency if and only if no step of it
has inserted a list for a currency that had one. -/
theorem noOrphans_after_run_iff (actions : List Action) :
    NoOrphans ((Process.installed (Realm.empty : Realm Data)).run actions).disk.realm ↔
      Transition.Meets Process.step (Process.When InsertsFirst)
        (.installed (Realm.empty : Realm Data)) actions := by
  induction actions using List.reverseRecOn with
  | nil =>
    have hempty : NoOrphans (Realm.empty : Realm Data) :=
      ⟨fun row hrow => absurd hrow (Nat.not_lt_zero row), le_refl 0⟩
    exact iff_of_true hempty trivial
  | append_singleton actions a ih =>
    let p := (Process.installed (Realm.empty : Realm Data)).run actions
    -- an orphan stays one, so the run so far and its last step decide together
    have hstep : NoOrphans (p.step a).disk.realm ↔
        NoOrphans p.disk.realm ∧ Process.When InsertsFirst p a :=
      (Process.step_noOrphans_iff (Process.requestsStored_of_run actions) a
        (Process.run_sound actions)).2
    have hmeets : Transition.Meets Process.step (Process.When InsertsFirst) p [a] ↔
        Process.When InsertsFirst p a := and_iff_left trivial
    rw [Process.run, Transition.run_concat, Transition.meets_append, ← Process.run, hmeets,
      ← ih]
    exact hstep

/-- Newer rates for the euro. -/
def laterEuroRates : Option JSON :=
  some (ratesResponse "EUR".toList
    [("USD".toList, .number (11/10)), ("GBP".toList, .number (9/10))])

/-- The timer fires while the first request for euros is in flight, and the answers to the two
requests arrive in the other order. -/
def overtakenEuroRates : List Action :=
  [.launch .interned, .timerFired, .responded .interned 3 laterEuroRates,
    .responded .interned 0 euroRates]

/-- The older response arrives last and replaces the newer rates. -/
theorem older_response_overwrites : ¬ ∀ (actions : List Action) (key : NSString)
    (latest : Request × RateList (List Token)),
    latest ∈ (Process.installed Realm.empty).responsesFor actions key →
    (∀ x ∈ (Process.installed (Realm.empty : Realm (List Token))).responsesFor actions key,
      x.1.taskIdentifier ≤ latest.1.taskIdentifier) →
    ((Process.installed Realm.empty).run actions).disk.realm.rateList key = some latest.2 := by
  intro hclaim
  let received := (Process.installed (Realm.empty : Realm (List Token))).responsesFor
    overtakenEuroRates "EUR".toList
  have hissued : received.map (fun x => x.1.taskIdentifier) = [3, 0] := by decide +kernel
  have hlater : (receivedList laterEuroRates : Option (RateList (List Token))).map RateList.rates ≠
      (receivedList euroRates : Option (RateList (List Token))).map RateList.rates := by
    decide +kernel
  have hrates : received.map (fun x => some x.2.rates) =
      [(receivedList laterEuroRates).map RateList.rates,
        (receivedList euroRates).map RateList.rates] := by decide +kernel
  have hlast :
      ((Process.installed (Realm.empty : Realm (List Token))).run
        overtakenEuroRates).disk.realm.rateList "EUR".toList = received.getLast?.map Prod.snd :=
    Process.run_rateList_eq_last overtakenEuroRates "EUR".toList
  obtain ⟨first,second,hreceived⟩ := List.length_eq_two.mp (by
    simpa using congrArg List.length hissued)
  simp only [hreceived, List.map_cons, List.map_nil, List.cons.injEq, and_true] at hissued hrates
  have hstored := hclaim overtakenEuroRates "EUR".toList first (by
    change first ∈ received
    rw [hreceived]
    exact List.mem_cons_self) (by
    intro x hx
    change x ∈ received at hx
    rw [hreceived] at hx
    rcases List.mem_pair.mp hx with rfl | rfl
    · exact le_refl _
    · omega)
  rw [hlast, hreceived] at hstored
  have hsame : second.2 = first.2 := Option.some.inj hstored
  rw [← hrates.1, ← hrates.2, hsame] at hlater
  exact hlater rfl

/-- The euro's rates change between two answers, and the first list stays behind without a
currency. -/
theorem replaced_list_stays : ¬ ∀ actions : List Action, NoOrphans
    ((Process.installed (Realm.empty : Realm (List Token))).run actions).disk.realm := by
  intro hclaim
  let actions : List Action := [.launch .interned, .timerFired,
    .responded .interned 0 euroRates, .responded .interned 3 laterEuroRates]
  let realm := ((Process.installed (Realm.empty : Realm (List Token))).run actions).disk.realm
  have hrows : realm.rateLists.length = 2 := by decide +kernel
  have hlinks : ∀ c ∈ realm.currencies, c.rateList ≠ some 0 := by decide +kernel
  obtain ⟨c,hc,hrow⟩ := (hclaim actions).owned 0 (by
    change 0 < realm.rateLists.length
    omega)
  exact hlinks c hc hrow

end CurrencyConverter
