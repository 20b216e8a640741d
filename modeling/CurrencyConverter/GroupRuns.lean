import CurrencyConverter.TransferSteps
import CurrencyConverter.JSONTokens

/-! The global group over whole runs: what its count stands for, when every request leaves
the group it entered, and when a batch is reported. -/
namespace CurrencyConverter
open JSONTree Token WaitGroup

variable {Data : Type} {w : World Data}

/-- The requests in flight that entered `g`. -/
def members (w : World Data) (g : ℕ) : ℕ := w.requests.countP (fun r => r.issue.group = g)

/-- Every group counts its requests in flight and the ones that failed; group numbers not
given out yet are unused. -/
structure Counted (w : World Data) (leaked : ℕ → ℕ) : Prop where
  accounted : Accounted w.groups (members w) leaked
  issued : ∀ r ∈ w.requests, r.issue.group < w.groups.next
  fresh : ∀ g, w.groups.next ≤ g → leaked g = 0

/-- What holds of every running app: the groups are counted, and the global points to one. -/
def Grouped (w : World Data) : Prop :=
  (∃ leaked, Counted w leaked) ∧ ∃ g, w.group = some g ∧ g < w.groups.next

theorem Grouped.congr {w' : World Data} (hw : Grouped w) (hgroups : w'.groups = w.groups)
    (hgroup : w'.group = w.group) (hrequests : w'.requests = w.requests) : Grouped w' := by
  obtain ⟨⟨leaked,hcounted⟩,g,hg,hlt⟩ := hw
  have hmembers : members w' = members w := by
    funext i
    rw [members, hrequests, members]
  refine ⟨⟨leaked, ?_, ?_, ?_⟩, g, hgroup.trans hg, by rwa [hgroups]⟩
  · rw [hgroups, hmembers]
    exact hcounted.accounted
  · rw [hgroups, hrequests]
    exact hcounted.issued
  · rw [hgroups]
    exact hcounted.fresh

theorem members_cons (r : Request) (requests : List Request) (g : ℕ) :
    (r :: requests).countP (fun r => r.issue.group = g) =
      Function.update (fun g => requests.countP (fun r => r.issue.group = g)) r.issue.group
        (requests.countP (fun s => s.issue.group = r.issue.group)+1) g := by
  by_cases h : g = r.issue.group
  · subst h
    simp
  · simp [Function.update_of_ne h, Ne.symm h]

theorem members_erase {r : Request} (hr : r ∈ w.requests) :
    members (completed w r) =
      Function.update (members w) r.issue.group (members w r.issue.group-1) := by
  funext g
  have hcount := List.countP_erase (fun s : Request => s.issue.group = g) w.requests r
  by_cases h : g = r.issue.group
  · subst h
    simpa [members, completed, hr] using hcount
  · simpa [members, completed, Function.update_of_ne h, Ne.symm h] using hcount

theorem members_pos {r : Request} (hr : r ∈ w.requests) : 0 < members w r.issue.group :=
  List.countP_pos_iff.mpr ⟨r, hr, by simp⟩

theorem Counted.enterAndIssue {leaked : ℕ → ℕ} (hw : Counted w leaked) {g : ℕ}
    (hg : g < w.groups.next) (base : NSString) (needed : Bool) :
    Counted (enterAndIssue w g base needed) leaked := by
  refine ⟨?_, ?_, hw.fresh⟩
  · have henter := hw.accounted.enter g
    intro i
    have hi := henter i
    rw [show members (CurrencyConverter.enterAndIssue w g base needed) i =
      Function.update (members w) g (members w g+1) i from members_cons _ w.requests i]
    exact hi
  · intro r hr
    rcases List.mem_cons.mp hr with rfl | hr
    · exact hg
    · exact hw.issued r hr

theorem Counted.openGroup {leaked : ℕ → ℕ} (hw : Counted w leaked) :
    Counted (openGroup w) leaked := by
  -- no request in flight has the number of the new group
  have hnone : members w w.groups.next = 0 := by
    apply List.countP_eq_zero.mpr
    intro r hr
    have := hw.issued r hr
    simp only [decide_eq_true_eq]
    omega
  refine ⟨hw.accounted.create hnone (hw.fresh _ (le_refl _)), ?_, ?_⟩
  · intro r hr
    exact Nat.lt_succ_of_lt (hw.issued r hr)
  · intro g hg
    exact hw.fresh g (Nat.le_of_succ_le hg)

theorem Counted.issueBatch {leaked : ℕ → ℕ} {g : ℕ} (currencies : List NSString)
    (hw : Counted w leaked) (hg : g < w.groups.next) :
    Counted (issueBatch w g currencies) leaked ∧
      (issueBatch w g currencies).groups.next = w.groups.next := by
  induction currencies generalizing w with
  | nil => exact ⟨hw, rfl⟩
  | cons base currencies ih => exact ih (hw.enterAndIssue hg base false) hg

theorem Counted.startBatch {leaked : ℕ → ℕ} (hw : Counted w leaked)
    (currencies : List NSString) : Grouped (startBatch w currencies) := by
  have hlt : w.groups.next < (CurrencyConverter.openGroup w).groups.next := Nat.lt_succ_self _
  obtain ⟨hissued,hnext⟩ := hw.openGroup.issueBatch currencies hlt
  have hnotify := WaitGroup.Table.notify_next
    (CurrencyConverter.issueBatch (CurrencyConverter.openGroup w) w.groups.next currencies).groups
    w.groups.next
  refine ⟨⟨leaked, hissued.accounted.notify _, ?_, ?_⟩, w.groups.next, ?_, ?_⟩
  · intro r hr
    have := hissued.issued r hr
    exact this.trans_eq hnotify.symm
  · intro g hg
    exact hissued.fresh g (hnotify.symm.trans_le hg)
  · exact issueBatch_group (w := CurrencyConverter.openGroup w) _ _
  · calc w.groups.next
        < (CurrencyConverter.openGroup w).groups.next := hlt
      _ = (CurrencyConverter.issueBatch (CurrencyConverter.openGroup w) w.groups.next
            currencies).groups.next := hnext.symm
      _ = (CurrencyConverter.startBatch w currencies).groups.next := hnotify.symm

def Event.ofGroup : Event → Bool
  | .left _ _ => true
  | .receivedRateLists _ => true
  | _ => false

/-- The leaves and the reports, newest first. -/
def groupEvents (history : List Event) : List Event := history.filter Event.ofGroup

/-- How often a batch of group `g` has been reported. -/
def reports (history : List Event) (g : ℕ) : ℕ := history.count (.receivedRateLists g)

theorem reports_groupEvents (history : List Event) (g : ℕ) :
    reports (groupEvents history) g = reports history g := List.count_filter rfl

theorem left_mem_groupEvents {history : List Event} {r : Request} {g : ℕ} :
    Event.left r g ∈ groupEvents history ↔ Event.left r g ∈ history := by
  simp [groupEvents, Event.ofGroup]

theorem reports_cons_other {e : Event} (history : List Event) (g : ℕ)
    (he : e ≠ .receivedRateLists g) : reports (e :: history) g = reports history g :=
  List.count_cons_of_ne he

theorem groupEvents_replicate (n g : ℕ) (history : List Event) :
    groupEvents (List.replicate n (.receivedRateLists g) ++ history) =
      List.replicate n (.receivedRateLists g) ++ groupEvents history := by
  simp [groupEvents, Event.ofGroup]

theorem reports_replicate (n g i : ℕ) (history : List Event) :
    reports (List.replicate n (.receivedRateLists g) ++ history) i =
      (if g = i then n else 0) + reports history i := by
  by_cases h : g = i
  · simp [reports, h]
  · simp [reports, List.count_replicate, h]

/-- What a completion does to the groups: the global one is left once. -/
structure LeftOnce (request : Request) (w w' : World Data) where
  group : ℕ
  fired : ℕ
  current : w.group = some group
  leave : w.groups.leave group = some (fired, w'.groups)
  kept : w'.group = w.group
  events : groupEvents w'.history =
    List.replicate fired (.receivedRateLists group) ++
      .left request group :: groupEvents w.history

section
variable [JSONSerialization Data]

/-- Up to its leave the success block touches no group. -/
theorem exchanged_groups {same : Bool} {request : Request} {rateList : UnmanagedRateList Data}
    {refreshed exchanged : World Data}
    (hs : Stored same request.currency rateList (finishOperation w) refreshed)
    (hx : Exchanged request.currency refreshed request.performExchange exchanged) :
    exchanged.group = w.group ∧ exchanged.groups = w.groups ∧
      groupEvents exchanged.history = groupEvents w.history := by
  obtain ⟨realm,modifications,rfl,-,-⟩ := hs.frame
  generalize request.performExchange = needed at hx
  cases hx with
  | notNeeded => exact ⟨rfl, rfl, rfl⟩
  | rejected => exact ⟨rfl, rfl, rfl⟩
  | committed => exact ⟨rfl, rfl, rfl⟩

theorem Succeeded.leftOnce {same : Bool} {request : Request} {json : Option JSON}
    {w' : World Data} (h : Succeeded same request json w w') :
    Nonempty (LeftOnce request w w') := by
  obtain ⟨hgroup,hgroups,hevents⟩ := exchanged_groups h.stored h.exchange
  have hl := h.left
  generalize h.exchanged = exchanged at hgroup hgroups hevents hl
  cases hl with
  | mk group fired groups hg hl =>
    refine ⟨⟨group, fired, hgroup.symm.trans hg, hgroups ▸ hl, hgroup, ?_⟩⟩
    rw [← hevents]
    exact groupEvents_replicate fired group _

/-- A response is handled in the group its request entered: no batch was started since. -/
def Prompt (w : World Data) : Action → Prop
  | .responded _ task _ => ∀ r ∈ w.requests, w.request task = some r →
    w.group = some r.issue.group
  | _ => True

omit [JSONSerialization Data] in
theorem Grouped.leftOnce {r : Request} {w' : World Data} (hw : Grouped w)
    (hr : r ∈ w.requests) (hgroup : w.group = some r.issue.group)
    (hrequests : w'.requests = (completed w r).requests)
    (h : LeftOnce r (completed w r) w') : Grouped w' := by
  obtain ⟨⟨leaked,hcounted⟩,-⟩ := hw
  have hsame : h.group = r.issue.group := Option.mem_unique h.current hgroup
  have hleave : w.groups.leave r.issue.group = some (h.fired, w'.groups) := hsame ▸ h.leave
  have hnext := Table.leave_next hleave
  have hmembers : members w' = members (completed w r) := by
    funext g
    rw [members, hrequests, members]
  refine ⟨⟨leaked, ?_, ?_, ?_⟩, r.issue.group, h.kept.trans hgroup, ?_⟩
  · rw [hmembers, members_erase hr]
    exact hcounted.accounted.leave hleave (members_pos hr)
  · intro s hs
    rw [hrequests] at hs
    exact (hcounted.issued s (List.mem_of_mem_erase hs)).trans_eq hnext.symm
  · intro g hg
    exact hcounted.fresh g (hnext.symm.trans_le hg)
  · exact (hcounted.issued r hr).trans_eq hnext.symm

omit [JSONSerialization Data] in
/-- A failed request is not left: it moves from the members of its group to the leaked. -/
theorem Grouped.failed {r : Request} (hw : Grouped w) (hr : r ∈ w.requests) :
    Grouped (completed w r) := by
  obtain ⟨⟨leaked,hcounted⟩,hcurrent⟩ := hw
  let leaked' := Function.update leaked r.issue.group (leaked r.issue.group+1)
  refine ⟨⟨leaked', ?_, ?_, ?_⟩, hcurrent⟩
  · rw [members_erase hr]
    exact hcounted.accounted.leak (members_pos hr)
  · intro s hs
    exact hcounted.issued s (List.mem_of_mem_erase hs)
  · intro g hg
    have hne : g ≠ r.issue.group := fun h => absurd (hcounted.issued r hr) (by
      rw [← h]
      exact not_lt.mpr hg)
    exact (Function.update_of_ne hne _ _).trans (hcounted.fresh g hg)

theorem Turn.grouped {a : Action} {w' : World Data} (h : Turn a w w') (hw : Grouped w)
    (hc : Prompt w a) : Grouped w' := by
  cases h with
  | pressed _ group top henabled hgroup htop =>
    obtain ⟨⟨leaked,hcounted⟩,g,hg,hlt⟩ := hw
    obtain rfl : g = group := Option.mem_unique hg hgroup
    have hrecord : Counted (w.record .pressed) leaked :=
      ⟨hcounted.accounted, hcounted.issued, hcounted.fresh⟩
    exact ⟨⟨leaked, hrecord.enterAndIssue hlt top true⟩, g, hgroup, hlt⟩
  | ticked =>
    obtain ⟨⟨leaked,hcounted⟩,-⟩ := hw
    exact hcounted.startBatch w.timer
  | responded same _ _ task json request hr h =>
    -- the request is still a member here, so its group is not empty
    obtain ⟨hleft⟩ := h.leftOnce
    have hmem := List.mem_of_find?_eq_some hr
    exact hw.leftOnce hmem (hc request hmem hr) h.requests hleft
  | failed _ task error request hr =>
    exact (hw.failed (List.mem_of_find?_eq_some hr)).congr rfl rfl rfl
  | _ => exact hw.congr rfl rfl rfl

omit [JSONSerialization Data] in
theorem startBatch_events (w : World Data) (currencies : List NSString) :
    ∃ fired, groupEvents (startBatch w currencies).history =
        List.replicate fired (.receivedRateLists w.groups.next) ++ groupEvents w.history ∧
      (fired ≠ 0 → ((startBatch w currencies).groups.group w.groups.next).count = 0) := by
  let issued := issueBatch (openGroup w) w.groups.next currencies
  have hhistory : groupEvents issued.history = groupEvents w.history :=
    issueBatch_frame (fun w => groupEvents w.history) (fun _ _ _ => rfl) _ currencies
  refine ⟨(issued.groups.notify w.groups.next).1, ?_, ?_⟩
  · rw [← hhistory]
    exact groupEvents_replicate _ _ _
  · intro hfired
    change ((issued.groups.notify w.groups.next).2.group w.groups.next).count = 0
    rw [Table.notify_count]
    rcases issued.groups.notify_blocks w.groups.next with ⟨hc,-,-⟩ | ⟨-,hz,-⟩
    · exact hc
    · exact (hfired hz).elim

omit [JSONSerialization Data] in
theorem startBatch_reported (w : World Data) (currencies : List NSString) {g : ℕ}
    (hg : reports (startBatch w currencies).history g ≠ reports w.history g) :
    ((startBatch w currencies).groups.group g).count = 0 := by
  rw [← reports_groupEvents (startBatch w currencies).history,
    ← reports_groupEvents w.history] at hg
  obtain ⟨fired,hevents,hzero⟩ := startBatch_events w currencies
  rw [hevents, reports_replicate] at hg
  -- only the new group can have been reported, and only on a count of zero
  by_cases hsame : w.groups.next = g
  · subst hsame
    apply hzero
    rintro rfl
    simp at hg
  · simp [hsame] at hg

/-- A report is delivered only when its group's count is zero. -/
theorem Turn.reported {a : Action} {w' : World Data} (h : Turn a w w') {g : ℕ}
    (hg : reports w'.history g ≠ reports w.history g) : (w'.groups.group g).count = 0 := by
  cases h with
  | ticked => exact startBatch_reported w w.timer hg
  | responded same _ _ task json request hr h =>
    obtain ⟨hleft⟩ := h.leftOnce
    rw [← reports_groupEvents w'.history, ← reports_groupEvents w.history] at hg
    have hother : reports (.left request hleft.group ::
        groupEvents (completed w request).history) g = reports (groupEvents w.history) g :=
      reports_cons_other _ g (by simp)
    rw [hleft.events, reports_replicate, hother] at hg
    by_cases hsame : hleft.group = g
    · rcases Table.leave_blocks hleft.leave with ⟨hc,-,-⟩ | ⟨-,hz,-⟩
      · rwa [hsame] at hc
      · simp [hz] at hg
    · simp [hsame] at hg
  | edited | pressed | failed =>
    exact (hg (reports_cons_other _ g (by simp))).elim
  | _ => exact (hg rfl).elim

theorem SuccessAborted.events {same : Bool} {request : Request} {json : Option JSON}
    {e : Abort} {w' : World Data} (h : SuccessAborted same request json w e w') :
    groupEvents w'.history = groupEvents w.history := by
  cases h with
  | parsing => rfl
  | storing => rfl
  | exchanging rateList _ x hp hs =>
    obtain ⟨realm,modifications,rfl,-,-⟩ := hs.frame
    rfl
  | leaving rateList refreshed _ _ hp hs hx => exact (exchanged_groups hs hx).2.2

theorem TurnAborted.events {a : Action} {e : Abort} {d : Disk Data}
    (h : TurnAborted a w e d) : groupEvents d.history = groupEvents w.history := by
  cases h with
  | responding same _ w' task json request _ hr h => exact h.events
  | _ => rfl

/-- Every leave so far hit the group its request had entered. -/
def LeftOwn (d : Disk Data) : Prop := ∀ r g, Event.left r g ∈ d.history → g = r.issue.group

omit [JSONSerialization Data] in
theorem LeftOwn.of_events {d e : Disk Data} (hd : LeftOwn d)
    (h : ∀ r g, Event.left r g ∈ groupEvents e.history →
      Event.left r g ∈ groupEvents d.history ∨ g = r.issue.group) : LeftOwn e := by
  intro r g hmem
  rcases h r g (left_mem_groupEvents.mpr hmem) with hold | hown
  · exact hd r g (left_mem_groupEvents.mp hold)
  · exact hown

omit [JSONSerialization Data] in
theorem LeftOwn.startBatch {d : Disk Data} (hd : LeftOwn d) (w : World Data)
    (hw : w.history = d.history) (currencies : List NSString) :
    LeftOwn (startBatch w currencies).toDisk := by
  obtain ⟨fired,hevents,-⟩ := startBatch_events w currencies
  apply hd.of_events
  intro r g hmem
  rw [hevents, List.mem_append, hw] at hmem
  rcases hmem with hfired | hold
  · exact absurd (List.eq_of_mem_replicate hfired) (by simp)
  · exact Or.inl hold

theorem Turn.leftOwn {a : Action} {w' : World Data} (h : Turn a w w') (hd : LeftOwn w.toDisk)
    (hc : Prompt w a) : LeftOwn w'.toDisk := by
  cases h with
  | ticked => exact hd.startBatch w rfl w.timer
  | responded same _ _ task json request hr h =>
    obtain ⟨hleft⟩ := h.leftOnce
    have hcurrent : w.group = some request.issue.group :=
      hc request (List.mem_of_find?_eq_some hr) hr
    have hsame : hleft.group = request.issue.group :=
      Option.mem_unique hleft.current hcurrent
    apply hd.of_events
    intro r g hmem
    rw [hleft.events, List.mem_append] at hmem
    rcases hmem with hfired | hmem
    · exact absurd (List.eq_of_mem_replicate hfired) (by simp)
    · rcases List.mem_cons.mp hmem with hnew | hold
      · obtain ⟨rfl,rfl⟩ := Event.left.inj hnew
        exact Or.inr hsame
      · exact Or.inl hold
  | _ => exact hd.of_events (fun _ _ hmem => Or.inl hmem)

theorem Launched.grouped {same : Identity} {d : Disk Data} {w' : World Data}
    (h : Launched same d w') (hd : LeftOwn d) : LeftOwn w'.toDisk ∧ Grouped w' := by
  cases h with
  | mk first top bottom hfirst htop hbottom =>
    have hnone : Counted (shownFirst d first top bottom) (fun _ => 0) := by
      refine ⟨accounted_initial, ?_, fun _ _ => rfl⟩
      intro r hr
      contradiction
    refine ⟨?_, ?_⟩
    · exact hd.startBatch (shownFirst d first top bottom) rfl (seededDisk d).realm.sortedKeys
    · exact (hnone.startBatch (seededDisk d).realm.sortedKeys).congr rfl rfl rfl

theorem preserved_grouped :
    Process.Preserved (LeftOwn : Disk Data → Prop) Grouped Prompt where
  launched hd hl := hl.grouped hd
  seeded hd := hd
  turned hd hw hc ht := ⟨ht.leftOwn hd hc, ht.grouped hw hc⟩
  aborted hd _ _ ha := hd.of_events (fun _ _ hmem => Or.inl (ha.events ▸ hmem))

/-- The two aborts libdispatch causes. -/
def Abort.ofGroup : Abort → Bool
  | .exception _ => false
  | .nullGroup => true
  | .unbalancedLeave => true

theorem TurnAborted.not_ofGroup {a : Action} {e : Abort} {d : Disk Data}
    (h : TurnAborted a w e d) (hw : Grouped w) (hc : Prompt w a) : e.ofGroup = false := by
  obtain ⟨⟨leaked,hcounted⟩,current,hcurrent,-⟩ := hw
  cases h with
  | filling => rfl
  | editing => rfl
  | pressing _ _ h =>
    rcases h with ⟨-,hnone⟩ | ⟨rfl,-⟩
    · exact absurd (hcurrent.symm.trans hnone) (by simp)
    · rfl
  | responding same _ w' task json request _ hr h =>
    cases h with
    | parsing => rfl
    | storing => rfl
    | exchanging => rfl
    | leaving rateList refreshed _ _ hp hs hx h =>
      have hmem := List.mem_of_find?_eq_some hr
      have hown : w.group = some request.issue.group := hc request hmem hr
      obtain ⟨hgroup,hgroups,-⟩ := exchanged_groups hs hx
      rcases h with ⟨-,hnone⟩ | ⟨-,g,hg,hleave⟩
      · rw [hgroup] at hnone
        exact absurd (hcurrent.symm.trans hnone) (by simp)
      · -- the request itself is still a member of its group
        rw [hgroup] at hg
        obtain rfl : request.issue.group = g := Option.mem_unique hown hg
        obtain ⟨fired,groups,hsome⟩ :=
          hcounted.accounted.leave_isSome (members_pos hmem)
        rw [hgroups] at hleave
        exact absurd (hsome.symm.trans hleave) (by simp)

theorem Process.step_not_ofGroup {p : Process Data} {a : Action}
    (hp : p.Holds LeftOwn Grouped) (habort : ∀ e, p.abort? = some e → e.ofGroup = false)
    (hc : Process.When Prompt p a) : ∀ e, (p.step a).abort? = some e → e.ofGroup = false := by
  have hs := p.step_cases a
  generalize p.step a = q at hs
  cases hs with
  | launched _ same w' h => simp [abort?]
  | launchAborted _ same x =>
    intro e he
    obtain rfl : Abort.exception x = e := Option.some.inj he
    rfl
  | off d reason => exact habort
  | turned w w' => simp [abort?]
  | aborted w _ e d _ h =>
    intro f hf
    obtain rfl : e = f := Option.some.inj hf
    exact h.not_ofGroup hp.2 hc

theorem Process.run_not_ofGroup (realm : Realm Data) (actions : List Action)
    (hm : Transition.Meets Process.step (Process.When Prompt) (.installed realm) actions) :
    ((Process.installed realm).run actions).Holds LeftOwn Grouped ∧
      ∀ e, ((Process.installed realm).run actions).abort? = some e → e.ofGroup = false := by
  have hstart : (Process.installed realm).Holds LeftOwn Grouped ∧
      ∀ e, (Process.installed realm).abort? = some e → e.ofGroup = false := by
    refine ⟨?_, ?_⟩
    · intro r g hmem
      contradiction
    · intro e he
      contradiction
  refine Transition.run_invariant (I := fun p : Process Data => p.Holds LeftOwn Grouped ∧
    ∀ e, p.abort? = some e → e.ofGroup = false) Process.step ?_ hstart hm
  rintro p a ⟨hp,habort⟩ hc
  exact ⟨preserved_grouped.step hp hc, step_not_ofGroup hp habort hc⟩

/-- A batch reported in a step has no request in flight after it. -/
theorem Process.step_reported {p : Process Data} {a : Action} {w' : World Data}
    (hstep : p.step a = .running w') (hw : Grouped w') {g : ℕ}
    (hg : reports w'.history g ≠ reports p.disk.history g) :
    ∀ r ∈ w'.requests, r.issue.group ≠ g := by
  have hzero : (w'.groups.group g).count = 0 := by
    have hs := p.step_cases a
    rw [hstep] at hs
    cases hs with
    | launched _ same _ h =>
      cases h with
      | mk first top bottom hfirst htop hbottom =>
        exact startBatch_reported (shownFirst p.disk first top bottom)
          (seededDisk p.disk).realm.sortedKeys hg
    | turned w _ _ _ h => exact h.reported hg
  obtain ⟨⟨leaked,hcounted⟩,-⟩ := hw
  have hnone := hcounted.accounted.members_eq_zero hzero
  intro r hr hgroup
  have hpos := members_pos hr
  rw [hgroup, hnone] at hpos
  contradiction

/-- What a run must keep of its groups: libdispatch aborts nothing, every leave hits the
group its request entered, and no batch is reported while a request of it is in flight. -/
structure GroupsKept (start : Process Data) (actions : List Action) : Prop where
  abort : (start.run actions).abort? ≠ some .nullGroup ∧
    (start.run actions).abort? ≠ some .unbalancedLeave
  own : ∀ r g, Event.left r g ∈ (start.run actions).disk.history → g = r.issue.group
  reported : ∀ before a after w' g, actions = before ++ a :: after →
    start.run (before ++ [a]) = .running w' →
    reports w'.history g ≠ reports (start.run before).disk.history g →
    ∀ r ∈ w'.requests, r.issue.group ≠ g

/-- The groups are kept in every run in which no response outlives its batch. -/
theorem groups_kept (realm : Realm Data) (actions : List Action)
    (hm : Transition.Meets Process.step (Process.When Prompt) (.installed realm) actions) :
    GroupsKept (.installed realm) actions := by
  obtain ⟨hholds,habort⟩ := Process.run_not_ofGroup realm actions hm
  refine ⟨⟨?_, ?_⟩, hholds.disk, ?_⟩
  · intro h
    exact Bool.noConfusion (habort _ h)
  · intro h
    exact Bool.noConfusion (habort _ h)
  · rintro before a after w' g rfl hrun hg
    -- the condition on the whole run is one on the run up to the reporting step
    have hsplit : before ++ a :: after = before ++ [a] ++ after := by simp
    rw [hsplit, Transition.meets_append] at hm
    have hprefix := (Process.run_not_ofGroup realm (before ++ [a]) hm.1).1
    rw [hrun] at hprefix
    have hstep : ((Process.installed realm).run before).step a = .running w' := by
      rw [← hrun]
      exact (Transition.run_concat Process.step _ before a).symm
    exact Process.step_reported hstep hprefix.2 hg

end

instance : ∀ (w : World Data) (a : Action), Decidable (Prompt w a)
  | w, .responded _ _ _ => inferInstanceAs (Decidable (∀ r ∈ w.requests, _))
  | _, .launch _ | _, .topScrollEnded _ _ | _, .bottomScrollEnded _ _ | _, .textEdited _ _
  | _, .exchangePressed | _, .timerFired | _, .failed _ _ | _, .notified _ _ => isTrue trivial

/-- The first batch is answered before the timer fires, and one request of the second. -/
def promptBatches : List Action :=
  [.launch .interned, .responded .interned 0 euroRates, .responded .interned 1 euroRates,
    .responded .interned 2 euroRates, .timerFired, .responded .interned 4 euroRates]

theorem groups_kept_promptBatches :
    GroupsKept (.installed (Realm.empty : Realm (List Token))) promptBatches :=
  groups_kept Realm.empty promptBatches (by decide +kernel)

/-- The timer fires while the first batch is in flight: its three responses leave the second
group, which is reported at once, and the next response aborts the process. -/
theorem tick_misdirects_leaves : ¬ ∀ actions : List Action,
    GroupsKept (.installed (Realm.empty : Realm (List Token))) actions := by
  intro hclaim
  have hkept := hclaim [.launch .interned, .timerFired, .responded .interned 0 euroRates,
    .responded .interned 1 euroRates, .responded .interned 2 euroRates,
    .responded .interned 3 euroRates]
  exact hkept.abort.2 (by decide +kernel)

end CurrencyConverter
