import CurrencyConverter.ObjectStore.IndexSetRooms

/-! Removing ranges of indexes from an index set, and adding or removing a whole set with one
pass of the iterator. -/
namespace ObjectStore

open SeparatedRanges ChunkedRangeVector

namespace IndexSet

variable {b : Build} {v : IndexSet} {it : Iterator} {l t : List Range} {start stop : ℕ}
  {S : Finset ℕ}

/-- The ranges a removal has to look at. -/
def meets (start stop : ℕ) (r : Range) : Bool := start < r.2 ∧ r.1 < stop

/-- What a removal leaves: the indexes outside of it, and an iterator behind what it passed. -/
def Removed (b : Build) (start stop : ℕ) (l t : List Range) (s : IndexSet × Iterator) : Prop :=
  ∃ l' t', At b s.1 s.2 l' t' ∧ Separated (l' ++ t') ∧ (∀ r ∈ l', r.2 ≤ stop) ∧
    ∀ x, Covers (l' ++ t') x ↔ Covers (l ++ t) x ∧ ¬ (start ≤ x ∧ x < stop)

theorem length_filter_meets {start start' : ℕ} (h : start ≤ start') (stop : ℕ)
    (l' t : List Range) : (t.filter (meets start' stop)).length ≤ ((l' ++ t).filter (meets start stop)).length := by
  rw [List.filter_append, List.length_append]
  have hsub : (t.filter (meets start' stop)).length ≤ (t.filter (meets start stop)).length := by
    rw [← List.countP_eq_length_filter, ← List.countP_eq_length_filter]
    apply List.countP_mono_left
    intro r _ hr
    simp only [meets, decide_eq_true_eq] at hr ⊢
    omega
  omega

theorem Removed.of_step {l' t' : List Range} {start' : ℕ} {s : IndexSet × Iterator}
    (h : Removed b start' stop l' t' s)
    (hc : ∀ x, (Covers (l' ++ t') x ∧ ¬ (start' ≤ x ∧ x < stop)) ↔
      Covers (l ++ t) x ∧ ¬ (start ≤ x ∧ x < stop)) : Removed b start stop l t s := by
  obtain ⟨l'',t'',hat,hs,hle,hx⟩ := h
  exact ⟨l'', t'', hat, hs, hle, fun x => (hx x).trans (hc x)⟩

/-- Nothing of what is left to look at meets the removal. -/
theorem removed_nothing (h : At b v it l t) (hs : Separated (l ++ t)) (hlt : start ≤ stop)
    (hl : ∀ r ∈ l, r.2 ≤ start) (ht : ∀ r ∈ t, stop ≤ r.1) :
    Removed b start stop l t (v, it) := by
  refine ⟨l, t, h, hs, fun r hr => Nat.le_trans (hl r hr) hlt, fun x => ⟨fun hx => ⟨hx, ?_⟩,
    fun hx => hx.1⟩⟩
  rintro ⟨h1,h2⟩
  rcases covers_append.mp hx with hx | hx
  · exact not_covers_of_le (fun r hr => Nat.le_trans (hl r hr) h1) hx
  · exact not_covers_of_lt (fun r hr => Nat.lt_of_lt_of_le h2 (ht r hr)) hx

theorem doRemove_spec (n : ℕ) (hlt : start < stop) (h : At b v it l t)
    (hs : Separated (l ++ t)) (hl : ∀ r ∈ l, r.2 ≤ start)
    (hn : (t.filter (meets start stop)).length ≤ n) :
    Removed b start stop l t (doRemove b stop n v it start) := by
  induction n generalizing v it l t start with
  | zero =>
    obtain ⟨l₁,t₁,rfl,hl₁,ht₁,hat⟩ := h.find hs hl
    have hmeets := List.filter_eq_nil_iff.mp (List.eq_nil_of_length_eq_zero (Nat.le_zero.mp hn))
    rw [← List.append_assoc] at hs
    have hll : ∀ r ∈ l ++ l₁, r.2 ≤ start := by
      intro r hr
      rcases List.mem_append.mp hr with hr | hr
      · exact hl r hr
      · exact hl₁ r hr
    rw [doRemove]
    apply (removed_nothing hat hs (Nat.le_of_lt hlt) hll _).of_step
    · intro x
      rw [List.append_assoc]
    · intro r hr
      have hfar : start < r.2 := by
        cases t₁ with
        | nil => simp at hr
        | cons r₁ t₂ =>
          have h1 := ht₁ r₁ t₂ rfl
          rcases List.mem_cons.mp hr with rfl | hr
          · exact h1
          · have hst := (separated_append.mp hs).2.1
            have := (separated_cons.mp hst).2.1 r hr
            have := hst.nonempty r (List.mem_cons_of_mem _ hr)
            omega
      have := hmeets r (List.mem_append_right l₁ hr)
      simp only [meets, decide_eq_true_eq] at this
      omega
  | succ n ih =>
    obtain ⟨l₁,t₁,rfl,hl₁,ht₁,hat⟩ := h.find hs hl
    have hll : ∀ r ∈ l ++ l₁, r.2 ≤ start := by
      intro r hr
      rcases List.mem_append.mp hr with hr | hr
      · exact hl r hr
      · exact hl₁ r hr
    have hcount := Nat.le_trans (length_filter_meets le_rfl stop l₁ t₁) hn
    rw [← List.append_assoc] at hs
    -- what the search skipped goes to the ranges behind the iterator
    suffices hgoal : Removed b start stop (l ++ l₁) t₁ (doRemove b stop (n+1) v it start) by
      apply hgoal.of_step
      intro x
      rw [List.append_assoc]
    generalize l ++ l₁ = q at *
    rw [doRemove]
    cases t₁ with
    | nil =>
      have hend := hat.eq_end_iff.mpr rfl
      simp only [hend, true_or, if_true]
      rw [← hend]
      exact removed_nothing hat hs (Nat.le_of_lt hlt) hll (by simp)
    | cons r t₁ =>
      obtain ⟨hsq,hst,hrr,hqr,hrt⟩ := separated_middle.mp hs
      have hr2 := ht₁ r t₁ rfl
      have hend : ¬ v.find start it = v.endIt := fun he => by simpa using hat.eq_end_iff.mp he
      have hqx (x : ℕ) : Covers q x → x < start ∧ x < r.1 := fun hc => by
        obtain ⟨s,hs',hx⟩ := hc
        have := hll s hs'
        have := hqr s hs'
        omega
      have htx (x : ℕ) : Covers t₁ x → r.2 < x := fun hc => by
        obtain ⟨s,hs',hx⟩ := hc
        have := hrt s hs'
        omega
      simp only [hat.deref_eq, hend, false_or]
      by_cases hstop : stop ≤ r.1
      · rw [if_pos hstop]
        apply removed_nothing hat hs (Nat.le_of_lt hlt) hll
        intro s hs'
        rcases List.mem_cons.mp hs' with rfl | hs'
        · exact hstop
        · have := hrt s hs'
          omega
      rw [if_neg hstop]
      have hr : meets start stop r = true := by simp [meets]; omega
      rw [List.filter_cons_of_pos hr, List.length_cons] at hcount
      by_cases hboth : r.1 < max r.1 start ∧ stop < r.2
      · -- the range sticks out on both sides and is split
        rw [if_pos hboth]
        have hmax : max r.1 start = start := by omega
        rw [hmax]
        have h₁ := hat.setAt r.1 start
        have hnew : Separated ((q ++ [(r.1,start)]) ++ (stop,r.2) :: t₁) := by
          refine separated_middle.mpr ⟨separated_middle.mpr ⟨hsq, separated_nil,
            show r.1 < start by omega, hqr, by simp⟩, hst, hboth.2, ?_, hrt⟩
          intro s hs'
          rcases List.mem_append.mp hs' with hs' | hs'
          · have := hqr s hs'
            change s.2 < stop
            omega
          · rw [List.mem_singleton.mp hs']
            exact hlt
        have h₂ := (h₁.next.insert hnew).prev
        rw [List.append_assoc] at hnew
        apply (ih hlt h₂ hnew hll _).of_step
        · intro x
          have := hqx x
          have := htx x
          simp only [covers_append, covers_cons]
          grind
        · have hrest : (t₁.filter (meets start stop)).length = 0 := by
            rw [List.length_eq_zero_iff, List.filter_eq_nil_iff]
            intro s hs'
            have := hrt s hs'
            simp only [meets, decide_eq_true_eq]
            omega
          rw [List.filter_cons_of_neg (by simp [meets]), List.filter_cons_of_neg (by simp [meets]),
            hrest]
          omega
      rw [if_neg hboth]
      by_cases hwhole : max r.1 start = r.1 ∧ r.2 ≤ stop
      · rw [if_pos hwhole, hwhole.1]
        have hs₁ : Separated (q ++ t₁) := separated_append.mpr ⟨hsq, hst, fun s hs' u hu => by
          have := hqr s hs'
          have := hrt u hu
          omega⟩
        apply (ih (by omega) hat.erase hs₁ (fun s hs' => Nat.le_of_lt (hqr s hs')) _).of_step
        · intro x
          have := hqx x
          have := htx x
          simp only [covers_append, covers_cons]
          grind
        · have := length_filter_meets (show start ≤ r.1 by omega) stop [] t₁
          rw [List.nil_append] at this
          omega
      rw [if_neg hwhole]
      by_cases hbegin : max r.1 start = r.1
      · rw [if_pos hbegin, hbegin]
        have h₁ := hat.setAt stop r.2
        have hs₁ : Separated (q ++ (stop,r.2) :: t₁) := by
          refine separated_middle.mpr ⟨hsq, hst, show stop < r.2 by omega, ?_, hrt⟩
          intro s hs'
          have := hqr s hs'
          change s.2 < stop
          omega
        apply (ih (by omega) h₁ hs₁ (fun s hs' => Nat.le_of_lt (hqr s hs')) _).of_step
        · intro x
          have := hqx x
          have := htx x
          simp only [covers_append, covers_cons]
          grind
        · have := length_filter_meets (show start ≤ r.1 by omega) stop [] t₁
          rw [List.nil_append] at this
          rw [List.filter_cons_of_neg (by simp [meets])]
          omega
      · rw [if_neg hbegin]
        have hmax : max r.1 start = start := by omega
        rw [hmax]
        have h₁ := hat.setAt r.1 start
        have hs₁ : Separated (q ++ (r.1,start) :: t₁) := by
          refine separated_middle.mpr ⟨hsq, hst, show r.1 < start by omega, hqr, ?_⟩
          intro s hs'
          have := hrt s hs'
          change start < s.1
          omega
        apply (ih hlt h₁ hs₁ hll _).of_step
        · intro x
          have := hqx x
          have := htx x
          simp only [covers_append, covers_cons]
          grind
        · rw [List.filter_cons_of_neg (by simp [meets])]
          omega

theorem remove_represents (h : Represents b v S) (index : ℕ) {count : ℕ} (hcount : 0 < count) :
    Represents b (v.remove b index count) (S \ Finset.Ico index (index+count)) := by
  obtain ⟨l,t,hlt,hs,hl,_,hat,hc⟩ := h.find index
  have hfuel : (t.filter (meets index (index+count))).length ≤ v.ranges.length+1 := by
    have := List.length_filter_le (meets index (index+count)) t
    rw [hlt, List.length_append]
    omega
  obtain ⟨l',t',hat',hs',_,hx⟩ := doRemove_spec (v.ranges.length+1) (by omega) hat hs hl hfuel
  apply At.represents hat' hs'
  intro x
  rw [hx, hc, Finset.mem_sdiff, Finset.mem_Ico]

/-- The removals of all ranges share one iterator, which stops behind each range in turn. -/
theorem removeAll_go (ranges : List Range) (h : At b v it l t) (hs : Separated (l ++ t))
    (hr : Separated ranges) (hl : ∀ r ∈ l, ∀ s ∈ ranges, r.2 ≤ s.1)
    (hS : ∀ x, Covers (l ++ t) x ↔ x ∈ S) :
    Represents b (removeAll.go b v it ranges) (S \ members ranges) := by
  induction ranges generalizing v it l t S with
  | nil =>
    rw [removeAll.go, members, indexes_nil, List.toFinset_nil, Finset.sdiff_empty]
    exact At.represents h hs hS
  | cons range rest ih =>
    obtain ⟨hrange,hrest,hsr⟩ := separated_cons.mp hr
    have hfuel : (t.filter (meets range.1 range.2)).length ≤ v.ranges.length+1 := by
      have := List.length_filter_le (meets range.1 range.2) t
      rw [h.ranges_eq, List.length_append]
      omega
    obtain ⟨l',t',hat,hs',hle,hx⟩ := doRemove_spec (v.ranges.length+1) hrange h hs
      (fun r hr => hl r hr range List.mem_cons_self) hfuel
    have hS' : ∀ x, Covers (l' ++ t') x ↔ x ∈ S \ Finset.Ico range.1 range.2 := by
      intro x
      rw [hx, hS, Finset.mem_sdiff, Finset.mem_Ico]
    have hset : S \ members (range :: rest) = (S \ Finset.Ico range.1 range.2) \ members rest := by
      ext x
      simp only [Finset.mem_sdiff, mem_members, covers_cons, Finset.mem_Ico, not_or, and_assoc]
    rw [removeAll.go, hset]
    by_cases hend : (doRemove b range.2 (v.ranges.length+1) v it range.1).2 =
        (doRemove b range.2 (v.ranges.length+1) v it range.1).1.endIt
    · -- nothing is left behind the iterator for the ranges to come
      rw [if_pos hend]
      have ht' := hat.eq_end_iff.mp hend
      apply At.represents hat hs'
      intro x
      rw [hS', Finset.mem_sdiff (t := members rest), mem_members]
      refine ⟨fun hx' => ⟨hx', ?_⟩, fun hx' => hx'.1⟩
      rintro ⟨s,hs,h1,h2⟩
      rw [← hS', ht', List.append_nil] at hx'
      obtain ⟨r,hr,hx'⟩ := hx'
      have := hle r hr
      have := hrest s hs
      omega
    · rw [if_neg hend]
      refine ih hat hs' hsr ?_ hS'
      intro r hr s hs
      have := hle r hr
      have := hrest s hs
      omega

theorem removeAll_represents {values : IndexSet} {V : Finset ℕ} (h : Represents b v S)
    (hV : Represents b values V) : Represents b (v.removeAll b values) (S \ V) := by
  have hat := at_begin h.verified
  have hgo := removeAll_go values.ranges hat (by rw [List.nil_append]; exact h.separated)
    hV.separated (by simp) (by rw [List.nil_append]; exact h.covers_iff)
  have hmembers : members values.ranges = V := hV.indices_eq
  rwa [hmembers] at hgo

/-- The additions share one iterator as well. -/
theorem addAll_foldl (L : List ℕ) (h : At b v it l t) (hs : Separated (l ++ t))
    (hL : L.Pairwise (· < ·)) (hl : ∀ r ∈ l, ∀ i ∈ L, r.2 ≤ i)
    (hS : ∀ x, Covers (l ++ t) x ↔ x ∈ S) :
    Represents b (L.foldl (fun s index => s.1.doAdd b (s.1.find index s.2) index) (v, it)).1
      (L.toFinset ∪ S) := by
  induction L generalizing v it l t S with
  | nil =>
    rw [List.foldl_nil, List.toFinset_nil, Finset.empty_union]
    exact At.represents h hs hS
  | cons i L ih =>
    obtain ⟨hi,hL⟩ := List.pairwise_cons.mp hL
    have hli : ∀ r ∈ l, r.2 ≤ i := fun r hr => hl r hr i List.mem_cons_self
    obtain ⟨l₁,t₁,rfl,hl₁,ht₁,hat⟩ := h.find hs hli
    rw [← List.append_assoc] at hs
    have hll : ∀ r ∈ l ++ l₁, r.2 ≤ i := by
      intro r hr
      rcases List.mem_append.mp hr with hr | hr
      · exact hli r hr
      · exact hl₁ r hr
    obtain ⟨l',r',t',hat',hs',hr1,_,hc,_⟩ := doAdd_spec hat hs hll ht₁
    have hset : (i :: L).toFinset ∪ S = L.toFinset ∪ insert i S := by
      rw [List.toFinset_cons, Finset.insert_union, Finset.union_insert]
    rw [List.foldl_cons, hset]
    refine ih hat' hs' hL ?_ ?_
    · intro r hr j hj
      have := (separated_middle.mp hs').2.2.2.1 r hr
      have := hi j hj
      omega
    · intro x
      rw [hc, Finset.mem_insert, List.append_assoc, hS]

theorem addAll_represents {other : IndexSet} {V : Finset ℕ} (h : Represents b v S)
    (hV : Represents b other V) : Represents b (v.addAll b other) (S ∪ V) := by
  have hgo := addAll_foldl other.asIndexes (at_begin h.verified)
    (by rw [List.nil_append]; exact h.separated) hV.asIndexes_sorted (by simp)
    (by rw [List.nil_append]; exact h.covers_iff)
  have hset : other.asIndexes.toFinset = V := by
    ext x
    rw [List.mem_toFinset, hV.mem_asIndexes]
  rw [hset, Finset.union_comm] at hgo
  exact hgo

end IndexSet

end ObjectStore
