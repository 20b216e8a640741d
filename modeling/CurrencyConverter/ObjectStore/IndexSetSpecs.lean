import CurrencyConverter.ObjectStore.IndexSet
import CurrencyConverter.ObjectStore.ChunkPositions
import CurrencyConverter.IndexShift

/-! Each operation of an index set against the set of its indexes. -/
namespace ObjectStore

open SeparatedRanges ChunkedRangeVector

namespace IndexSet

variable {b : Build} {v : IndexSet} {it : Iterator} {l t : List Range} {index : ℕ}

/-- The indexes of a set. -/
def indices (v : IndexSet) : Finset ℕ := members v.ranges

/-- A vector that passes its checks and holds the indexes `S`. -/
structure Represents (b : Build) (v : IndexSet) (S : Finset ℕ) : Prop where
  verified : v.Verified b
  indices_eq : indices v = S

theorem At.represents (h : At b v it l t) (hs : Separated (l ++ t)) {S : Finset ℕ}
    (hS : ∀ x, Covers (l ++ t) x ↔ x ∈ S) : Represents b v S := by
  refine ⟨h.verified hs, ?_⟩
  ext x
  rw [indices, mem_members, h.ranges_eq, hS]

/-- The search from the beginning splits a verified vector at the index. -/
theorem find_spec (h : v.Verified b) (index : ℕ) : ∃ l t, v.ranges = l ++ t ∧
    Separated (l ++ t) ∧ (∀ r ∈ l, r.2 ≤ index) ∧ (∀ r q, t = r :: q → index < r.2) ∧
      At b v (v.find index beginIt) l t := by
  have hs := h.separated
  obtain ⟨l,t,ht,hl,hhead,hat⟩ := (at_begin h).find (by rwa [List.nil_append]) (by simp)
  exact ⟨l, t, ht, by rwa [← ht], hl, hhead, by rwa [List.nil_append] at hat⟩

/-- The index is in the set now and the iterator is at its range. An index apart from the
ranges behind it leaves those as they were. -/
def Added (b : Build) (index : ℕ) (l t : List Range) (s : IndexSet × Iterator) : Prop :=
  ∃ l' r' t', At b s.1 s.2 l' (r' :: t') ∧ Separated (l' ++ r' :: t') ∧
    r'.1 ≤ index ∧ index < r'.2 ∧
    (∀ x, Covers (l' ++ r' :: t') x ↔ x = index ∨ Covers (l ++ t) x) ∧
    ((∀ r q, t = r :: q → index+1 < r.1) → t' = t ∧ r'.2 = index+1)

theorem doAdd_present {r : Range} (h : At b v it l (r :: t)) (hs : Separated (l ++ r :: t))
    (h1 : r.1 ≤ index) (h2 : index < r.2) : Added b index l (r :: t) (v.doAdd b it index) := by
  have hval : v.doAdd b it index = (v, it) := by
    rw [doAdd]
    simp [h.eq_end_iff, h.deref_eq, h1, h2]
  rw [hval]
  refine ⟨l, r, t, h, hs, h1, h2, ?_, ?_⟩
  · intro x
    constructor
    · exact Or.inr
    · rintro (rfl | hx)
      · exact covers_append.mpr (Or.inr (covers_cons.mpr (Or.inl ⟨h1, h2⟩)))
      · exact hx
  · intro hnext
    have := hnext r t rfl
    omega

/-- The index is next to a range on both sides. -/
theorem doAdd_joins {p r : Range} (h : At b v it (l ++ [p]) (r :: t))
    (hs : Separated ((l ++ [p]) ++ r :: t)) (hp : p.2 = index) (hr : r.1 = index+1) :
    Added b index (l ++ [p]) (r :: t) (v.doAdd b it index) := by
  obtain ⟨hsl,hst,hlt⟩ := separated_append.mp hs
  obtain ⟨hsl₀,_,hpp,hl₀,_⟩ := separated_middle.mp hsl
  obtain ⟨hrr,hrq,hsq⟩ := separated_cons.mp hst
  have hbegin : it ≠ beginIt := fun he => by simpa using h.eq_begin_iff.mp he
  have hend : it ≠ v.endIt := fun he => by simpa using h.eq_end_iff.mp he
  have h₁ : At b (v.adjustAt (v.prev it) 0 1) (v.prev it) l ((p.1,index+1) :: r :: t) := by
    apply h.prev.adjustAt (Nat.le_of_lt hpp)
    · change p.1 ≤ index+1
      omega
    · simp
    · simp [hp]
  have hnext : (v.adjustAt (v.prev it) 0 1).next (v.prev it) = it := by
    rw [← (sameShape_adjustAt 0 1).next_eq, h.next_prev]
  have hit := h₁.next
  rw [hnext] at hit
  have h₂ : At b ((v.adjustAt (v.prev it) 0 1).adjustAt (v.prev it) 0 ((r.2:ℤ)-r.1))
      (v.prev it) l ((p.1,r.2) :: r :: t) := by
    apply h₁.adjustAt (show p.1 ≤ index+1 by omega)
    · change p.1 ≤ r.2
      omega
    · simp
    · push_cast
      omega
  have hnext₂ := h₂.next
  rw [← (sameShape_adjustAt 0 _).next_eq, hnext] at hnext₂
  have hval : v.doAdd b it index =
      ((((v.adjustAt (v.prev it) 0 1).adjustAt (v.prev it) 0 ((r.2:ℤ)-r.1)).erase it).1,
        (((v.adjustAt (v.prev it) 0 1).adjustAt (v.prev it) 0 ((r.2:ℤ)-r.1)).erase it).1.prev
          (((v.adjustAt (v.prev it) 0 1).adjustAt (v.prev it) 0 ((r.2:ℤ)-r.1)).erase it).2) := by
    have hgt : ¬ (v.deref it).1 ≤ index := by
      rw [h.deref_eq]
      omega
    rw [doAdd]
    simp [hend, hgt, hbegin, h.prev.deref_eq, hp, hit.deref_eq, h₁.deref_eq, hr]
  rw [hval]
  refine ⟨l, _, t, hnext₂.erase.prev, ?_, ?_, ?_, ?_, ?_⟩
  · exact separated_middle.mpr ⟨hsl₀, hsq, show p.1 < r.2 by omega, hl₀, hrq⟩
  · change p.1 ≤ index
    omega
  · change index < r.2
    omega
  · intro x
    simp only [covers_append, covers_cons, covers_nil]
    grind
  · intro hfar
    have := hfar r t rfl
    omega

/-- The index is immediately after a range and not before the next one. -/
theorem doAdd_after {p : Range} (h : At b v it (l ++ [p]) t) (hs : Separated ((l ++ [p]) ++ t))
    (hp : p.2 = index) (ht : ∀ s ∈ t, index+1 < s.1) :
    Added b index (l ++ [p]) t (v.doAdd b it index) := by
  obtain ⟨hsl,hst,hlt⟩ := separated_append.mp hs
  obtain ⟨hsl₀,_,hpp,hl₀,_⟩ := separated_middle.mp hsl
  have hbegin : it ≠ beginIt := fun he => by simpa using h.eq_begin_iff.mp he
  have h₁ : At b (v.adjustAt (v.prev it) 0 1) (v.prev it) l ((p.1,index+1) :: t) := by
    apply h.prev.adjustAt (Nat.le_of_lt hpp)
    · change p.1 ≤ index+1
      omega
    · simp
    · simp [hp]
  have hnext : (v.adjustAt (v.prev it) 0 1).next (v.prev it) = it := by
    rw [← (sameShape_adjustAt 0 1).next_eq, h.next_prev]
  have hit := h₁.next
  rw [hnext] at hit
  have hval : v.doAdd b it index = (v.adjustAt (v.prev it) 0 1, v.prev it) := by
    rw [doAdd]
    cases t with
    | nil =>
      have hend : it = v.endIt := h.eq_end_iff.mpr rfl
      simp only [hend, ne_eq, not_true_eq_false, decide_false, Bool.false_eq_true, false_and,
        if_false]
      rw [← hend]
      simp [hbegin, h.prev.deref_eq, hp]
    | cons r t =>
      have hr := ht r List.mem_cons_self
      have hgt : ¬ (v.deref it).1 ≤ index := by
        rw [h.deref_eq]
        omega
      have hne : ¬ index+1 = r.1 := by omega
      simp [hgt, hbegin, h.prev.deref_eq, hp, hit.deref_eq, h₁.deref_eq, hne]
  rw [hval]
  refine ⟨l, _, t, h₁, ?_, ?_, Nat.lt_succ_self index, ?_, fun _ => ⟨rfl, rfl⟩⟩
  · exact separated_middle.mpr ⟨hsl₀, hst, show p.1 < index+1 by omega, hl₀, ht⟩
  · change p.1 ≤ index
    omega
  · intro x
    simp only [covers_append, covers_cons, covers_nil]
    grind

theorem prev_apart (h : At b v it l t) (hl : ∀ s ∈ l, s.2 < index) :
    ¬ (¬ it = beginIt ∧ (v.deref (v.prev it)).2 = index) := by
  rintro ⟨hb,hp⟩
  rw [h.eq_begin_iff] at hb
  rcases List.eq_nil_or_concat l with rfl | ⟨l₀,p,rfl⟩
  · exact hb rfl
  · rw [List.concat_eq_append] at *
    rw [h.prev.deref_eq] at hp
    have := hl p (by simp)
    omega

/-- The index is immediately before a range and not after the one before it. -/
theorem doAdd_before {r : Range} (h : At b v it l (r :: t)) (hs : Separated (l ++ r :: t))
    (hl : ∀ s ∈ l, s.2 < index) (hr : r.1 = index+1) :
    Added b index l (r :: t) (v.doAdd b it index) := by
  obtain ⟨hsl,hst,hrr,hlr,hrt⟩ := separated_middle.mp hs
  have hend : it ≠ v.endIt := fun he => by simpa using h.eq_end_iff.mp he
  have h₁ : At b (v.adjustAt it (-1) 0) it l ((index,r.2) :: t) := by
    apply h.adjustAt (Nat.le_of_lt hrr)
    · change index ≤ r.2
      omega
    · simp [hr]
    · simp
  have hprev := prev_apart h hl
  have hval : v.doAdd b it index = (v.adjustAt it (-1) 0, it) := by
    rw [doAdd]
    simp [hend, h.deref_eq, hprev, hr]
  rw [hval]
  refine ⟨l, _, t, h₁, ?_, le_rfl, ?_, ?_, ?_⟩
  · exact separated_middle.mpr ⟨hsl, hst, show index < r.2 by omega, hl, hrt⟩
  · change index < r.2
    omega
  · intro x
    simp only [covers_append, covers_cons]
    grind
  · intro hfar
    have := hfar r t rfl
    omega

/-- The index is not next to an existing range. -/
theorem doAdd_new (h : At b v it l t) (hs : Separated (l ++ t)) (hl : ∀ s ∈ l, s.2 < index)
    (ht : ∀ s ∈ t, index+1 < s.1) : Added b index l t (v.doAdd b it index) := by
  obtain ⟨hsl,hst,hlt⟩ := separated_append.mp hs
  have hmid : Separated (l ++ (index,index+1) :: t) :=
    separated_middle.mpr ⟨hsl, hst, Nat.lt_succ_self index, hl, ht⟩
  have hprev := prev_apart h hl
  have hval : v.doAdd b it index = v.insert b it (index,index+1) := by
    rw [doAdd]
    cases t with
    | nil =>
      have hend : it = v.endIt := h.eq_end_iff.mpr rfl
      simp only [decide_eq_true_eq, ne_eq, hprev, if_false]
      simp [hend]
    | cons r t =>
      have hr := ht r List.mem_cons_self
      have hgt : ¬ r.1 ≤ index := by omega
      have hne : ¬ r.1 = index+1 := by omega
      simp [h.deref_eq, hgt, hprev, hne]
  rw [hval]
  refine ⟨l, _, t, h.insert hmid, hmid, le_rfl, Nat.lt_succ_self index, ?_,
    fun _ => ⟨rfl, rfl⟩⟩
  intro x
  simp only [covers_append, covers_cons]
  grind

theorem doAdd_spec (h : At b v it l t) (hs : Separated (l ++ t)) (hl : ∀ r ∈ l, r.2 ≤ index)
    (ht : ∀ r q, t = r :: q → index < r.2) : Added b index l t (v.doAdd b it index) := by
  obtain ⟨hsl,hst,hlt⟩ := separated_append.mp hs
  -- the ranges behind the place begin behind the index, or the first of them holds it
  have hback : (∃ r q, t = r :: q ∧ r.1 ≤ index) ∨ (∃ r q, t = r :: q ∧ r.1 = index+1) ∨
      ∀ s ∈ t, index+1 < s.1 := by
    cases t with
    | nil => exact Or.inr (Or.inr (by simp))
    | cons r q =>
      rcases Nat.lt_trichotomy r.1 (index+1) with hlt | heq | hgt
      · exact Or.inl ⟨r, q, rfl, by omega⟩
      · exact Or.inr (Or.inl ⟨r, q, rfl, heq⟩)
      · refine Or.inr (Or.inr ?_)
        intro s hs'
        rcases List.mem_cons.mp hs' with rfl | hs'
        · exact hgt
        · have := (separated_cons.mp hst).1
          have := (separated_cons.mp hst).2.1 s hs'
          omega
  have hfront : (∃ l₀ p, l = l₀ ++ [p] ∧ p.2 = index) ∨ ∀ s ∈ l, s.2 < index := by
    rcases List.eq_nil_or_concat l with rfl | ⟨l₀,p,rfl⟩
    · exact Or.inr (by simp)
    · rw [List.concat_eq_append] at *
      by_cases hp : p.2 = index
      · exact Or.inl ⟨l₀, p, rfl, hp⟩
      · refine Or.inr ?_
        intro s hs'
        have := hl p (by simp)
        rcases List.mem_append.mp hs' with hs' | hs'
        · obtain ⟨_,_,hpp,hl₀,_⟩ := separated_middle.mp hsl
          have := hl₀ s hs'
          omega
        · rw [List.mem_singleton.mp hs']
          omega
  rcases hback with ⟨r,q,rfl,hr⟩ | ⟨r,q,rfl,hr⟩ | hback
  · exact doAdd_present h hs hr (ht r q rfl)
  · rcases hfront with ⟨l₀,p,rfl,hp⟩ | hfront
    · exact doAdd_joins h hs hp hr
    · exact doAdd_before h hs hfront hr
  · rcases hfront with ⟨l₀,p,rfl,hp⟩ | hfront
    · exact doAdd_after h hs hp hback
    · exact doAdd_new h hs hfront hback

theorem Added.represents {s : IndexSet × Iterator} (h : Added b index l t s) {S : Finset ℕ}
    (hS : ∀ x, Covers (l ++ t) x ↔ x ∈ S) : Represents b s.1 (insert index S) := by
  obtain ⟨l',r',t',hat,hs,_,_,hc,_⟩ := h
  apply At.represents hat hs
  intro x
  rw [hc, hS, Finset.mem_insert]

theorem Represents.covers_iff {S : Finset ℕ} (h : Represents b v S) (x : ℕ) :
    Covers v.ranges x ↔ x ∈ S := by
  rw [← mem_members, ← h.indices_eq, indices]

theorem Represents.separated {S : Finset ℕ} (h : Represents b v S) : Separated v.ranges :=
  h.verified.separated

theorem represents_empty : Represents b {} ∅ :=
  ⟨verified_iff.mpr ⟨[], by simp [Blocks], rfl, separated_nil⟩, rfl⟩

variable {S : Finset ℕ}

/-- A set is found again from its ranges. -/
theorem Represents.find (h : Represents b v S) (index : ℕ) : ∃ l t, v.ranges = l ++ t ∧
    Separated (l ++ t) ∧ (∀ r ∈ l, r.2 ≤ index) ∧ (∀ r q, t = r :: q → index < r.2) ∧
      At b v (v.find index beginIt) l t ∧ ∀ x, Covers (l ++ t) x ↔ x ∈ S := by
  obtain ⟨l,t,hlt,hs,hl,ht,hat⟩ := find_spec h.verified index
  refine ⟨l, t, hlt, hs, hl, ht, hat, ?_⟩
  rw [← hlt]
  exact h.covers_iff

theorem add_represents (h : Represents b v S) (index : ℕ) :
    Represents b (v.add b index) (insert index S) := by
  obtain ⟨l,t,_,hs,hl,ht,hat,hc⟩ := h.find index
  exact (doAdd_spec hat hs hl ht).represents hc

theorem isEmpty_iff (h : Represents b v S) : v.isEmpty = true ↔ S = ∅ := by
  obtain ⟨D,hD,rfl,hs⟩ := verified_iff.mp h.verified
  have hnil : IndexSet.isEmpty (ofBlocks D) = true ↔ D = [] := by
    cases D with
    | nil => exact iff_of_true rfl rfl
    | cons d D => exact iff_of_false (by simp [isEmpty, ofBlocks]) (by simp)
  rw [hnil, ← hD.flatten_eq_nil_iff, ← ranges_ofBlocks]
  constructor
  · intro he
    ext x
    rw [← h.covers_iff, he]
    simp
  · intro he
    by_contra hne
    obtain ⟨r,q,hrq⟩ := List.exists_cons_of_ne_nil hne
    have hr := h.separated.nonempty r (by rw [hrq]; simp)
    have hx : r.1 ∈ S := (h.covers_iff r.1).mp ⟨r, by rw [hrq]; simp, le_rfl, hr⟩
    rw [he] at hx
    exact absurd hx (Finset.notMem_empty _)

/-! The index iterator lists the indexes in order. -/

theorem collect_eq {r : Range} (h : At b v it l (r :: t)) (hs : Separated (r :: t))
    (n offset : ℕ) (hoff : offset < r.2-r.1) (hn : r.2-r.1-offset + width t ≤ n) :
    collect v n ⟨it, offset⟩ = List.range' (r.1+offset) (r.2-r.1-offset) ++ indexes t := by
  induction n generalizing it l r t offset with
  | zero => omega
  | succ n ih =>
    have hend : ¬ it = v.endIt := fun he => by simpa using h.eq_end_iff.mp he
    have hsucc : r.2-r.1-offset = (r.2-r.1-offset-1)+1 := by omega
    rw [collect]
    simp only [hend, if_false, IndexIterator.next, h.deref_eq]
    rw [hsucc, List.range'_succ, List.cons_append]
    apply congrArg (List.cons (r.1+offset))
    by_cases hlast : r.1+(offset+1) = r.2
    · -- the range is done, the next one begins
      have hzero : r.2-r.1-offset-1 = 0 := by omega
      rw [if_pos hlast, hzero, List.range'_zero, List.nil_append]
      cases t with
      | nil =>
        have hfin := h.next.eq_end_iff.mpr rfl
        cases n <;> simp [collect, hfin]
      | cons r' t =>
        have hst := (separated_cons.mp hs).2.2
        have hr' := (separated_cons.mp hst).1
        rw [width_cons] at hn
        rw [ih h.next hst 0 (by omega) (by omega)]
        simp
    · rw [if_neg hlast, ih h hs (offset+1) (by omega) (by omega)]
      have hsub : r.2-r.1-(offset+1) = r.2-r.1-offset-1 := by omega
      rw [hsub, Nat.add_assoc]

theorem asIndexes_eq (h : v.Verified b) : v.asIndexes = indexes v.ranges := by
  have hat := at_begin h
  have hs := h.separated
  rw [asIndexes]
  cases hr : v.ranges with
  | nil =>
    rw [hr] at hat
    have hend := hat.eq_end_iff.mpr rfl
    rfl
  | cons r t =>
    rw [hr] at hat hs
    have hrr := (separated_cons.mp hs).1
    rw [collect_eq hat hs _ 0 (by omega) (by rw [width_cons]; omega)]
    simp

theorem Represents.mem_asIndexes (h : Represents b v S) (x : ℕ) : x ∈ v.asIndexes ↔ x ∈ S := by
  rw [asIndexes_eq h.verified, mem_indexes, h.covers_iff]

theorem Represents.asIndexes_sorted (h : Represents b v S) : v.asIndexes.Pairwise (· < ·) := by
  rw [asIndexes_eq h.verified]
  exact indexes_sorted h.separated

end IndexSet

end ObjectStore
