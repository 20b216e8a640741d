import CurrencyConverter.IndexShift
import Mathlib.Data.Finset.Basic
import Mathlib.Data.Finset.Sort
import Mathlib.Data.List.Sort

/-! Sets of numbers as lists of half-open ranges. A list whose ranges are nonempty, in order
and never touch is the only such list for its set. -/
namespace SeparatedRanges

abbrev Range : Type := ℕ × ℕ

def Covers (l : List Range) (x : ℕ) : Prop := ∃ r ∈ l, r.1 ≤ x ∧ x < r.2

structure Separated (l : List Range) : Prop where
  nonempty : ∀ r ∈ l, r.1 < r.2
  apart : l.Pairwise (fun r s => r.2 < s.1)

/-- The numbers of the ranges, one after the other. -/
def indexes (l : List Range) : List ℕ := l.flatMap (fun r => List.range' r.1 (r.2-r.1))

def width (l : List Range) : ℕ := (l.map (fun r => r.2-r.1)).sum

def members (l : List Range) : Finset ℕ := (indexes l).toFinset

variable {l t : List Range} {r : Range} {x : ℕ}

@[simp] theorem covers_nil : ¬ Covers [] x := by simp [Covers]

@[simp] theorem covers_cons : Covers (r :: l) x ↔ (r.1 ≤ x ∧ x < r.2) ∨ Covers l x := by
  simp [Covers]

@[simp] theorem covers_append : Covers (l ++ t) x ↔ Covers l x ∨ Covers t x := by
  simp only [Covers, List.mem_append, or_and_right, exists_or]

@[simp] theorem width_nil : width [] = 0 := rfl

@[simp] theorem width_cons : width (r :: l) = r.2-r.1 + width l := by simp [width]

@[simp] theorem width_append : width (l ++ t) = width l + width t := by simp [width]

@[simp] theorem indexes_nil : indexes [] = [] := rfl

@[simp] theorem indexes_cons :
    indexes (r :: l) = List.range' r.1 (r.2-r.1) ++ indexes l := by simp [indexes]

@[simp] theorem indexes_append : indexes (l ++ t) = indexes l ++ indexes t := by simp [indexes]

theorem mem_indexes : x ∈ indexes l ↔ Covers l x := by
  simp only [indexes, Covers, List.mem_flatMap, List.mem_range'_1]
  constructor
  · rintro ⟨r,hr,hx⟩
    exact ⟨r, hr, by omega, by omega⟩
  · rintro ⟨r,hr,hx⟩
    exact ⟨r, hr, by omega, by omega⟩

@[simp] theorem mem_members : x ∈ members l ↔ Covers l x := by
  rw [members, List.mem_toFinset, mem_indexes]

theorem length_indexes : (indexes l).length = width l := by
  induction l with
  | nil => rfl
  | cons r l ih => simp [ih]

theorem separated_nil : Separated [] := ⟨by simp, List.Pairwise.nil⟩

@[simp] theorem separated_cons :
    Separated (r :: l) ↔ r.1 < r.2 ∧ (∀ s ∈ l, r.2 < s.1) ∧ Separated l := by
  constructor
  · rintro ⟨hn,ha⟩
    rw [List.pairwise_cons] at ha
    exact ⟨hn r List.mem_cons_self, ha.1, fun s hs => hn s (List.mem_cons_of_mem r hs), ha.2⟩
  · rintro ⟨hr,hl,hn,ha⟩
    refine ⟨?_, List.pairwise_cons.mpr ⟨hl, ha⟩⟩
    intro s hs
    rcases List.mem_cons.mp hs with rfl | hs
    · exact hr
    · exact hn s hs

theorem separated_append : Separated (l ++ t) ↔
    Separated l ∧ Separated t ∧ ∀ r ∈ l, ∀ s ∈ t, r.2 < s.1 := by
  constructor
  · rintro ⟨hn,ha⟩
    rw [List.pairwise_append] at ha
    exact ⟨⟨fun r hr => hn r (List.mem_append_left t hr), ha.1⟩,
      ⟨fun r hr => hn r (List.mem_append_right l hr), ha.2.1⟩, ha.2.2⟩
  · rintro ⟨⟨hn,ha⟩,⟨hn',ha'⟩,hb⟩
    refine ⟨?_, List.pairwise_append.mpr ⟨ha, ha', hb⟩⟩
    intro r hr
    rcases List.mem_append.mp hr with hr | hr
    · exact hn r hr
    · exact hn' r hr

theorem separated_middle : Separated (l ++ r :: t) ↔ Separated l ∧ Separated t ∧ r.1 < r.2 ∧
    (∀ s ∈ l, s.2 < r.1) ∧ ∀ s ∈ t, r.2 < s.1 := by
  rw [separated_append, separated_cons]
  constructor
  · rintro ⟨hl,⟨hr,hrt,ht⟩,hlt⟩
    exact ⟨hl, ht, hr, fun s hs => hlt s hs r List.mem_cons_self, hrt⟩
  · rintro ⟨hl,ht,hr,hlr,hrt⟩
    refine ⟨hl, ⟨hr, hrt, ht⟩, ?_⟩
    intro s hs u hu
    have := hlr s hs
    rcases List.mem_cons.mp hu with rfl | hu
    · exact this
    · have := hrt u hu
      omega

/-- A number below every later range is in none of them. -/
theorem not_covers_of_lt (h : ∀ s ∈ l, x < s.1) : ¬ Covers l x := by
  rintro ⟨s,hs,hx⟩
  have := h s hs
  omega

theorem not_covers_of_le (h : ∀ s ∈ l, s.2 ≤ x) : ¬ Covers l x := by
  rintro ⟨s,hs,hx⟩
  have := h s hs
  omega

theorem indexes_sorted (h : Separated l) : (indexes l).Pairwise (· < ·) := by
  induction l with
  | nil => exact List.Pairwise.nil
  | cons r l ih =>
    obtain ⟨hr,hl,hs⟩ := separated_cons.mp h
    rw [indexes_cons, List.pairwise_append]
    refine ⟨List.pairwise_lt_range', ih hs, ?_⟩
    intro a ha b hb
    obtain ⟨s,hs,hb⟩ := mem_indexes.mp hb
    have := hl s hs
    rw [List.mem_range'_1] at ha
    omega

theorem card_members (h : Separated l) : (members l).card = width l := by
  rw [members, List.toFinset_card_of_nodup, length_indexes]
  exact (indexes_sorted h).imp (fun hab => Nat.ne_of_lt hab)

/-- The smallest member is where the first range begins. -/
theorem Separated.first_le (h : Separated (r :: l)) (hx : Covers (r :: l) x) : r.1 ≤ x := by
  obtain ⟨hr,hl,hs⟩ := separated_cons.mp h
  rcases covers_cons.mp hx with hx | ⟨s,hs,hx⟩
  · exact hx.1
  · have := hl s hs
    omega

theorem Separated.not_covers_end (h : Separated (r :: l)) : ¬ Covers (r :: l) r.2 := by
  obtain ⟨hr,hl,hs⟩ := separated_cons.mp h
  intro hx
  rcases covers_cons.mp hx with hx | hx
  · omega
  · exact not_covers_of_lt hl hx

/-- Separated lists that cover the same numbers are the same list. -/
theorem Separated.unique (h : Separated l) (h' : Separated t)
    (heq : ∀ x, Covers l x ↔ Covers t x) : l = t := by
  induction l generalizing t with
  | nil =>
    cases t with
    | nil => rfl
    | cons s t =>
      have hs := (separated_cons.mp h').1
      exact absurd ((heq s.1).mpr (covers_cons.mpr (Or.inl ⟨le_rfl, hs⟩))) covers_nil
  | cons r l ih =>
    cases t with
    | nil =>
      have hr := (separated_cons.mp h).1
      exact absurd ((heq r.1).mp (covers_cons.mpr (Or.inl ⟨le_rfl, hr⟩))) covers_nil
    | cons s t =>
      obtain ⟨hr,hl,hsep⟩ := separated_cons.mp h
      obtain ⟨hs,ht,hsep'⟩ := separated_cons.mp h'
      have hfirst : r.1 = s.1 := by
        apply Nat.le_antisymm
        · exact h.first_le ((heq s.1).mpr (covers_cons.mpr (Or.inl ⟨le_rfl, hs⟩)))
        · exact h'.first_le ((heq r.1).mp (covers_cons.mpr (Or.inl ⟨le_rfl, hr⟩)))
      -- were one of the first ranges longer, it would cover the other's end
      have hlast : r.2 = s.2 := by
        apply Nat.le_antisymm
        · apply Nat.le_of_not_lt
          intro hlt
          exact h'.not_covers_end ((heq s.2).mp (covers_cons.mpr (Or.inl ⟨by omega, hlt⟩)))
        · apply Nat.le_of_not_lt
          intro hlt
          exact h.not_covers_end ((heq r.2).mpr (covers_cons.mpr (Or.inl ⟨by omega, hlt⟩)))
      have hrs : r = s := Prod.ext hfirst hlast
      subst hrs
      rw [ih hsep hsep']
      intro x
      by_cases hx : r.1 ≤ x ∧ x < r.2
      · have hbelow : ∀ q : List Range, (∀ s ∈ q, r.2 < s.1) → ¬ Covers q x := by
          intro q hq
          apply not_covers_of_lt
          intro s hs
          have := hq s hs
          omega
        exact iff_of_false (hbelow l hl) (hbelow t ht)
      · have hiff := heq x
        rwa [covers_cons, covers_cons, or_iff_right hx, or_iff_right hx] at hiff

/-! Ranges moved as a whole. -/

def moved (d : ℤ) (r : Range) : Range := ((r.1+d).toNat,(r.2+d).toNat)

theorem covers_moved {d : ℤ} (h : ∀ r ∈ l, 0 ≤ r.1+d) (x : ℕ) :
    Covers (l.map (moved d)) x ↔ ∃ y : ℕ, (x:ℤ) = y+d ∧ Covers l y := by
  simp only [Covers, List.mem_map, moved]
  constructor
  · rintro ⟨_,⟨r,hr,rfl⟩,h1,h2⟩
    have := h r hr
    exact ⟨(x-d).toNat, by omega, r, hr, by omega, by omega⟩
  · rintro ⟨y,hy,r,hr,h1,h2⟩
    have := h r hr
    exact ⟨_, ⟨r, hr, rfl⟩, by omega, by omega⟩

theorem separated_moved {d : ℤ} (h : ∀ r ∈ l, 0 ≤ r.1+d) (hs : Separated l) :
    Separated (l.map (moved d)) := by
  induction l with
  | nil => exact separated_nil
  | cons r l ih =>
    obtain ⟨hr,hrl,hsl⟩ := separated_cons.mp hs
    have h0 := h r List.mem_cons_self
    rw [List.map_cons, separated_cons]
    refine ⟨?_, ?_, ih (fun s hs' => h s (List.mem_cons_of_mem r hs')) hsl⟩
    · simp only [moved]
      omega
    · intro s hs'
      obtain ⟨u,hu,rfl⟩ := List.mem_map.mp hs'
      have := hrl u hu
      simp only [moved]
      omega

/-! Loops that skip ranges from the front of a list and accumulate over those they skip. -/

section Skip

variable {σ : Type*} (c : Range → σ → Bool) (f : Range → σ → σ)

def skipWhile : List Range → σ → List Range × σ
  | [], s => ([], s)
  | r :: t, s => if c r s then skipWhile t (f r s) else (r :: t, s)

variable {c f}

theorem skipWhile_suffix (l : List Range) (s : σ) : ∃ q, l = q ++ (skipWhile c f l s).1 := by
  induction l generalizing s with
  | nil => exact ⟨[], rfl⟩
  | cons r l ih =>
    rw [skipWhile]
    by_cases hc : c r s = true
    · obtain ⟨q,hq⟩ := ih (f r s)
      rw [if_pos hc]
      refine ⟨r :: q, ?_⟩
      rw [List.cons_append, ← hq]
    · rw [if_neg hc]
      exact ⟨[], rfl⟩

theorem skipWhile_append {l t : List Range} {s s' : σ} (h : skipWhile c f l s = ([], s')) :
    skipWhile c f (l ++ t) s = skipWhile c f t s' := by
  induction l generalizing s with
  | nil =>
    rw [skipWhile, Prod.mk.injEq] at h
    rw [List.nil_append, h.2]
  | cons r l ih =>
    rw [skipWhile] at h
    by_cases hc : c r s = true
    · rw [if_pos hc] at h
      rw [List.cons_append, skipWhile, if_pos hc, ih h]
    · rw [if_neg hc] at h
      simp at h

theorem skipWhile_stop {l t : List Range} {r : Range} {s s' : σ}
    (h : skipWhile c f l s = (r :: t, s')) : c r s' = false := by
  induction l generalizing s with
  | nil => simp [skipWhile] at h
  | cons r' l ih =>
    rw [skipWhile] at h
    by_cases hc : c r' s = true
    · rw [if_pos hc] at h
      exact ih h
    · rw [if_neg hc, Prod.mk.injEq, List.cons.injEq] at h
      rw [← h.1.1, ← h.2]
      simpa using hc

end Skip

/-- The index moves past every range that begins at or before it. -/
def shiftPast : List Range → ℕ → List Range × ℕ :=
  skipWhile (fun r i => r.1 ≤ i) (fun r i => i+(r.2-r.1))

/-- Ranges that all end at or before the index are all passed. -/
theorem shiftPast_all {i : ℕ} (hs : Separated l) (hl : ∀ r ∈ l, r.2 ≤ i) :
    shiftPast l i = ([], i+width l) := by
  induction l generalizing i with
  | nil => rfl
  | cons r l ih =>
    obtain ⟨hr,_,hsl⟩ := separated_cons.mp hs
    have hri := hl r List.mem_cons_self
    have hrec := ih (i := i+(r.2-r.1)) hsl (fun s hs' => by
      have := hl s (List.mem_cons_of_mem r hs')
      omega)
    rw [shiftPast, skipWhile, if_pos (by simpa using by omega)]
    rw [shiftPast] at hrec
    rw [hrec, width_cons, Nat.add_assoc]

/-- Outside the set, closing the set moves an index by the ranges before it. -/
theorem unshift_members {j : ℕ} (hs : Separated (l ++ t)) (hl : ∀ r ∈ l, r.2 ≤ j)
    (ht : ∀ r ∈ t, j ≤ r.1) : IndexShift.unshift (members (l ++ t)) j + width l = j := by
  have h := IndexShift.unshift_add_card (S := members (l ++ t)) j
  have hset : (members (l ++ t)).filter (fun k => k < j) = members l := by
    ext k
    simp only [Finset.mem_filter, mem_members, covers_append]
    constructor
    · rintro ⟨hk | ⟨r,hr,hk⟩,hlt⟩
      · exact hk
      · have := ht r hr
        omega
    · intro hk
      obtain ⟨r,hr,hk'⟩ := hk
      have := hl r hr
      exact ⟨Or.inl ⟨r, hr, hk'⟩, by omega⟩
  rwa [hset, card_members (separated_append.mp hs).1] at h

/-- The loop over the ranges is the shift past their set. -/
theorem shiftPast_spec (hs : Separated l) (i : ℕ) : ∃ q, l = q ++ (shiftPast l i).1 ∧
    (∀ r ∈ q, r.2 ≤ (shiftPast l i).2) ∧ (∀ r ∈ (shiftPast l i).1, (shiftPast l i).2 < r.1) ∧
      (shiftPast l i).2 = IndexShift.shift (members l) i := by
  obtain ⟨q,t,j,hl,hq,ht,hres,hj⟩ : ∃ q t j, l = q ++ t ∧ (∀ r ∈ q, r.2 ≤ j) ∧
      (∀ r ∈ t, j < r.1) ∧ shiftPast l i = (t, j) ∧ j = i+width q := by
    induction l generalizing i with
    | nil => exact ⟨[], [], i, rfl, by simp, by simp, rfl, rfl⟩
    | cons r l ih =>
      obtain ⟨hr,hrl,hsl⟩ := separated_cons.mp hs
      by_cases hc : r.1 ≤ i
      · obtain ⟨q,t,j,hl,hq,ht,hres,hj⟩ := ih hsl (i+(r.2-r.1))
        refine ⟨r :: q, t, j, by rw [hl]; rfl, ?_, ht, ?_, ?_⟩
        · intro s hs'
          rcases List.mem_cons.mp hs' with rfl | hs'
          · omega
          · exact hq s hs'
        · rw [shiftPast, skipWhile, if_pos (by simpa using hc)]
          exact hres
        · rw [hj, width_cons, Nat.add_assoc]
      · refine ⟨[], r :: l, i, rfl, by simp, ?_, ?_, rfl⟩
        · intro s hs'
          rcases List.mem_cons.mp hs' with rfl | hs'
          · omega
          · have := hrl s hs'
            omega
        · rw [shiftPast, skipWhile, if_neg (by simpa using hc)]
  rw [hres]
  refine ⟨q, hl, hq, ht, ?_⟩
  have hrank := unshift_members (hl ▸ hs) hq (fun r hr => Nat.le_of_lt (ht r hr))
  symm
  apply IndexShift.shift_eq
  · rw [hl, mem_members, covers_append]
    rintro (hc | hc)
    · exact not_covers_of_le hq hc
    · exact not_covers_of_lt ht hc
  · rw [hl]
    change IndexShift.unshift _ j = i
    omega

end SeparatedRanges
