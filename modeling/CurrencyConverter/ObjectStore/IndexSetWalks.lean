import CurrencyConverter.ObjectStore.IndexSetSpecs

/-! The loops that skip whole chunks before they look at single ranges: they end where the
plain loop over the ranges ends. -/
namespace ObjectStore

open SeparatedRanges ChunkedRangeVector

namespace IndexSet

variable {b : Build} {v : IndexSet} {it : Iterator} {l t : List Range} {index : ℕ}
  {S : Finset ℕ} {σ : Type}

/-- A walk over single ranges is the skipping loop on the list. -/
theorem walk_next {cond : Iterator → σ → Bool} {body : Iterator → σ → σ}
    {c : Range → σ → Bool} {f : Range → σ → σ} (h : At b v it l t)
    (hc : ∀ it s, cond it s = c (v.deref it) s) (hf : ∀ it s, body it s = f (v.deref it) s)
    (n : ℕ) (hn : t.length ≤ n) (s : σ) : ∃ q, t = q ++ (skipWhile c f t s).1 ∧
      At b v (walk v cond v.next body n it s).1 (l ++ q) (skipWhile c f t s).1 ∧
        (walk v cond v.next body n it s).2 = (skipWhile c f t s).2 := by
  induction n generalizing it l t s with
  | zero =>
    have ht : t = [] := List.eq_nil_of_length_eq_zero (by omega)
    subst ht
    exact ⟨[], rfl, by simpa [walk, skipWhile] using h, rfl⟩
  | succ n ih =>
    rw [walk]
    cases t with
    | nil =>
      have hend := h.eq_end_iff.mpr rfl
      rw [if_neg (by simp [hend])]
      exact ⟨[], rfl, by simpa [skipWhile] using h, rfl⟩
    | cons r t =>
      have hend : it ≠ v.endIt := fun he => by simpa using h.eq_end_iff.mp he
      by_cases hcr : c r s = true
      · rw [if_pos ⟨hend, by rw [hc, h.deref_eq, hcr]⟩, hf, h.deref_eq, skipWhile, if_pos hcr]
        obtain ⟨q,hq,hat,hval⟩ := ih h.next (Nat.le_of_succ_le_succ hn) (f r s)
        refine ⟨r :: q, ?_, ?_, hval⟩
        · rw [List.cons_append, ← hq]
        · simpa using hat
      · rw [if_neg (by rw [hc, h.deref_eq]; simp [hcr]), skipWhile, if_neg hcr]
        exact ⟨[], rfl, by simpa using h, rfl⟩

/-- A walk over chunks that takes a chunk only when the loop on the list takes all of its
ranges. -/
theorem walk_chunks {cond : Iterator → σ → Bool} {body : Iterator → σ → σ}
    {c : Range → σ → Bool} {f : Range → σ → σ} {A C : List (List Range)}
    (hD : Blocks b (A ++ C)) (hv : v = ofBlocks (A ++ C))
    (hstep : ∀ A' d C' s, v = ofBlocks (A' ++ d :: C') → Separated d →
      cond ⟨A'.length, 0⟩ s = true → skipWhile c f d s = ([], body ⟨A'.length, 0⟩ s))
    (hs : Separated C.flatten) (n : ℕ) (s : σ) : ∃ C₁ C₂, C = C₁ ++ C₂ ∧
      (walk v cond nextChunk body n ⟨A.length, 0⟩ s).1 = ⟨(A ++ C₁).length, 0⟩ ∧
        skipWhile c f C.flatten s =
          skipWhile c f C₂.flatten (walk v cond nextChunk body n ⟨A.length, 0⟩ s).2 := by
  induction n generalizing A C s with
  | zero => exact ⟨[], C, rfl, by simp [walk], rfl⟩
  | succ n ih =>
    rw [walk]
    by_cases hcond : (⟨A.length, 0⟩ : Iterator) ≠ v.endIt ∧ cond ⟨A.length, 0⟩ s = true
    · rw [if_pos hcond]
      cases C with
      | nil =>
        have hend : (⟨A.length, 0⟩ : Iterator) = v.endIt := by
          rw [hv]
          simp [endIt, ofBlocks]
        exact absurd hend hcond.1
      | cons d C =>
        rw [List.flatten_cons] at hs
        obtain ⟨hsd,hsC,_⟩ := separated_append.mp hs
        have hskip := hstep A d C s hv hsd hcond.2
        obtain ⟨C₁,C₂,hC,hit,hval⟩ := ih (A := A ++ [d]) (by simpa using hD)
          (by simpa using hv) hsC (body ⟨A.length, 0⟩ s)
        have hnext : nextChunk ⟨A.length, 0⟩ = ⟨(A ++ [d]).length, 0⟩ := by simp [nextChunk]
        rw [hnext]
        refine ⟨d :: C₁, C₂, by rw [hC]; rfl, ?_, ?_⟩
        · rw [hit]
          simp
        · rw [List.flatten_cons, skipWhile_append hskip, hval]
    · rw [if_neg hcond]
      exact ⟨[], C, rfl, by simp, rfl⟩

/-- Chunks first and ranges after them: the loop on the list from a chunk on. -/
theorem walk_both {p u : Iterator → σ → Bool} {g k : Iterator → σ → σ}
    {c : Range → σ → Bool} {f : Range → σ → σ} {A C : List (List Range)}
    (hD : Blocks b (A ++ C)) (hv : v = ofBlocks (A ++ C)) (hs : Separated C.flatten)
    (hstep : ∀ A' d C' s, v = ofBlocks (A' ++ d :: C') → Separated d →
      p ⟨A'.length, 0⟩ s = true → skipWhile c f d s = ([], g ⟨A'.length, 0⟩ s))
    (hc : ∀ it s, u it s = c (v.deref it) s) (hf : ∀ it s, k it s = f (v.deref it) s)
    (m n : ℕ) (hn : C.flatten.length ≤ n) (s : σ) :
    ∃ q, C.flatten = q ++ (skipWhile c f C.flatten s).1 ∧
      At b v (walk v u v.next k n (walk v p nextChunk g m ⟨A.length, 0⟩ s).1
          (walk v p nextChunk g m ⟨A.length, 0⟩ s).2).1
        (A.flatten ++ q) (skipWhile c f C.flatten s).1 ∧
      (walk v u v.next k n (walk v p nextChunk g m ⟨A.length, 0⟩ s).1
          (walk v p nextChunk g m ⟨A.length, 0⟩ s).2).2 =
        (skipWhile c f C.flatten s).2 := by
  obtain ⟨C₁,C₂,hC,hit,hval⟩ := walk_chunks hD hv hstep hs m s
  have hD' : Blocks b ((A ++ C₁) ++ C₂) := by rwa [List.append_assoc, ← hC]
  have hat := at_boundary hD'
  rw [List.append_assoc, ← hC, ← hv] at hat
  have hlen : C₂.flatten.length ≤ n := by
    rw [hC, List.flatten_append, List.length_append] at hn
    omega
  obtain ⟨q,hq,hat',hval'⟩ := walk_next hat hc hf n hlen
    (walk v p nextChunk g m ⟨A.length, 0⟩ s).2
  rw [hit, hval]
  refine ⟨C₁.flatten ++ q, ?_, ?_, hval'⟩
  · rw [List.append_assoc, ← hq, ← List.flatten_append, ← hC]
  · simpa using hat'

theorem shift_go (l : List Range) (i : ℕ) : shift.go i l = (shiftPast l i).2 := by
  induction l generalizing i with
  | nil => rfl
  | cons r l ih =>
    rw [shift.go, shiftPast, skipWhile]
    by_cases hr : r.1 ≤ i
    · rw [if_neg (by omega), if_pos (by simpa using hr), ih]
      rfl
    · rw [if_pos (by omega), if_neg (by simpa using hr)]

theorem shift_eq (h : Represents b v S) (index : ℕ) : v.shift index = IndexShift.shift S index := by
  obtain ⟨q,_,_,_,hres⟩ := shiftPast_spec h.separated index
  rw [IndexSet.shift, shift_go, hres, ← h.indices_eq, indices]

/-- Chunk by chunk or range by range, the index is moved to the same place. -/
theorem addShifted_walk (h : v.Verified b) (index : ℕ) : ∃ w : Iterator × ℕ,
    v.addShifted b index = ((v.doAdd b w.1 w.2).1, w.2) ∧
      w.2 = (shiftPast v.ranges index).2 ∧
      ∃ q, v.ranges = q ++ (shiftPast v.ranges index).1 ∧
        At b v w.1 q (shiftPast v.ranges index).1 := by
  obtain ⟨D,hD,hv,hs⟩ := verified_iff.mp h
  have hr : v.ranges = D.flatten := by rw [hv, ranges_ofBlocks]
  have hstep : ∀ A' d C' i, v = ofBlocks (A' ++ d :: C') → Separated d →
      decide ((v.chunk A'.length).back ≤ i) = true →
        shiftPast d i = ([], i + (v.chunk A'.length).count) := by
    -- a chunk that ends before the index is passed range by range as well
    intro A' d C' i hv' hd hback
    rw [hv'] at hback ⊢
    rw [chunk_ofBlocks] at hback ⊢
    apply shiftPast_all hd
    intro r hr
    have hlast : lastOf d ≤ i := of_decide_eq_true hback
    have := le_lastOf hd hr
    omega
  obtain ⟨q,hq,hat,hval⟩ := walk_both (A := []) (C := D) hD hv hs hstep
    (p := fun it i => (v.chunk it.outer).back ≤ i) (g := fun it i => i + (v.chunk it.outer).count)
    (u := fun it i => (v.deref it).1 ≤ i) (k := fun it i => i + ((v.deref it).2-(v.deref it).1))
    (fun _ _ => rfl) (fun _ _ => rfl) v.ranges.length v.ranges.length (by rw [hr]) index
  rw [hr]
  exact ⟨_, rfl, hval, q, hq, hat⟩

theorem addShifted_spec (h : Represents b v S) (index : ℕ) :
    Represents b (v.addShifted b index).1 (insert (IndexShift.shift S index) S) ∧
      (v.addShifted b index).2 = IndexShift.shift S index := by
  obtain ⟨w,hval,hw,q,hq,hat⟩ := addShifted_walk h.verified index
  obtain ⟨q',hq',hle,hlt,hshift⟩ := shiftPast_spec h.separated index
  have hqq : q = q' := List.append_cancel_right (hq.symm.trans hq')
  subst hqq
  have hs : Separated (q ++ (shiftPast v.ranges index).1) := hq ▸ h.separated
  rw [← hw] at hle hlt hshift
  have hadd := doAdd_spec hat hs hle (by
    intro r t ht
    have := hlt r (by rw [ht]; simp)
    have := hs.nonempty r (by rw [ht]; simp)
    omega)
  have hrep := hadd.represents (S := S) (by rw [← hq]; exact h.covers_iff)
  have hindex : w.2 = IndexShift.shift S index := by rw [hshift, ← h.indices_eq, indices]
  rw [hval]
  exact ⟨hindex ▸ hrep, hindex⟩

end IndexSet

end ObjectStore
