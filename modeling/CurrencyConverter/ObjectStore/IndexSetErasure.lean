import CurrencyConverter.ObjectStore.IndexSetWalks

/-! Erasing an index from an index set: everything behind it moves, and the ranges around a
closed gap become one. -/
namespace ObjectStore

open SeparatedRanges ChunkedRangeVector

namespace IndexSet

variable {b : Build} {v : IndexSet} {it : Iterator} {l t : List Range} {index : ℕ}
  {S : Finset ℕ}

theorem shiftUntilEndBy_at {d : ℤ} (h : At b v it l t) (hd : ∀ r ∈ t, r.1 ≤ r.2 ∧ 0 ≤ r.1+d)
    (n : ℕ) (hn : t.length ≤ n) : At b (shiftUntilEndBy d n v it) it l (t.map (moved d)) ∧
      SameShape v (shiftUntilEndBy d n v it) := by
  induction n generalizing v it l t with
  | zero =>
    have ht : t = [] := List.eq_nil_of_length_eq_zero (by omega)
    subst ht
    exact ⟨h, rfl⟩
  | succ n ih =>
    rw [shiftUntilEndBy]
    cases t with
    | nil =>
      rw [if_pos (h.eq_end_iff.mpr rfl)]
      exact ⟨h, rfl⟩
    | cons r t =>
      have hend : ¬ it = v.endIt := fun he => by simpa using h.eq_end_iff.mp he
      obtain ⟨hr,hrd⟩ := hd r List.mem_cons_self
      rw [if_neg hend]
      have h₁ : At b (v.shiftAt it d) it l (moved d r :: t) := by
        apply h.shiftAt
        · simp only [moved]
          omega
        · simp only [moved]
          omega
      obtain ⟨h₂,hshape⟩ := ih h₁.next (fun s hs => hd s (List.mem_cons_of_mem r hs))
        (Nat.le_of_succ_le_succ hn)
      have h₃ := h₂.prev
      -- the iterator the loop started from is still at its range
      rw [← hshape.prev_eq, h₁.prev_next] at h₃
      exact ⟨h₃, (sameShape_shiftAt d).trans hshape⟩

theorem At.represents_erased (h : At b v it l t) (hs : Separated (l ++ t))
    (hS : ∀ x, Covers (l ++ t) x ↔ (if x < index then x else x+1) ∈ S) :
    Represents b v (IndexShift.erased S {index}) := by
  apply At.represents h hs
  intro x
  rw [hS, IndexShift.mem_erased, IndexShift.shift_singleton]

theorem doErase_spec {r : Range} (h : At b v it l (r :: t)) (hs : Separated (l ++ r :: t))
    (hl : ∀ s ∈ l, s.2 ≤ index) (hr : index < r.2) (hS : ∀ x, Covers (l ++ r :: t) x ↔ x ∈ S) :
    Represents b (v.doErase it index) (IndexShift.erased S {index}) := by
  obtain ⟨hsl,hst,hrr,hlr,hrt⟩ := separated_middle.mp hs
  have hfuel : t.length+1 ≤ v.ranges.length := by
    rw [h.ranges_eq, List.length_append, List.length_cons]
    omega
  have ht0 : ∀ s ∈ t, (0:ℤ) ≤ s.1+(-1) := fun s hs' => by
    have := hrt s hs'
    omega
  have ht : ∀ s ∈ t, s.1 ≤ s.2 ∧ (0:ℤ) ≤ s.1+(-1) := fun s hs' =>
    ⟨Nat.le_of_lt (hst.nonempty s hs'), ht0 s hs'⟩
  have hsm := separated_moved ht0 hst
  have hmoved : ∀ s ∈ t.map (moved (-1)), r.2-1 < s.1 := by
    intro s hs'
    obtain ⟨u,hu,rfl⟩ := List.mem_map.mp hs'
    have := hrt u hu
    simp only [moved]
    omega
  have hcm (x : ℕ) : Covers (t.map (moved (-1))) x ↔ Covers t (x+1) := by
    rw [covers_moved ht0]
    constructor
    · rintro ⟨y,hy,hc⟩
      have hyx : y = x+1 := by omega
      rwa [← hyx]
    · intro hc
      exact ⟨x+1, by omega, hc⟩
  -- what lies before and behind the index, in the old set and in the new one
  have hbefore (x : ℕ) (hx : x ≤ r.2) : ¬ Covers t x :=
    not_covers_of_lt (fun s hs' => by
      have := hrt s hs'
      omega)
  have hbehind (x : ℕ) (hx : index ≤ x) : ¬ Covers l x :=
    not_covers_of_le (fun s hs' => by
      have := hl s hs'
      omega)
  have hiff (x : ℕ) : (if x < index then x else x+1) ∈ S ↔
      (x < index ∧ (Covers l x ∨ r.1 ≤ x)) ∨
        (index ≤ x ∧ ((r.1 ≤ x+1 ∧ x+1 < r.2) ∨ Covers t (x+1))) := by
    rw [← hS, covers_append, covers_cons]
    by_cases hx : x < index
    · have := hbefore x (by omega)
      rw [if_pos hx]
      grind
    · have := hbehind (x+1) (by omega)
      rw [if_neg hx]
      grind
  rw [doErase]
  simp only [h.deref_eq]
  by_cases hin : r.1 ≤ index
  · rw [if_pos hin]
    by_cases hone : r.1+1 = r.2
    · rw [if_pos hone]
      obtain ⟨hat,_⟩ := shiftUntilEndBy_at h.erase ht v.ranges.length (by omega)
      refine At.represents_erased hat ?_ ?_
      · refine separated_append.mpr ⟨hsl, hsm, ?_⟩
        intro s hs' u hu
        have := hlr s hs'
        have := hmoved u hu
        omega
      · intro x
        rw [covers_append, hcm, hiff]
        have := hbehind x
        have := hbefore (x+1)
        grind
    · rw [if_neg hone]
      have h₁ : At b (v.adjustAt it 0 (-1)) it l ((r.1,r.2-1) :: t) := by
        apply h.adjustAt (Nat.le_of_lt hrr)
        · change r.1 ≤ r.2-1
          omega
        · simp
        · push_cast [show 1 ≤ r.2 by omega]
          omega
      obtain ⟨hat,_⟩ := shiftUntilEndBy_at h₁.next ht v.ranges.length (by omega)
      refine At.represents_erased hat ?_ ?_
      · rw [List.append_assoc]
        exact separated_middle.mpr ⟨hsl, hsm, show r.1 < r.2-1 by omega, hlr, hmoved⟩
      · intro x
        rw [covers_append, covers_append, covers_cons, hcm, hiff]
        have := hbehind x
        have := hbefore (x+1)
        simp only [covers_nil, or_false]
        grind
  · rw [if_neg hin]
    by_cases hjoin : it ≠ beginIt ∧ (v.deref (v.prev it)).2+1 = r.1
    · -- the gap closes and the two ranges around it become one
      rw [if_pos hjoin]
      rcases List.eq_nil_or_concat l with rfl | ⟨l₀,p,rfl⟩
      · exact absurd (h.eq_begin_iff.mpr rfl) hjoin.1
      · rw [List.concat_eq_append] at *
        rw [h.prev.deref_eq] at hjoin
        obtain ⟨hsl₀,_,hpp,hl₀,_⟩ := separated_middle.mp hsl
        have hp := hl p (by simp)
        have h₁ : At b (v.adjustAt (v.prev it) 0 ((r.2:ℤ)-r.1)) (v.prev it) l₀
            ((p.1,r.2-1) :: r :: t) := by
          apply h.prev.adjustAt (Nat.le_of_lt hpp)
          · change p.1 ≤ r.2-1
            omega
          · simp
          · push_cast [show 1 ≤ r.2 by omega]
            omega
        have h₂ := h₁.next
        rw [← (sameShape_adjustAt 0 _).next_eq, h.next_prev] at h₂
        obtain ⟨hat,_⟩ := shiftUntilEndBy_at h₂.erase ht v.ranges.length (by omega)
        refine At.represents_erased hat ?_ ?_
        · rw [List.append_assoc]
          exact separated_middle.mpr ⟨hsl₀, hsm, show p.1 < r.2-1 by omega, hl₀, hmoved⟩
        · intro x
          rw [covers_append, covers_append, covers_cons, hcm, hiff, covers_append, covers_cons]
          have hl₀x : Covers l₀ x → x < index := fun hc => by
            by_contra hx
            exact hbehind x (by omega) (covers_append.mpr (Or.inl hc))
          have htx : Covers t (x+1) → r.2 < x+1 := fun hc => by
            by_contra hx
            exact hbefore (x+1) (by omega) hc
          simp only [covers_nil, or_false]
          by_cases hcl : Covers l₀ x
          · have := hl₀x hcl
            simp only [hcl, true_or, and_true, true_iff]
            omega
          · by_cases hct : Covers t (x+1)
            · have := htx hct
              simp only [hct, or_true, and_true, true_iff]
              omega
            · simp only [hcl, hct, false_or, or_false]
              omega
    · rw [if_neg hjoin]
      have hlr' : ∀ s ∈ l, s.2 < r.1-1 := by
        rcases List.eq_nil_or_concat l with rfl | ⟨l₀,p,rfl⟩
        · simp
        · rw [List.concat_eq_append] at *
          have hbegin : it ≠ beginIt := fun he => by simpa using h.eq_begin_iff.mp he
          have hp : ¬ p.2+1 = r.1 := fun he => hjoin ⟨hbegin, by rw [h.prev.deref_eq, he]⟩
          have hpr := hlr p (by simp)
          obtain ⟨_,_,hpp,hl₀,_⟩ := separated_middle.mp hsl
          intro s hs'
          rcases List.mem_append.mp hs' with hs' | hs'
          · have := hl₀ s hs'
            omega
          · rw [List.mem_singleton.mp hs']
            omega
      have hrt' : ∀ s ∈ r :: t, s.1 ≤ s.2 ∧ (0:ℤ) ≤ s.1+(-1) := by
        intro s hs'
        rcases List.mem_cons.mp hs' with rfl | hs'
        · exact ⟨Nat.le_of_lt hrr, by omega⟩
        · exact ht s hs'
      obtain ⟨hat,_⟩ := shiftUntilEndBy_at h hrt' v.ranges.length (by simpa using hfuel)
      have hmr : moved (-1) r = (r.1-1,r.2-1) := by
        simp only [moved, Prod.mk.injEq]
        omega
      rw [List.map_cons, hmr] at hat
      refine At.represents_erased hat ?_ ?_
      · exact separated_middle.mpr ⟨hsl, hsm, show r.1-1 < r.2-1 by omega, hlr', hmoved⟩
      · intro x
        rw [covers_append, covers_cons, hcm, hiff]
        have := hbehind x
        have := hbefore (x+1)
        grind

/-- An index behind every range is not in the set, and nothing moves. -/
theorem At.represents_erased_end (h : At b v it l []) (hs : Separated (l ++ []))
    (hl : ∀ s ∈ l, s.2 ≤ index) (hS : ∀ x, Covers (l ++ []) x ↔ x ∈ S) :
    Represents b v (IndexShift.erased S {index}) := by
  refine At.represents_erased h hs ?_
  intro x
  rw [hS, ← hS (if x < index then x else x+1), ← hS x, List.append_nil]
  by_cases hx : x < index
  · rw [if_pos hx]
  · rw [if_neg hx]
    apply iff_of_false
    · exact not_covers_of_le (fun r hr => by
        have := hl r hr
        omega)
    · exact not_covers_of_le (fun r hr => by
        have := hl r hr
        omega)

theorem eraseAt_represents (h : Represents b v S) (index : ℕ) :
    Represents b (v.eraseAt index) (IndexShift.erased S {index}) := by
  obtain ⟨l,t,_,hs,hl,ht,hat,hc⟩ := h.find index
  rw [eraseAt]
  cases t with
  | nil =>
    rw [if_pos (hat.eq_end_iff.mpr rfl)]
    exact At.represents_erased_end hat hs hl hc
  | cons r t =>
    have hend : ¬ v.find index beginIt = v.endIt := fun he => by simpa using hat.eq_end_iff.mp he
    rw [if_neg hend]
    exact doErase_spec hat hs hl (ht r t rfl) hc

/-- The loop that takes the ranges before the index off a number. -/
theorem skipWhile_before (index : ℕ) (l : List Range) (s : ℕ) :
    ∃ q, l = q ++ (skipWhile (fun r _ => decide (r.2 ≤ index)) (fun r s => s-(r.2-r.1)) l s).1 ∧
      (∀ r ∈ q, r.2 ≤ index) ∧
      (skipWhile (fun r _ => decide (r.2 ≤ index)) (fun r s => s-(r.2-r.1)) l s).2 =
        s-width q := by
  induction l generalizing s with
  | nil => exact ⟨[], rfl, by simp, rfl⟩
  | cons r l ih =>
    rw [skipWhile]
    by_cases hr : r.2 ≤ index
    · obtain ⟨q,hq,hle,hval⟩ := ih (s-(r.2-r.1))
      rw [if_pos (by simpa using hr)]
      refine ⟨r :: q, by rw [List.cons_append, ← hq], ?_, ?_⟩
      · intro r' hr'
        rcases List.mem_cons.mp hr' with rfl | hr'
        · exact hr
        · exact hle r' hr'
      · rw [hval, width_cons]
        omega
    · rw [if_neg (by simpa using hr)]
      exact ⟨[], rfl, by simp, rfl⟩

theorem skipWhile_before_all {index s : ℕ} (hl : ∀ r ∈ l, r.2 ≤ index) :
    skipWhile (fun r _ => decide (r.2 ≤ index)) (fun r s => s-(r.2-r.1)) l s =
      ([], s-width l) := by
  induction l generalizing s with
  | nil => rfl
  | cons r l ih =>
    have hr := hl r List.mem_cons_self
    rw [skipWhile, if_pos (by simpa using hr), ih (fun r' hr' => hl r' (List.mem_cons_of_mem r hr')),
      width_cons]
    congr 1
    omega

theorem eraseOrUnshift_walk (h : v.Verified b) (index : ℕ) : ∃ w : Iterator × ℕ,
    v.eraseOrUnshift index = (if w.1 = v.endIt then (v, some w.2)
      else (v.doErase w.1 index, if (v.deref w.1).1 ≤ index then none else some w.2)) ∧
    ∃ q t, v.ranges = q ++ t ∧ (∀ r ∈ q, r.2 ≤ index) ∧ (∀ r t', t = r :: t' → index < r.2) ∧
      At b v w.1 q t ∧ w.2 = index-width q := by
  obtain ⟨D,hD,hv,hs⟩ := verified_iff.mp h
  have hr : v.ranges = D.flatten := by rw [hv, ranges_ofBlocks]
  have hstep : ∀ A' d C' s, v = ofBlocks (A' ++ d :: C') → Separated d →
      decide ((v.chunk A'.length).back ≤ index) = true →
        skipWhile (fun r _ => decide (r.2 ≤ index)) (fun r s => s-(r.2-r.1)) d s =
          ([], s - (v.chunk A'.length).count) := by
    intro A' d C' s hv' hd hback
    rw [hv'] at hback ⊢
    rw [chunk_ofBlocks] at hback ⊢
    apply skipWhile_before_all
    intro r hr
    have hlast : lastOf d ≤ index := of_decide_eq_true hback
    have := le_lastOf hd hr
    omega
  obtain ⟨q,hq,hat,hval⟩ := walk_both (A := []) (C := D) hD hv hs hstep
    (p := fun it _ => (v.chunk it.outer).back ≤ index)
    (g := fun it s => s - (v.chunk it.outer).count)
    (u := fun it _ => (v.deref it).2 ≤ index)
    (k := fun it s => s - ((v.deref it).2-(v.deref it).1))
    (fun _ _ => rfl) (fun _ _ => rfl) v.ranges.length v.ranges.length (by rw [hr]) index
  obtain ⟨q',hq',hle,hval'⟩ := skipWhile_before index D.flatten index
  have hqq : q = q' := List.append_cancel_right (hq.symm.trans hq')
  subst hqq
  refine ⟨_, rfl, q, _, hr.trans hq, hle, ?_, hat, hval.trans hval'⟩
  intro r t ht
  have hstop := skipWhile_stop (Prod.ext ht rfl)
  simpa using hstop

/-- An index of the set is taken out; another one is told its place without the set. Either
way what lies behind moves. -/
theorem eraseOrUnshift_spec (h : Represents b v S) (index : ℕ) :
    Represents b (v.eraseOrUnshift index).1 (IndexShift.erased S {index}) ∧
      (v.eraseOrUnshift index).2 =
        if index ∈ S then none else some (IndexShift.unshift S index) := by
  obtain ⟨w,hval,q,t,hqt,hle,hhead,hat,hw⟩ := eraseOrUnshift_walk h.verified index
  have hs : Separated (q ++ t) := hqt ▸ h.separated
  have hc : ∀ x, Covers (q ++ t) x ↔ x ∈ S := hqt ▸ h.covers_iff
  have hS : members (q ++ t) = S := by rw [← hqt, ← h.indices_eq, indices]
  have hmem : index ∈ S ↔ ∃ r t', t = r :: t' ∧ r.1 ≤ index := by
    rw [← hc, covers_append]
    constructor
    · rintro (hq | hx)
      · exact absurd hq (not_covers_of_le hle)
      · cases t with
        | nil => exact absurd hx covers_nil
        | cons r t' => exact ⟨r, t', rfl, (separated_append.mp hs).2.1.first_le hx⟩
    · rintro ⟨r,t',rfl,hr⟩
      exact Or.inr (covers_cons.mpr (Or.inl ⟨hr, hhead r t' rfl⟩))
  have hrank : index ∉ S → w.2 = IndexShift.unshift S index := by
    intro hnot
    have hlt : ∀ r ∈ t, index ≤ r.1 := by
      intro r hr
      by_contra hlt
      have hx : ∃ r' t', t = r' :: t' ∧ r'.1 ≤ index := by
        cases t with
        | nil => simp at hr
        | cons r' t' =>
          refine ⟨r', t', rfl, ?_⟩
          rcases List.mem_cons.mp hr with rfl | hr
          · omega
          · have := (separated_cons.mp (separated_append.mp hs).2.1).2.1 r hr
            have := (separated_cons.mp (separated_append.mp hs).2.1).1
            omega
      exact hnot (hmem.mpr hx)
    have hu := unshift_members hs hle hlt
    rw [hS] at hu
    rw [hw]
    exact Nat.sub_eq_of_eq_add hu.symm
  rw [hval]
  cases t with
  | nil =>
    have hnot : index ∉ S := fun hin => by simpa using hmem.mp hin
    rw [if_pos (hat.eq_end_iff.mpr rfl), if_neg hnot, hrank hnot]
    exact ⟨At.represents_erased_end hat hs hle hc, rfl⟩
  | cons r t =>
    have hend : ¬ w.1 = v.endIt := fun he => by simpa using hat.eq_end_iff.mp he
    rw [if_neg hend, hat.deref_eq]
    refine ⟨doErase_spec hat hs hle (hhead r t rfl) hc, ?_⟩
    by_cases hr : r.1 ≤ index
    · rw [if_pos hr, if_pos (hmem.mpr ⟨r, t, rfl, hr⟩)]
    · have hnot : index ∉ S := fun hin => by
        obtain ⟨r',t',he,hr'⟩ := hmem.mp hin
        rw [← (List.cons.inj he).1] at hr'
        exact hr hr'
      rw [if_neg hr, if_neg hnot, hrank hnot]

end IndexSet

end ObjectStore
