import CurrencyConverter.ObjectStore.IndexSetWalks

/-! Counting the indexes before a place, chunk by chunk and then range by range. -/
namespace ObjectStore

open SeparatedRanges ChunkedRangeVector

/-- Whole ranges are counted up to the first one that reaches past the end. -/
def countWhile (stop : ℕ) : List Range → ℕ → List Range × ℕ :=
  skipWhile (fun r _ => r.2 ≤ stop) (fun r ret => ret+(r.2-r.1))

theorem countWhile_spec (stop : ℕ) (l : List Range) (ret : ℕ) : ∃ q,
    l = q ++ (countWhile stop l ret).1 ∧ (∀ r ∈ q, r.2 ≤ stop) ∧
      (∀ r t, (countWhile stop l ret).1 = r :: t → stop < r.2) ∧
        (countWhile stop l ret).2 = ret+width q := by
  induction l generalizing ret with
  | nil => exact ⟨[], rfl, by simp, by simp [countWhile, skipWhile], rfl⟩
  | cons r l ih =>
    rw [countWhile, skipWhile]
    by_cases hr : r.2 ≤ stop
    · rw [if_pos (by simpa using hr)]
      obtain ⟨q,hl,hq,ht,hret⟩ := ih (ret+(r.2-r.1))
      rw [countWhile] at hl ht hret
      refine ⟨r :: q, by rw [List.cons_append, ← hl], ?_, ht, ?_⟩
      · intro r' hr'
        rcases List.mem_cons.mp hr' with rfl | hr'
        · exact hr
        · exact hq r' hr'
      · rw [hret, width_cons, Nat.add_assoc]
    · rw [if_neg (by simpa using hr)]
      refine ⟨[], rfl, by simp, ?_, rfl⟩
      intro r' t h
      rw [← (List.cons.inj h).1]
      omega

theorem countWhile_all {stop : ℕ} {l : List Range} (hl : ∀ r ∈ l, r.2 ≤ stop) (ret : ℕ) :
    countWhile stop l ret = ([],ret+width l) := by
  induction l generalizing ret with
  | nil => rfl
  | cons r l ih =>
    have hr := hl r List.mem_cons_self
    rw [countWhile, skipWhile, if_pos (by simpa using hr), ← countWhile,
      ih (fun r' hr' => hl r' (List.mem_cons_of_mem r hr')), width_cons, Nat.add_assoc]

/-- What the first range has before `stop`. -/
def headBefore (stop : ℕ) : List Range → ℕ
  | [] => 0
  | r :: _ => stop-r.1

/-- The indexes before `stop` are those of the whole ranges and the part of the next one. -/
theorem card_members_before {q t : List Range} {stop : ℕ} (hs : Separated (q ++ t))
    (hq : ∀ r ∈ q, r.2 ≤ stop) (ht : ∀ r t', t = r :: t' → stop < r.2) :
    ((members (q ++ t)).filter (fun k => k < stop)).card =
      width q+headBefore stop t := by
  obtain ⟨hsq,hst,hqt⟩ := separated_append.mp hs
  have hfilter : (members (q ++ t)).filter (fun k => k < stop) =
      members q ∪ (members t).filter (fun k => k < stop) := by
    ext k
    simp only [Finset.mem_filter, Finset.mem_union, mem_members, covers_append]
    constructor
    · rintro ⟨h | h,hk⟩
      · exact Or.inl h
      · exact Or.inr ⟨h, hk⟩
    · rintro (⟨r,hr,hk⟩ | ⟨h,hk⟩)
      · have := hq r hr
        exact ⟨Or.inl ⟨r, hr, hk⟩, by omega⟩
      · exact ⟨Or.inr h, hk⟩
  cases t with
  | nil =>
    have hnone : (members []).filter (fun k => k < stop) = ∅ := rfl
    rw [hfilter, hnone, Finset.union_empty, card_members hsq]
    rfl
  | cons r t =>
    have hr := ht r t rfl
    obtain ⟨hrr,hrt,_⟩ := separated_cons.mp hst
    have hpart : (members (r :: t)).filter (fun k => k < stop) = Finset.Ico r.1 stop := by
      ext k
      simp only [Finset.mem_filter, mem_members, covers_cons, Finset.mem_Ico]
      constructor
      · rintro ⟨h | h,hk⟩
        · exact ⟨h.1, hk⟩
        · exact absurd h (not_covers_of_lt (fun s hs' => by
            have := hrt s hs'
            omega))
      · intro hk
        exact ⟨Or.inl ⟨hk.1, by omega⟩, hk.2⟩
    have hdisjoint : Disjoint (members q) (Finset.Ico r.1 stop) := by
      rw [Finset.disjoint_left]
      intro k hk hk'
      obtain ⟨s,hsq',hx⟩ := mem_members.mp hk
      have := hqt s hsq' r List.mem_cons_self
      have := (Finset.mem_Ico.mp hk').1
      omega
    rw [hfilter, hpart, Finset.card_union_of_disjoint hdisjoint, card_members hsq, Nat.card_Ico]
    rfl

namespace IndexSet

variable {b : Build} {v : IndexSet} {S : Finset ℕ}

/-- From the start the set is counted by whole chunks, then by whole ranges, and the last
range in part. -/
theorem count_zero (h : Represents b v S) (stop : ℕ) :
    v.count 0 stop = (S.filter (fun k => k < stop)).card := by
  obtain ⟨l,t,hlt,_,hl,_,hat⟩ := find_spec h.verified 0
  have hlnil : l = [] := by
    cases l with
    | nil => rfl
    | cons r l =>
      have := h.separated.nonempty r (by rw [hlt]; simp)
      have := hl r List.mem_cons_self
      omega
  subst hlnil
  have hbegin : v.find 0 beginIt = beginIt := hat.unique (at_begin h.verified) rfl
  rw [hbegin] at hat
  obtain ⟨q,hq,hqle,hqt,hret⟩ := countWhile_spec stop v.ranges 0
  have hsplit : Separated (q ++ (countWhile stop v.ranges 0).1) := hq ▸ h.separated
  have hcard := card_members_before hsplit hqle hqt
  have hindices : members v.ranges = S := h.indices_eq
  rw [← hq, hindices] at hcard
  -- the loops over chunks and over ranges together are the plain loop
  obtain ⟨D,hD,hv,hs⟩ := verified_iff.mp h.verified
  have hranges : v.ranges = D.flatten := by rw [hv, ranges_ofBlocks]
  have hstep : ∀ A' d C' ret, v = ofBlocks (A' ++ d :: C') → Separated d →
      decide ((v.chunk A'.length).back ≤ stop) = true →
        countWhile stop d ret = ([], ret+(v.chunk A'.length).count) := by
    intro A' d C' ret hv' hd hback
    rw [hv'] at hback ⊢
    rw [chunk_ofBlocks] at hback ⊢
    apply countWhile_all
    intro r hr
    have hlast : lastOf d ≤ stop := of_decide_eq_true hback
    exact Nat.le_trans (le_lastOf hd hr) hlast
  obtain ⟨q',hq',hat',hval⟩ := walk_both (A := []) (C := D) hD hv hs hstep
    (p := fun it _ => (v.chunk it.outer).back ≤ stop)
    (g := fun it ret => ret+(v.chunk it.outer).count)
    (u := fun it _ => (v.deref it).2 ≤ stop)
    (k := fun it ret => ret+((v.deref it).2-(v.deref it).1))
    (fun _ _ => rfl) (fun _ _ => rfl) v.ranges.length v.ranges.length (by rw [hranges]) 0
  rw [← hranges] at hat' hval
  simp only [List.flatten_nil, List.nil_append, List.length_nil] at hat' hval
  generalize hw : walk v (fun it _ => decide ((v.deref it).2 ≤ stop)) v.next
    (fun it ret => ret+((v.deref it).2-(v.deref it).1)) v.ranges.length
    (walk v (fun it _ => decide ((v.chunk it.outer).back ≤ stop)) nextChunk
      (fun it ret => ret+(v.chunk it.outer).count) v.ranges.length ⟨0, 0⟩ 0).1
    (walk v (fun it _ => decide ((v.chunk it.outer).back ≤ stop)) nextChunk
      (fun it ret => ret+(v.chunk it.outer).count) v.ranges.length ⟨0, 0⟩ 0).2 = w at hat' hval
  have hfinish : (if w.1 ≠ v.endIt ∧ (v.deref w.1).1 < stop then w.2+(stop-(v.deref w.1).1)
      else w.2) = (S.filter (fun k => k < stop)).card := by
    rw [hcard, ← Nat.zero_add (width q), ← hret, hval]
    change At b v w.1 q' (countWhile stop v.ranges 0).1 at hat'
    cases hrest : (countWhile stop v.ranges 0).1 with
    | nil =>
      rw [hrest] at hat'
      rw [if_neg (fun hne => hne.1 (hat'.eq_end_iff.mpr rfl))]
      rfl
    | cons r t =>
      rw [hrest] at hat'
      have hend : w.1 ≠ v.endIt := fun he => List.cons_ne_nil r t (hat'.eq_end_iff.mp he)
      rw [hat'.deref_eq]
      by_cases hr : r.1 < stop
      · rw [if_pos ⟨hend, hr⟩]
        rfl
      · rw [if_neg (fun h => hr h.2)]
        have hnone : headBefore stop (r :: t) = 0 := Nat.sub_eq_zero_of_le (Nat.le_of_not_lt hr)
        rw [hnone]
        rfl
  -- the case splits before the loops only return early what the loops would
  have hvt : v.ranges = t := hlt
  simp only [count, hbegin]
  cases t with
  | nil =>
    have hend := hat.eq_end_iff.mpr rfl
    rw [if_pos (Or.inl hend), hcard, countWhile, hvt]
    rw [hvt] at hq
    rw [(List.append_eq_nil_iff.mp hq.symm).1]
    rfl
  | cons r t =>
    have hend : (beginIt : Iterator) ≠ v.endIt :=
      fun he => List.cons_ne_nil r t (hat.eq_end_iff.mp he)
    obtain ⟨hr,hrt,_⟩ := separated_cons.mp (hvt ▸ h.separated)
    rw [hat.deref_eq]
    by_cases hfirst : stop ≤ r.2
    · have hset : S.filter (fun k => k < stop) = Finset.Ico r.1 stop := by
        ext k
        simp only [Finset.mem_filter, ← h.covers_iff, hvt, covers_cons, Finset.mem_Ico]
        constructor
        · rintro ⟨hk | hk,hlt⟩
          · exact ⟨hk.1, hlt⟩
          · exact absurd hk (not_covers_of_lt (fun s hs' => by
              have := hrt s hs'
              omega))
        · intro hk
          exact ⟨Or.inl ⟨hk.1, by omega⟩, hk.2⟩
      rw [hset, Nat.card_Ico]
      by_cases hstop : r.1 ≥ stop
      · rw [if_pos (Or.inr hstop)]
        omega
      · rw [if_neg (by simp [hend]; omega), if_pos hfirst]
        omega
    · rw [if_neg (by simp [hend]; omega), if_neg (by omega), if_neg (by simp [beginIt])]
      rw [← hfinish, ← hw]
      rfl

theorem unshift_eq (h : Represents b v S) (index : ℕ) :
    v.unshift index = IndexShift.unshift S index := by
  have hcard := IndexShift.unshift_add_card (S := S) index
  rw [unshift, count_zero h]
  omega

end IndexSet

end ObjectStore
