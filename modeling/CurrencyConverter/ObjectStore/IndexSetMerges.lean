import CurrencyConverter.ObjectStore.IndexSetBuilder

/-! The operations that run the indexes of two sets through each other. -/
namespace ObjectStore

open SeparatedRanges ChunkedRangeVector ChunkedRangeVectorBuilder

namespace IndexSet

variable {b : Build} {v : IndexSet} {S P T : Finset ℕ} {cap bound n : ℕ}
  {builder : ChunkedRangeVectorBuilder} {old pos : List ℕ} {shift : ℕ}

/-- The loops have consumed the positions of `P` that are not in `pos` any more, and all of
them lie before the old indexes still to come. -/
structure Consumed (P : Finset ℕ) (pos : List ℕ) (shift : ℕ) (before : ℕ → Prop) : Prop where
  sorted : pos.Pairwise (· < ·)
  mem : ∀ p ∈ pos, p ∈ P
  done : ∀ p ∈ P, p ∈ pos ∨ before p
  card : shift+pos.length = P.card

/-- Between the positions consumed and the ones to come, closing them all takes `shift` off. -/
theorem Consumed.unshift_eq {before : ℕ → Prop} (h : Consumed P pos shift before) {j : ℕ}
    (hdone : ∀ p ∈ P, before p → p < j) (hpos : ∀ p ∈ pos, j ≤ p) :
    IndexShift.unshift P j+shift = j := by
  have hcard := IndexShift.unshift_add_card (S := P) j
  have hset : P = P.filter (fun k => k < j) ∪ pos.toFinset := by
    ext p
    rw [Finset.mem_union, Finset.mem_filter, List.mem_toFinset]
    constructor
    · intro hp
      rcases h.done p hp with hin | hb
      · exact Or.inr hin
      · exact Or.inl ⟨hp, hdone p hp hb⟩
    · rintro (hp | hp)
      · exact hp.1
      · exact h.mem p hp
  have hdisj : Disjoint (P.filter (fun k => k < j)) pos.toFinset := by
    rw [Finset.disjoint_left]
    intro p hp hin
    have := hpos p (List.mem_toFinset.mp hin)
    have := (Finset.mem_filter.mp hp).2
    omega
  have hsum := congrArg Finset.card hset
  rw [Finset.card_union_of_disjoint hdisj, List.toFinset_card_of_nodup
    (h.sorted.imp (fun hab => Nat.ne_of_lt hab)), ← h.card] at hsum
  omega

theorem Consumed.shift_eq {before : ℕ → Prop} (h : Consumed P pos shift before) {i : ℕ}
    (hdone : ∀ p ∈ P, before p → p < i+shift) (hpos : ∀ p ∈ pos, i+shift < p) :
    IndexShift.shift P i = i+shift := by
  have hu := h.unshift_eq hdone (fun p hp => Nat.le_of_lt (hpos p hp))
  apply IndexShift.shift_eq
  · intro hin
    rcases h.done _ hin with hin' | hb
    · have := hpos _ hin'
      omega
    · have := hdone _ hin hb
      omega
  · omega

theorem Consumed.next {before before' : ℕ → Prop} {p : ℕ} (h : Consumed P (p :: pos) shift before)
    (hp : before' p) (hb : ∀ q, before q → before' q) : Consumed P pos (shift+1) before' := by
  refine ⟨(List.pairwise_cons.mp h.sorted).2, fun q hq => h.mem q (List.mem_cons_of_mem p hq),
    ?_, ?_⟩
  · intro q hq
    rcases h.done q hq with hin | hq'
    · rcases List.mem_cons.mp hin with rfl | hin
      · exact Or.inr hp
      · exact Or.inl hin
    · exact Or.inr (hb q hq')
  · have := h.card
    rw [List.length_cons] at this
    omega

theorem Consumed.mono {before before' : ℕ → Prop} (h : Consumed P pos shift before)
    (hb : ∀ q, before q → before' q) : Consumed P pos shift before' :=
  ⟨h.sorted, h.mem, fun q hq => (h.done q hq).imp_right (hb q), h.card⟩

/-- With no position to come, the rest of the old indexes is pushed by the shift. -/
theorem pushRest_written (hold : old.Pairwise (· < ·)) (h : Written b cap builder T bound n)
    (hb : ∀ i ∈ old, bound ≤ i+shift) : ∃ bound' n',
      Written b cap (old.foldl (fun builder i => builder.pushIndex b (i+shift)) builder)
        (T ∪ (old.map (fun i => i+shift)).toFinset) bound' n' := by
  have hmap : old.foldl (fun builder i => builder.pushIndex b (i+shift)) builder =
      (old.map (fun i => i+shift)).foldl (pushIndex b) builder := by rw [List.foldl_map]
  rw [hmap]
  obtain ⟨bound',h'⟩ := Written.foldl (old.map (fun i => i+shift)) h
    (List.pairwise_map.mpr (hold.imp (fun hij => Nat.add_lt_add_right hij shift)))
    (by
      intro i hi
      obtain ⟨j,hj,rfl⟩ := List.mem_map.mp hi
      exact hb j hj)
  exact ⟨bound', _, h'⟩

theorem toFinset_map_shift (h : ∀ i ∈ old, IndexShift.shift P i = i+shift) :
    (old.map (fun i => i+shift)).toFinset = old.toFinset.image (IndexShift.shift P) := by
  ext x
  simp only [List.mem_toFinset, List.mem_map, Finset.mem_image]
  constructor
  · rintro ⟨i,hi,rfl⟩
    exact ⟨i, hi, h i hi⟩
  · rintro ⟨i,hi,rfl⟩
    exact ⟨i, hi, (h i hi).symm⟩

/-- A position not reached yet is behind everything consumed for the next old index. -/
theorem Consumed.reaches {i p : ℕ} (h : Consumed P (p :: pos) shift
    (fun q => ∀ j ∈ i :: old, q < j+shift)) (hold : (i :: old).Pairwise (· < ·))
    (hp : ¬ i+shift < p) : Consumed P pos (shift+1) (fun q => ∀ j ∈ i :: old, q < j+(shift+1)) := by
  apply h.next
  · intro j hj
    rcases List.mem_cons.mp hj with rfl | hj
    · omega
    · have := (List.pairwise_cons.mp hold).1 j hj
      omega
  · intro q hq j hj
    have := hq j hj
    omega

theorem Consumed.tail {i : ℕ} (h : Consumed P pos shift (fun q => ∀ j ∈ i :: old, q < j+shift)) :
    Consumed P pos shift (fun q => ∀ j ∈ old, q < j+shift) :=
  h.mono (fun _ hq j hj => hq j (List.mem_cons_of_mem i hj))

theorem Consumed.head_shift {i p : ℕ} (h : Consumed P (p :: pos) shift
    (fun q => ∀ j ∈ i :: old, q < j+shift)) (hp : i+shift < p) :
    IndexShift.shift P i = i+shift := by
  apply h.shift_eq
  · exact fun q _ hq => hq i List.mem_cons_self
  · intro q hq
    rcases List.mem_cons.mp hq with rfl | hq
    · exact hp
    · have := (List.pairwise_cons.mp h.sorted).1 q hq
      omega

theorem insertLoop_written (hc : Consumed P pos shift (fun q => ∀ j ∈ old, q < j+shift))
    (hold : old.Pairwise (· < ·)) (h : Written b cap builder T bound n)
    (hbo : ∀ i ∈ old, bound ≤ i+shift) (hbp : ∀ p ∈ pos, bound ≤ p) : ∃ bound' n',
      Written b cap (insertLoop b old pos shift builder)
        (T ∪ (pos.toFinset ∪ old.toFinset.image (IndexShift.shift P))) bound' n' := by
  induction old, pos, shift, builder using insertLoop.induct b generalizing T bound n with
  | case1 old shift builder =>
    obtain ⟨bound',n',h'⟩ := pushRest_written hold h hbo
    have hset : (old.map (fun i => i+shift)).toFinset = old.toFinset.image (IndexShift.shift P) :=
      toFinset_map_shift (fun i hi => hc.shift_eq (fun q _ hq => hq i hi) (by simp))
    rw [hset] at h'
    rw [insertLoop, List.toFinset_nil, Finset.empty_union]
    exact ⟨bound', n', h'⟩
  | case2 pos shift builder hne =>
    obtain ⟨bound',h'⟩ := Written.foldl pos h hc.sorted hbp
    rw [insertLoop.eq_2 b pos shift builder hne, List.toFinset_nil, Finset.image_empty,
      Finset.union_empty]
    exact ⟨bound', _, h'⟩
  | case3 i old p pos shift builder hlt ih =>
    have hi := hc.head_shift hlt
    have hset : T ∪ ((p :: pos).toFinset ∪ (i :: old).toFinset.image (IndexShift.shift P)) =
        insert (i+shift) T ∪ ((p :: pos).toFinset ∪
          old.toFinset.image (IndexShift.shift P)) := by
      rw [List.toFinset_cons (a := i), Finset.image_insert, hi, Finset.union_insert,
        Finset.union_insert, Finset.insert_union]
    rw [insertLoop, if_pos hlt, hset]
    refine ih hc.tail (List.pairwise_cons.mp hold).2
      (h.pushIndex (hbo i List.mem_cons_self)) ?_ ?_
    · intro j hj
      have := (List.pairwise_cons.mp hold).1 j hj
      omega
    · intro q hq
      rcases List.mem_cons.mp hq with rfl | hq
      · omega
      · have := (List.pairwise_cons.mp hc.sorted).1 q hq
        omega
  | case4 i old p pos shift builder hlt ih =>
    have hset : T ∪ ((p :: pos).toFinset ∪ (i :: old).toFinset.image (IndexShift.shift P)) =
        insert p T ∪ (pos.toFinset ∪ (i :: old).toFinset.image (IndexShift.shift P)) := by
      rw [List.toFinset_cons (a := p), Finset.insert_union, Finset.union_insert,
        Finset.insert_union]
    rw [insertLoop, if_neg hlt, hset]
    refine ih (hc.reaches hold hlt) hold (h.pushIndex (hbp p List.mem_cons_self)) ?_ ?_
    · intro j hj
      rcases List.mem_cons.mp hj with rfl | hj
      · omega
      · have := (List.pairwise_cons.mp hold).1 j hj
        omega
    · intro q hq
      have := (List.pairwise_cons.mp hc.sorted).1 q hq
      omega

theorem shiftLoop_written (hc : Consumed P pos shift (fun q => ∀ j ∈ old, q < j+shift))
    (hold : old.Pairwise (· < ·)) (h : Written b cap builder T bound n)
    (hbo : ∀ i ∈ old, bound ≤ i+shift) : ∃ bound' n',
      Written b cap (shiftLoop b old pos shift builder)
        (T ∪ old.toFinset.image (IndexShift.shift P)) bound' n' := by
  induction old, pos, shift, builder using shiftLoop.induct b generalizing T bound n with
  | case1 old shift builder =>
    obtain ⟨bound',n',h'⟩ := pushRest_written hold h hbo
    have hset : (old.map (fun i => i+shift)).toFinset = old.toFinset.image (IndexShift.shift P) :=
      toFinset_map_shift (fun i hi => hc.shift_eq (fun q _ hq => hq i hi) (by simp))
    rw [hset] at h'
    rw [shiftLoop]
    exact ⟨bound', n', h'⟩
  | case2 pos shift builder hne =>
    rw [shiftLoop.eq_2 b pos shift builder hne, List.toFinset_nil, Finset.image_empty,
      Finset.union_empty]
    exact ⟨bound, n, h⟩
  | case3 i old p pos shift builder hlt ih =>
    have hi := hc.head_shift hlt
    have hset : T ∪ (i :: old).toFinset.image (IndexShift.shift P) =
        insert (i+shift) T ∪ old.toFinset.image (IndexShift.shift P) := by
      rw [List.toFinset_cons, Finset.image_insert, hi, Finset.union_insert, Finset.insert_union]
    rw [shiftLoop, if_pos hlt, hset]
    refine ih hc.tail (List.pairwise_cons.mp hold).2
      (h.pushIndex (hbo i List.mem_cons_self)) ?_
    intro j hj
    have := (List.pairwise_cons.mp hold).1 j hj
    omega
  | case4 i old p pos shift builder hlt ih =>
    rw [shiftLoop, if_neg hlt]
    refine ih (hc.reaches hold hlt) hold h ?_
    intro j hj
    have := hbo j hj
    omega

theorem toFinset_asIndexes (h : Represents b v S) : v.asIndexes.toFinset = S := by
  ext x
  rw [List.mem_toFinset, h.mem_asIndexes]

/-- Before the loops nothing is consumed. -/
theorem consumed_start {positions : IndexSet} (h : Represents b positions P)
    (before : ℕ → Prop) : Consumed P positions.asIndexes 0 before := by
  refine ⟨h.asIndexes_sorted, fun p hp => (h.mem_asIndexes p).mp hp,
    fun p hp => Or.inl ((h.mem_asIndexes p).mpr hp), ?_⟩
  rw [Nat.zero_add, ← toFinset_asIndexes h, List.toFinset_card_of_nodup
    (h.asIndexes_sorted.imp (fun hab => Nat.ne_of_lt hab))]

theorem insertAtAll_represents {positions : IndexSet} (h : Represents b v S)
    (hP : Represents b positions P) :
    Represents b (v.insertAtAll b positions) (IndexShift.inserted S P) := by
  rw [insertAtAll]
  by_cases hpe : positions.isEmpty = true
  · rw [if_pos hpe, (isEmpty_iff hP).mp hpe, IndexShift.inserted_empty]
    exact h
  rw [if_neg hpe]
  by_cases hve : v.isEmpty = true
  · rw [if_pos hve, (isEmpty_iff h).mp hve, IndexShift.empty_inserted]
    exact hP
  rw [if_neg hve]
  obtain ⟨bound,n,hw⟩ := insertLoop_written (consumed_start hP _) h.asIndexes_sorted
    (written_new (b := b) v) (fun i _ => Nat.zero_le _) (fun p _ => Nat.zero_le p)
  rw [Finset.empty_union, toFinset_asIndexes h, toFinset_asIndexes hP] at hw
  exact hw.finalize

theorem back_eq (h : Represents b v S) (hne : v.isEmpty ≠ true) :
    ∀ x ∈ S, x < (v.data.getLast?.getD {}).back := by
  obtain ⟨D,hD,rfl,hs⟩ := verified_iff.mp h.verified
  rcases List.eq_nil_or_concat D with rfl | ⟨A,d,rfl⟩
  · exact absurd rfl hne
  · rw [List.concat_eq_append] at *
    have hback : ((ofBlocks (A ++ [d])).data.getLast?.getD {}).back = lastOf (A ++ [d]).flatten := by
      have hd : d ≠ [] := (hD d (by simp)).1
      simp [ofBlocks, Chunk.ofData, lastOf_append hd]
    intro x hx
    rw [hback]
    obtain ⟨r,hr,hx⟩ := (h.covers_iff x).mpr hx
    rw [ranges_ofBlocks] at hr
    have := le_lastOf hs hr
    omega

theorem front_eq (h : Represents b v S) : ∀ x ∈ S, (v.chunk 0).front ≤ x := by
  obtain ⟨D,hD,rfl,hs⟩ := verified_iff.mp h.verified
  intro x hx
  obtain ⟨r,hr,hx⟩ := (h.covers_iff x).mpr hx
  rw [ranges_ofBlocks] at hr
  cases D with
  | nil => simp at hr
  | cons d D =>
    cases d with
    | nil => exact absurd rfl (hD [] (by simp)).1
    | cons r' d =>
      have hfront : ((ofBlocks ((r' :: d) :: D)).chunk 0).front = r'.1 := rfl
      rw [hfront]
      rw [List.flatten_cons, List.cons_append] at hs hr
      exact hs.first_le ⟨r, hr, hx⟩

theorem image_shift_eq_self (h : ∀ i ∈ S, ∀ p ∈ P, i < p) : S.image (IndexShift.shift P) = S := by
  have hi : ∀ i ∈ S, IndexShift.shift P i = i := by
    intro i hi
    apply IndexShift.shift_eq
    · intro hp
      exact Nat.lt_irrefl i (h i hi i hp)
    · have hcard := IndexShift.unshift_add_card (S := P) i
      have hempty : P.filter (fun k => k < i) = ∅ := by
        rw [Finset.filter_eq_empty_iff]
        intro p hp
        have := h i hi p hp
        omega
      rw [hempty, Finset.card_empty] at hcard
      exact hcard
  ext x
  rw [Finset.mem_image]
  constructor
  · rintro ⟨i,hx,rfl⟩
    rwa [hi i hx]
  · exact fun hx => ⟨x, hx, hi x hx⟩

theorem shiftForInsertAtAll_represents {values : IndexSet} (h : Represents b v S)
    (hP : Represents b values P) :
    Represents b (v.shiftForInsertAtAll b values) (S.image (IndexShift.shift P)) := by
  rw [shiftForInsertAtAll]
  by_cases he : v.isEmpty = true ∨ values.isEmpty = true
  · rw [if_pos he]
    have hset : S.image (IndexShift.shift P) = S := by
      apply image_shift_eq_self
      rcases he with he | he
      · simp [(isEmpty_iff h).mp he]
      · simp [(isEmpty_iff hP).mp he]
    rwa [hset]
  rw [if_neg he]
  by_cases hfar : (v.data.getLast?.getD {}).back ≤ (values.chunk 0).front
  · rw [if_pos hfar, image_shift_eq_self]
    · exact h
    · intro i hi p hp
      have := back_eq h (fun hv => he (Or.inl hv)) i hi
      have := front_eq hP p hp
      omega
  rw [if_neg hfar]
  obtain ⟨bound,n,hw⟩ := shiftLoop_written (consumed_start hP _) h.asIndexes_sorted
    (written_new (b := b) v) (fun i _ => Nat.zero_le _)
  rw [Finset.empty_union, toFinset_asIndexes h] at hw
  exact hw.finalize

theorem eraseLoop_written (hc : Consumed P pos shift (fun q => ∀ j ∈ old, q < j))
    (hold : old.Pairwise (· < ·)) (h : Written b cap builder T bound n)
    (hbo : ∀ i ∈ old, bound+shift ≤ i) (hbp : ∀ p ∈ pos, bound+shift ≤ p) : ∃ bound' n',
      Written b cap (eraseLoop b old pos shift builder)
        (T ∪ (old.toFinset \ P).image (IndexShift.unshift P)) bound' n' := by
  induction old, pos, shift, builder using eraseLoop.induct b generalizing T bound n with
  | case1 old shift builder =>
    have hout : ∀ i ∈ old, i ∉ P := by
      intro i hi hp
      rcases hc.done i hp with hin | hlt
      · simp at hin
      · exact Nat.lt_irrefl i (hlt i hi)
    have hu : ∀ i ∈ old, IndexShift.unshift P i = i-shift := by
      intro i hi
      have := hc.unshift_eq (j := i) (fun q _ hq => hq i hi) (by simp)
      omega
    have hmap : old.foldl (fun builder i => builder.pushIndex b (i-shift)) builder =
        (old.map (fun i => i-shift)).foldl (pushIndex b) builder := by rw [List.foldl_map]
    obtain ⟨bound',h'⟩ := Written.foldl (old.map (fun i => i-shift)) h
      (List.pairwise_map.mpr (hold.imp_of_mem (fun hi _ hij => by
        have := hbo _ hi
        omega)))
      (by
        intro i hi
        obtain ⟨j,hj,rfl⟩ := List.mem_map.mp hi
        have := hbo j hj
        omega)
    have hset : (old.map (fun i => i-shift)).toFinset =
        (old.toFinset \ P).image (IndexShift.unshift P) := by
      ext x
      simp only [List.mem_toFinset, List.mem_map, Finset.mem_image, Finset.mem_sdiff]
      constructor
      · rintro ⟨i,hi,rfl⟩
        exact ⟨i, ⟨hi, hout i hi⟩, hu i hi⟩
      · rintro ⟨i,⟨hi,_⟩,rfl⟩
        exact ⟨i, hi, (hu i hi).symm⟩
    rw [hset] at h'
    rw [eraseLoop, hmap]
    exact ⟨bound', _, h'⟩
  | case2 pos shift builder hne =>
    rw [eraseLoop.eq_2 b pos shift builder hne, List.toFinset_nil, Finset.empty_sdiff,
      Finset.image_empty, Finset.union_empty]
    exact ⟨bound, n, h⟩
  | case3 i old p pos shift builder hlt ih =>
    have hpos : ∀ q ∈ p :: pos, i < q := by
      intro q hq
      rcases List.mem_cons.mp hq with rfl | hq
      · exact hlt
      · have := (List.pairwise_cons.mp hc.sorted).1 q hq
        omega
    have hu := hc.unshift_eq (j := i) (fun q _ hq => hq i List.mem_cons_self)
      (fun q hq => Nat.le_of_lt (hpos q hq))
    have hi : i ∉ P := by
      intro hp
      rcases hc.done i hp with hin | hb
      · exact Nat.lt_irrefl i (hpos i hin)
      · exact Nat.lt_irrefl i (hb i List.mem_cons_self)
    have hui : IndexShift.unshift P i = i-shift := by omega
    have hset : T ∪ ((i :: old).toFinset \ P).image (IndexShift.unshift P) =
        insert (i-shift) T ∪ (old.toFinset \ P).image (IndexShift.unshift P) := by
      rw [List.toFinset_cons, Finset.insert_sdiff_of_notMem _ hi, Finset.image_insert, hui,
        Finset.union_insert, Finset.insert_union]
    have hbi := hbo i List.mem_cons_self
    rw [eraseLoop, if_pos hlt, hset]
    refine ih (hc.mono (fun q hq j hj => hq j (List.mem_cons_of_mem i hj)))
      (List.pairwise_cons.mp hold).2 (h.pushIndex (by omega)) ?_ ?_
    · intro j hj
      have := (List.pairwise_cons.mp hold).1 j hj
      omega
    · intro q hq
      have := hpos q hq
      omega
  | case4 old p pos shift builder hlt ih =>
    have hset : ((p :: old).toFinset \ P) = old.toFinset \ P := by
      rw [List.toFinset_cons, Finset.insert_sdiff_of_mem _ (hc.mem p List.mem_cons_self)]
    have hbp' := hbp p List.mem_cons_self
    rw [eraseLoop, if_neg hlt, if_pos rfl, hset]
    refine ih ?_ (List.pairwise_cons.mp hold).2 h ?_ ?_
    · exact hc.next (fun j hj => (List.pairwise_cons.mp hold).1 j hj)
        (fun q hq j hj => hq j (List.mem_cons_of_mem p hj))
    · intro j hj
      have := (List.pairwise_cons.mp hold).1 j hj
      omega
    · intro q hq
      have := (List.pairwise_cons.mp hc.sorted).1 q hq
      omega
  | case5 i old p pos shift builder hlt hne ih =>
    have hpi : p < i := by omega
    have hbp' := hbp p List.mem_cons_self
    rw [eraseLoop, if_neg hlt, if_neg hne]
    refine ih ?_ hold h ?_ ?_
    · refine hc.next ?_ (fun q hq => hq)
      intro j hj
      rcases List.mem_cons.mp hj with rfl | hj
      · exact hpi
      · have := (List.pairwise_cons.mp hold).1 j hj
        omega
    · intro j hj
      rcases List.mem_cons.mp hj with rfl | hj
      · omega
      · have := (List.pairwise_cons.mp hold).1 j hj
        omega
    · intro q hq
      have := (List.pairwise_cons.mp hc.sorted).1 q hq
      omega

theorem eraseAtAll_represents {positions : IndexSet} (h : Represents b v S)
    (hP : Represents b positions P) :
    Represents b (v.eraseAtAll b positions) (IndexShift.erased S P) := by
  rw [eraseAtAll]
  by_cases he : v.isEmpty = true ∨ positions.isEmpty = true
  · rw [if_pos he]
    have hset : IndexShift.erased S P = S := by
      rcases he with he | he
      · rw [(isEmpty_iff h).mp he, IndexShift.empty_erased]
      · rw [(isEmpty_iff hP).mp he, IndexShift.erased_empty]
    rwa [hset]
  rw [if_neg he]
  obtain ⟨bound,n,hw⟩ := eraseLoop_written (consumed_start hP _) h.asIndexes_sorted
    (written_new (b := b) v) (fun i _ => Nat.zero_le _) (fun p _ => Nat.zero_le p)
  rw [Finset.empty_union, toFinset_asIndexes h] at hw
  exact hw.finalize

end IndexSet

end ObjectStore
