import CurrencyConverter.ObjectStore.IndexSetMerges

/-! Adding indexes that were counted without the set and with another set in its place. -/
namespace ObjectStore

open SeparatedRanges ChunkedRangeVector ChunkedRangeVectorBuilder

namespace IndexSet

variable {b : Build} {v shiftedBy values : IndexSet} {S Sh V T : Finset ℕ} {cap : ℕ}

/-- The ranges of the result fit the chunks that the builder was made with. -/
def HasRoom (b : Build) (v values : IndexSet) : Prop :=
  v.ranges.length+values.asIndexes.length ≤ maxSize b*(v.ranges.length/maxSize b+1)

/-- Between two values: the old ranges and the shift ranges that are done, the indexes
written, and a bound `next` for the places the values to come will have without the
shift ranges. -/
structure Shifting (b : Build) (cap : ℕ) (v shiftedBy : IndexSet) (s : ShiftedBy)
    (T : Finset ℕ) (seen next k : ℕ) (oldDone shDone : List Range) : Prop where
  old_eq : v.ranges = oldDone ++ s.old
  oldShift_eq : s.oldShift = width oldDone
  shift_eq : shiftedBy.ranges = shDone ++ s.shiftRanges
  newShift_eq : s.newShift = width shDone
  skipUntil_eq : s.skipUntil = lastOf shDone
  written : Written b cap s.builder (members oldDone ∪ T) (next+s.oldShift) (oldDone.length+k)
  oldDone_le : ∀ r ∈ oldDone, r.2 ≤ next+s.oldShift
  le_old : ∀ r ∈ s.old, next+s.oldShift ≤ r.1
  shDone_lt : ∀ r ∈ shDone, r.1 < seen

theorem shifting_start : Shifting b (v.ranges.length/maxSize b+1) v shiftedBy
    { old := v.ranges, shiftRanges := shiftedBy.ranges, builder := new b v } ∅ 0 0 0 [] [] where
  old_eq := rfl
  oldShift_eq := rfl
  shift_eq := rfl
  newShift_eq := rfl
  skipUntil_eq := rfl
  written := written_new v
  oldDone_le := by simp
  le_old := fun _ _ => Nat.zero_le _
  shDone_lt := by simp

/-- The loop over the shift ranges stops at the first one behind the index. -/
theorem skipShift_go (index : ℕ) (l : List Range) (s : ShiftedBy) : ∃ q t, l = q ++ t ∧
    (∀ r ∈ q, r.1 ≤ index) ∧ (∀ r t', t = r :: t' → index < r.1) ∧
      ShiftedBy.skipShift.go index l s = { s with
        shiftRanges := t
        newShift := s.newShift+width q
        skipUntil := if q = [] then s.skipUntil else lastOf q } := by
  induction l generalizing s with
  | nil => exact ⟨[], [], rfl, by simp, by simp, rfl⟩
  | cons r l ih =>
    rw [ShiftedBy.skipShift.go]
    by_cases hr : r.1 ≤ index
    · rw [if_pos hr]
      obtain ⟨q,t,hl,hq,ht,hval⟩ := ih { s with newShift := s.newShift+(r.2-r.1), skipUntil := r.2 }
      refine ⟨r :: q, t, by rw [hl]; rfl, ?_, ht, ?_⟩
      · intro r' hr'
        rcases List.mem_cons.mp hr' with rfl | hr'
        · exact hr
        · exact hq r' hr'
      · have hlast : (if q = [] then r.2 else lastOf q) = lastOf (r :: q) := by
          by_cases hqe : q = []
          · rw [if_pos hqe, hqe]
            rfl
          · rw [if_neg hqe, ← List.singleton_append, lastOf_append hqe]
        rw [hval, if_neg (List.cons_ne_nil r q), ← hlast, width_cons, Nat.add_assoc]
    · rw [if_neg hr]
      refine ⟨[], r :: l, rfl, by simp, ?_, by simp⟩
      intro r' t' h
      rw [← (List.cons.inj h).1]
      omega

/-- After the loop the shift ranges passed decide whether the index is one of theirs. -/
theorem Shifting.skipShift {s : ShiftedBy} {seen next k index : ℕ} {oldDone shDone : List Range}
    (h : Shifting b cap v shiftedBy s T seen next k oldDone shDone)
    (hSh : Represents b shiftedBy Sh) (hindex : seen ≤ index) : ∃ shDone',
      Shifting b cap v shiftedBy (s.skipShift index) T (index+1) next k oldDone shDone' ∧
        (s.skipShift index).old = s.old ∧ (s.skipShift index).oldShift = s.oldShift ∧
        (index < (s.skipShift index).skipUntil ↔ index ∈ Sh) ∧
        (index ∉ Sh → IndexShift.unshift Sh index+(s.skipShift index).newShift = index) := by
  obtain ⟨q,t,hqt,hq,ht,hval⟩ := skipShift_go index s.shiftRanges s
  have hranges : shiftedBy.ranges = (shDone ++ q) ++ t := by
    rw [h.shift_eq, hqt, List.append_assoc]
  have hs : Separated ((shDone ++ q) ++ t) := hranges ▸ hSh.separated
  have hle : ∀ r ∈ shDone ++ q, r.1 ≤ index := by
    intro r hr
    rcases List.mem_append.mp hr with hr | hr
    · have := h.shDone_lt r hr
      omega
    · exact hq r hr
  have hlt : ∀ r ∈ t, index < r.1 := by
    cases t with
    | nil => simp
    | cons r t =>
      have hr := ht r t rfl
      obtain ⟨hrr,hrt,_⟩ := separated_cons.mp (separated_append.mp hs).2.1
      intro r' hr'
      rcases List.mem_cons.mp hr' with rfl | hr'
      · exact hr
      · have := hrt r' hr'
        omega
  have hlast : (if q = [] then s.skipUntil else lastOf q) = lastOf (shDone ++ q) := by
    by_cases hqe : q = []
    · rw [if_pos hqe, hqe, List.append_nil, h.skipUntil_eq]
    · rw [if_neg hqe, lastOf_append hqe]
  have hval' : s.skipShift index = { s with
      shiftRanges := t, newShift := s.newShift+width q, skipUntil := lastOf (shDone ++ q) } := by
    rw [ShiftedBy.skipShift, hval, hlast]
  -- the last range passed is the only one that can reach the index
  have hskip : index < lastOf (shDone ++ q) ↔ index ∈ Sh := by
    rw [← hSh.covers_iff, hranges, covers_append, or_iff_left (not_covers_of_lt hlt)]
    constructor
    · intro hl
      rcases List.eq_nil_or_concat (shDone ++ q) with he | ⟨q',last,he⟩
      · rw [he] at hl
        exact absurd hl (Nat.not_lt_zero index)
      · rw [List.concat_eq_append] at he
        rw [he, lastOf_concat] at hl
        exact ⟨last, by rw [he]; simp, hle last (by rw [he]; simp), hl⟩
    · rintro ⟨r,hr,hx⟩
      have := le_lastOf (separated_append.mp hs).1 hr
      omega
  rw [hval']
  refine ⟨shDone ++ q, ?_, rfl, rfl, hskip, ?_⟩
  · exact {
      old_eq := h.old_eq
      oldShift_eq := h.oldShift_eq
      shift_eq := hranges
      newShift_eq := by rw [width_append, ← h.newShift_eq]
      skipUntil_eq := rfl
      written := h.written
      oldDone_le := h.oldDone_le
      le_old := h.le_old
      shDone_lt := fun r hr => Nat.lt_succ_of_le (hle r hr) }
  · intro hnot
    have hbefore : ∀ r ∈ shDone ++ q, r.2 ≤ index := by
      intro r hr
      by_contra hgt
      exact hnot ((hSh.covers_iff index).mp ⟨r, by rw [hranges]; exact List.mem_append_left t hr,
        hle r hr, by omega⟩)
    have hu := unshift_members hs hbefore (fun r hr => Nat.le_of_lt (hlt r hr))
    rw [← hranges, width_append, ← h.newShift_eq] at hu
    have hmembers : members shiftedBy.ranges = Sh := hSh.indices_eq
    rwa [hmembers] at hu

theorem members_concat (l : List Range) (r : Range) :
    members (l ++ [r]) = members l ∪ Finset.Ico r.1 r.2 := by
  ext x
  simp only [mem_members, covers_append, covers_cons, covers_nil, or_false, Finset.mem_union,
    Finset.mem_Ico]

/-- The loop over the old ranges copies those that the place `u` passes on its way. -/
theorem copyOld_go {u bound m : ℕ} (index : ℕ) (l done : List Range) (s : ShiftedBy)
    (hu : index-s.newShift = u) (hl : Separated l)
    (hw : Written b cap s.builder (members done ∪ T) bound m) (hbound : bound ≤ u+s.oldShift)
    (hlow : ∀ r ∈ l, bound ≤ r.1) : ∃ q t builder bound', l = q ++ t ∧
      ShiftedBy.copyOld.go b index l s = { s with
        old := t, oldShift := s.oldShift+width q, builder := builder } ∧
      Written b cap builder (members (done ++ q) ∪ T) bound' (m+q.length) ∧
      bound' ≤ u+(s.oldShift+width q) ∧ (∀ r ∈ q, r.2 ≤ u+(s.oldShift+width q)) ∧
      ∀ r ∈ t, u+(s.oldShift+width q) < r.1 := by
  induction l generalizing done s bound m with
  | nil =>
    exact ⟨[], [], s.builder, bound, rfl, rfl, by simpa using hw, hbound, by simp, by simp⟩
  | cons r l ih =>
    obtain ⟨hr,hrl,hsl⟩ := separated_cons.mp hl
    have hlr := hlow r List.mem_cons_self
    rw [ShiftedBy.copyOld.go, hu]
    by_cases hpass : r.1 ≤ u+s.oldShift
    · rw [if_pos hpass]
      obtain ⟨k,hk⟩ : ∃ k, r.2-r.1 = k+1 := ⟨r.2-r.1-1, by omega⟩
      have hend : r.1+(k+1) = r.2 := by omega
      have hpush := hw.pushIndexes hlr k
      rw [hend, Finset.union_right_comm, ← members_concat] at hpush
      obtain ⟨q,t,builder,bound',hq,hval,hw',hb',hle,hlt⟩ := ih (done ++ [r])
        { s with
          builder := (List.range' r.1 (r.2-r.1)).foldl (pushIndex b) s.builder
          oldShift := s.oldShift+(r.2-r.1) } hu hsl (by rw [hk]; exact hpush)
        (by
          change r.2 ≤ u+(s.oldShift+(r.2-r.1))
          omega)
        (fun r' hr' => Nat.le_of_lt (hrl r' hr'))
      rw [List.append_assoc, List.singleton_append] at hw'
      have hwidth : s.oldShift+(r.2-r.1)+width q = s.oldShift+width (r :: q) := by
        rw [width_cons, Nat.add_assoc]
      have hlen : m+1+q.length = m+(r :: q).length := by
        rw [List.length_cons]
        omega
      rw [hlen] at hw'
      simp only [hwidth] at hval hb' hle hlt
      refine ⟨r :: q, t, builder, bound', by rw [hq]; rfl, hval, hw', hb', ?_, hlt⟩
      intro r' hr'
      rcases List.mem_cons.mp hr' with rfl | hr'
      · rw [width_cons]
        omega
      · exact hle r' hr'
    · rw [if_neg hpass]
      refine ⟨[], r :: l, s.builder, bound, rfl, by simp, by simpa using hw, by simpa using hbound,
        by simp, ?_⟩
      intro r' hr'
      rw [width_nil]
      rcases List.mem_cons.mp hr' with rfl | hr'
      · omega
      · have := hrl r' hr'
        omega

/-- One value more: one of the shift ranges' own is skipped, another one is written at its
place in the set. -/
theorem Shifting.value {s : ShiftedBy} {seen next k index : ℕ} {oldDone shDone : List Range}
    (h : Shifting b cap v shiftedBy s T seen next k oldDone shDone) (hv : Represents b v S)
    (hSh : Represents b shiftedBy Sh) (hindex : seen ≤ index)
    (hnext : index ∉ Sh → next ≤ IndexShift.unshift Sh index) : ∃ next' oldDone' shDone',
      Shifting b cap v shiftedBy (s.value b index)
        (if index ∈ Sh then T
          else insert (IndexShift.shift S (IndexShift.unshift Sh index)) T)
        (index+1) next' (k+1) oldDone' shDone' ∧
      ∀ j, index < j → j ∉ Sh → (next ≤ IndexShift.unshift Sh j) →
        next' ≤ IndexShift.unshift Sh j := by
  obtain ⟨shDone',h',hold,hshift,hskip,hrank⟩ := h.skipShift hSh hindex
  rw [ShiftedBy.value]
  by_cases hin : index ∈ Sh
  · rw [if_pos (hskip.mpr hin), if_pos hin]
    refine ⟨next, oldDone, shDone', ?_, fun _ _ _ hj => hj⟩
    obtain ⟨W,hB,hW,hT,hle,hlen⟩ := h'.written
    exact { h' with written := ⟨W, hB, hW, hT, hle, by omega⟩ }
  rw [if_neg (fun hlt => hin (hskip.mp hlt)), if_neg hin]
  have hsold : Separated (oldDone ++ s.old) := h.old_eq ▸ hv.separated
  obtain ⟨q,t,builder,bound',hq,hval,hw,hb,hle,hlt⟩ := copyOld_go
    (u := IndexShift.unshift Sh index) index (s.skipShift index).old oldDone (s.skipShift index)
    (by
      have := hrank hin
      omega)
    (by rw [hold]; exact (separated_append.mp hsold).2.1) h'.written
    (by
      have := hnext hin
      omega)
    (by rw [hold, hshift]; exact h.le_old)
  rw [hold] at hq
  have hranges : v.ranges = (oldDone ++ q) ++ t := by rw [h.old_eq, hq, List.append_assoc]
  have hs : Separated ((oldDone ++ q) ++ t) := hranges ▸ hv.separated
  have hwidth : (s.skipShift index).oldShift+width q = width (oldDone ++ q) := by
    rw [h'.oldShift_eq, width_append]
  rw [hwidth] at hval hb hle hlt
  have hle' : ∀ r ∈ oldDone ++ q, r.2 ≤ IndexShift.unshift Sh index+width (oldDone ++ q) := by
    intro r hr
    rcases List.mem_append.mp hr with hr | hr
    · have h1 := h.oldDone_le r hr
      have h2 := hnext hin
      rw [h.oldShift_eq] at h1
      rw [width_append]
      omega
    · exact hle r hr
  -- the place is behind all the old ranges copied and before the others
  have hplace : IndexShift.shift S (IndexShift.unshift Sh index) =
      IndexShift.unshift Sh index+width (oldDone ++ q) := by
    have hu := unshift_members hs hle' (fun r hr => Nat.le_of_lt (hlt r hr))
    have hmembers : members v.ranges = S := hv.indices_eq
    rw [← hranges, hmembers] at hu
    apply IndexShift.shift_eq
    · intro hmem
      rw [← hv.covers_iff, hranges, covers_append] at hmem
      rcases hmem with hmem | hmem
      · exact not_covers_of_le hle' hmem
      · exact not_covers_of_lt hlt hmem
    · omega
  have hpush := hw.pushIndex hb
  have hfinal : (s.skipShift index).copyOld b index = { s.skipShift index with
      old := t, oldShift := width (oldDone ++ q), builder := builder } := hval
  have hi : index-(s.skipShift index).newShift+width (oldDone ++ q) =
      IndexShift.shift S (IndexShift.unshift Sh index) := by
    have := hrank hin
    rw [hplace]
    omega
  simp only [hfinal, hi]
  refine ⟨IndexShift.unshift Sh index+1, oldDone ++ q, shDone', ?_, ?_⟩
  · exact {
      old_eq := hranges
      oldShift_eq := rfl
      shift_eq := h'.shift_eq
      newShift_eq := h'.newShift_eq
      skipUntil_eq := h'.skipUntil_eq
      written := by
        rw [← hplace] at hpush
        have hset : members (oldDone ++ q) ∪
            insert (IndexShift.shift S (IndexShift.unshift Sh index)) T =
              insert (IndexShift.shift S (IndexShift.unshift Sh index))
                (members (oldDone ++ q) ∪ T) := Finset.union_insert _ _ _
        have hlen : (oldDone ++ q).length+(k+1) = oldDone.length+k+q.length+1 := by
          rw [List.length_append]
          omega
        rw [hset, hlen, Nat.add_right_comm, ← hplace]
        exact hpush
      oldDone_le := fun r hr => by
        have := hle' r hr
        change r.2 ≤ _+1+width (oldDone ++ q)
        omega
      le_old := fun r hr => by
        have := hlt r hr
        change _+1+width (oldDone ++ q) ≤ r.1
        omega
      shDone_lt := h'.shDone_lt }
  · intro j hj hnot _
    exact IndexShift.unshift_lt_unshift hin hj

theorem Shifting.fold (L : List ℕ) {s : ShiftedBy} {seen next k : ℕ}
    {oldDone shDone : List Range} (h : Shifting b cap v shiftedBy s T seen next k oldDone shDone)
    (hv : Represents b v S) (hSh : Represents b shiftedBy Sh) (hL : L.Pairwise (· < ·))
    (hseen : ∀ i ∈ L, seen ≤ i) (hnext : ∀ i ∈ L, i ∉ Sh → next ≤ IndexShift.unshift Sh i) :
    ∃ seen' next' oldDone' shDone', Shifting b cap v shiftedBy (L.foldl (ShiftedBy.value b) s)
      (T ∪ (IndexShift.erased L.toFinset Sh).image (IndexShift.shift S))
      seen' next' (k+L.length) oldDone' shDone' := by
  induction L generalizing s T seen next k oldDone shDone with
  | nil =>
    refine ⟨seen, next, oldDone, shDone, ?_⟩
    simpa [IndexShift.erased] using h
  | cons i L ih =>
    obtain ⟨hi,hL'⟩ := List.pairwise_cons.mp hL
    obtain ⟨next',oldDone',shDone',h',hnext'⟩ := h.value hv hSh (hseen i List.mem_cons_self)
      (hnext i List.mem_cons_self)
    obtain ⟨seen'',next'',oldDone'',shDone'',h''⟩ := ih h' hL'
      (fun j hj => Nat.succ_le_of_lt (hi j hj))
      (fun j hj hnot => hnext' j (hi j hj) hnot (hnext j (List.mem_cons_of_mem i hj) hnot))
    refine ⟨seen'', next'', oldDone'', shDone'', ?_⟩
    have hset : (if i ∈ Sh then T else insert (IndexShift.shift S (IndexShift.unshift Sh i)) T) ∪
        (IndexShift.erased L.toFinset Sh).image (IndexShift.shift S) =
          T ∪ (IndexShift.erased (i :: L).toFinset Sh).image (IndexShift.shift S) := by
      by_cases hin : i ∈ Sh
      · rw [if_pos hin, IndexShift.erased, IndexShift.erased, List.toFinset_cons,
          Finset.insert_sdiff_of_mem _ hin]
      · rw [if_neg hin, IndexShift.erased, IndexShift.erased, List.toFinset_cons,
          Finset.insert_sdiff_of_notMem _ hin, Finset.image_insert, Finset.image_insert,
          Finset.union_insert, Finset.insert_union]
    have hlen : k+1+L.length = k+(i :: L).length := by
      rw [List.length_cons]
      omega
    rw [hset, hlen] at h''
    exact h''

/-- The ranges left over are copied as they are, so each needs a chunk that is expected. -/
theorem written_pushBacks (l : List Range) {builder : ChunkedRangeVectorBuilder} {bound n : ℕ}
    (h : Written b cap builder T bound n) (hl : Separated l) (hlow : ∀ r ∈ l, bound ≤ r.1)
    (hroom : n+l.length ≤ maxSize b*cap) :
    ∃ bound', Written b cap (l.foldl (ChunkedRangeVectorBuilder.pushBack b) builder)
      (T ∪ members l) bound' (n+l.length) := by
  induction l generalizing builder T bound n with
  | nil => exact ⟨bound, by simpa [members] using h⟩
  | cons r l ih =>
    obtain ⟨hr,hrl,hs⟩ := separated_cons.mp hl
    rw [List.length_cons] at hroom
    obtain ⟨bound',h'⟩ := ih
      (h.pushBack hr (hlow r List.mem_cons_self) (Or.inl (by omega))) hs
      (fun r' hr' => Nat.le_of_lt (hrl r' hr')) (by omega)
    refine ⟨bound', ?_⟩
    have hmembers : members (r :: l) = Finset.Ico r.1 r.2 ∪ members l := by
      ext x
      simp only [mem_members, covers_cons, Finset.mem_union, Finset.mem_Ico]
    rw [hmembers, ← Finset.union_assoc, List.length_cons, Nat.add_comm l.length 1,
      ← Nat.add_assoc]
    exact h'

/-- The values outside `shiftedBy` are counted without its indexes and put among the
indexes that the set leaves free. -/
theorem addShiftedBy_represents (hv : Represents b v S) (hSh : Represents b shiftedBy Sh)
    (hV : Represents b values V) (hroom : HasRoom b v values) :
    Represents b (v.addShiftedBy b shiftedBy values)
      (IndexShift.inserted (IndexShift.erased V Sh) S) := by
  rw [addShiftedBy]
  by_cases he : values.isEmpty
  · have hV0 : V = ∅ := (isEmpty_iff hV).mp he
    rw [if_pos he, hV0, IndexShift.empty_erased, IndexShift.empty_inserted]
    exact hv
  rw [if_neg he]
  obtain ⟨seen,next,oldDone,shDone,h⟩ := Shifting.fold values.asIndexes
    shifting_start hv hSh hV.asIndexes_sorted
    (fun i _ => Nat.zero_le i) (fun i _ _ => Nat.zero_le _)
  generalize values.asIndexes.foldl (ShiftedBy.value b)
    { old := v.ranges, shiftRanges := shiftedBy.ranges, builder := new b v } = s at h ⊢
  have hs : Separated (oldDone ++ s.old) := h.old_eq ▸ hv.separated
  have hlength : v.ranges.length = oldDone.length+s.old.length := by
    rw [h.old_eq, List.length_append]
  obtain ⟨bound,hw⟩ := written_pushBacks s.old h.written (separated_append.mp hs).2.1 h.le_old (by
    have := hroom
    rw [HasRoom] at this
    omega)
  have hold : members oldDone ∪ members s.old = S := by
    have hindices : members v.ranges = S := hv.indices_eq
    rw [← hindices, h.old_eq]
    ext x
    simp only [mem_members, covers_append, Finset.mem_union]
  have hset : members oldDone ∪ (∅ ∪ (IndexShift.erased values.asIndexes.toFinset Sh).image
      (IndexShift.shift S)) ∪ members s.old =
        IndexShift.inserted (IndexShift.erased V Sh) S := by
    rw [Finset.empty_union, Finset.union_right_comm, hold, toFinset_asIndexes hV]
    rfl
  rw [hset] at hw
  exact hw.finalize

end IndexSet

end ObjectStore
