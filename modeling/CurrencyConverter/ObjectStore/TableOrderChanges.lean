import CurrencyConverter.ObjectStore.CalculatedChanges

/-! Results in the order of the table: rows only stand elsewhere when the last row of the table
took the place of a deleted one. -/
namespace ObjectStore

namespace CollectionChangeBuilder

variable {b : Build} {prevRows : List (Option ℕ)} {nextRows : List ℕ} {K : Finset ℕ}
  {rows gone fresh : List RowInfo}

/-- The old rows at their new positions in the table, when the rows `K` may have moved: the
other ones keep their order, and whatever stood behind a row that moved has moved as well. -/
structure InTableOrder (K : Finset ℕ) (prevRows : List (Option ℕ)) (nextRows : List ℕ) :
    Prop where
  next_sorted : nextRows.Pairwise (· < ·)
  unique : ∀ (i j row : ℕ), prevRows[i]? = some (some row) → prevRows[j]? = some (some row) →
    i = j
  stay : ∀ (i j row row' : ℕ), i < j → prevRows[i]? = some (some row) →
    prevRows[j]? = some (some row') → row ∉ K → row' ∉ K → row < row'
  behind : ∀ (i j row row' : ℕ), i < j → prevRows[i]? = some (some row) →
    prevRows[j]? = some (some row') → row ∈ K → row' ∈ K

/-- The walk over the rows in both results: of the rows that are done some have matched and
some have moved, and the ones that matched stood before all that are still to come. -/
structure Walking (b : Build) (rows gone fresh done rest : List RowInfo)
    (c : CollectionChangeBuilder) (matched moved : List RowInfo) (expected : ℕ)
    (s : IndexSet × CollectionChangeBuilder) : Prop where
  rows_eq : rows = done ++ rest
  split : (matched ++ moved).Perm done
  sorted : matched.Pairwise (fun x y => x.prev < y.prev ∧ x.tvIndex < y.tvIndex)
  before : ∀ x ∈ matched, ∀ y ∈ rest, x.prev < y.prev
  expected_eq : expected = 0 ∨ ∃ x ∈ matched, expected = x.shiftedTvIndex+1
  removed : IndexSet.Represents b s.1
    ((gone.map RowInfo.tvIndex).toFinset ∪ (moved.map RowInfo.prev).toFinset)
  insertions : IndexSet.Represents b s.2.insertions
    ((fresh.map RowInfo.tvIndex).toFinset ∪ (moved.map RowInfo.tvIndex).toFinset)
  moves_eq : s.2.moves = moved.map (fun row => ⟨row.prev, row.tvIndex⟩)
  deletions_eq : s.2.deletions = c.deletions
  modifications_eq : s.2.modifications = c.modifications
  columns_eq : s.2.columns = c.columns

theorem rows_increasing (h : Shared b prevRows nextRows rows gone fresh)
    (hnext : nextRows.Pairwise (· < ·)) :
    rows.Pairwise (fun x y => x.rowIndex < y.rowIndex) := by
  refine h.sorted.imp_of_mem ?_
  intro x y hx hy hxy
  obtain ⟨hi,hxi⟩ := List.getElem?_eq_some_iff.mp (h.new_row x hx)
  obtain ⟨hj,hyj⟩ := List.getElem?_eq_some_iff.mp (h.new_row y hy)
  rw [← hxi, ← hyj]
  exact List.pairwise_iff_getElem.mp hnext _ _ hi hj hxy

theorem not_missing (h : Shared b prevRows nextRows rows gone fresh) {row : RowInfo}
    (hrow : row ∈ rows) : row.prev ∉ (missing prevRows 0).toFinset := by
  rw [List.mem_toFinset, mem_missing, h.old_row row hrow]
  simp

theorem prev_inj (h : Shared b prevRows nextRows rows gone fresh) {x y : RowInfo}
    (hx : x ∈ rows) (hy : y ∈ rows) (he : x.prev = y.prev) : x = y :=
  List.inj_on_of_nodup_map h.prev_nodup hx hy he

/-- Ranks tell the order of the rows. -/
theorem prev_lt_iff (h : Shared b prevRows nextRows rows gone fresh) {x y : RowInfo}
    (hx : x ∈ rows) (hy : y ∈ rows) : x.shiftedTvIndex < y.shiftedTvIndex ↔ x.prev < y.prev := by
  rw [h.shifted x hx, h.shifted y hy]
  constructor
  · intro hlt
    by_contra hle
    have := IndexShift.unshift_mono (S := (missing prevRows 0).toFinset)
      (Nat.le_of_not_lt hle)
    omega
  · exact fun hlt => IndexShift.unshift_lt_unshift (not_missing h hx) hlt

variable {done rest : List RowInfo} {c : CollectionChangeBuilder} {matched moved : List RowInfo}
  {expected : ℕ} {s : IndexSet × CollectionChangeBuilder} {row : RowInfo}

theorem Walking.mem_rows (hw : Walking b rows gone fresh done (row :: rest) c matched moved
    expected s) : row ∈ rows ∧ (∀ x ∈ rest, x ∈ rows) ∧ (∀ x ∈ matched, x ∈ rows) ∧
      ∀ x ∈ moved, x ∈ rows := by
  rw [hw.rows_eq]
  refine ⟨by simp, fun x hx => by simp [hx], ?_, ?_⟩
  · intro x hx
    exact List.mem_append_left _ (hw.split.subset (List.mem_append_left _ hx))
  · intro x hx
    exact List.mem_append_left _ (hw.split.subset (List.mem_append_right _ hx))

/-- The next row matches. -/
theorem Walking.matches (hw : Walking b rows gone fresh done (row :: rest) c matched moved
    expected s) (h : Shared b prevRows nextRows rows gone fresh)
    (hbefore : ∀ y ∈ rest, row.prev < y.prev) :
    Walking b rows gone fresh (done ++ [row]) rest c (matched ++ [row]) moved
      (row.shiftedTvIndex+1) s := by
  have hsorted := h.sorted
  rw [hw.rows_eq] at hsorted
  refine { hw with
    rows_eq := by rw [hw.rows_eq, List.append_assoc]; rfl
    split := ?_, sorted := ?_, before := ?_, expected_eq := ?_ }
  · have hperm : ((matched ++ [row]) ++ moved).Perm ((matched ++ moved) ++ [row]) := by
      rw [List.append_assoc, List.append_assoc]
      exact List.perm_append_comm.append_left matched
    exact hperm.trans (hw.split.append_right _)
  · refine List.pairwise_append.mpr ⟨hw.sorted, List.pairwise_singleton _ _, ?_⟩
    intro x hx y hy
    rw [List.mem_singleton.mp hy]
    have hdone : x ∈ done := hw.split.subset (List.mem_append_left _ hx)
    exact ⟨hw.before x hx row List.mem_cons_self,
      (List.pairwise_append.mp hsorted).2.2 x hdone row List.mem_cons_self⟩
  · intro x hx y hy
    rcases List.mem_append.mp hx with hx | hx
    · exact hw.before x hx y (List.mem_cons_of_mem _ hy)
    · rw [List.mem_singleton.mp hx]
      exact hbefore y hy
  · exact Or.inr ⟨row, by simp, rfl⟩

/-- The next row has moved. -/
theorem Walking.moves (hw : Walking b rows gone fresh done (row :: rest) c matched moved
    expected s) : Walking b rows gone fresh (done ++ [row]) rest c matched (moved ++ [row])
      expected (s.1.add b row.prev, { s.2 with
        moves := s.2.moves ++ [⟨row.prev, row.tvIndex⟩]
        insertions := s.2.insertions.add b row.tvIndex }) := by
  refine ⟨by rw [hw.rows_eq, List.append_assoc]; rfl, ?_, hw.sorted,
    fun x hx y hy => hw.before x hx y (List.mem_cons_of_mem _ hy), hw.expected_eq, ?_, ?_, ?_,
    hw.deletions_eq, hw.modifications_eq, hw.columns_eq⟩
  · rw [← List.append_assoc]
    exact hw.split.append_right _
  · have hadd := IndexSet.add_represents hw.removed row.prev
    rw [List.map_append, List.toFinset_append, ← Finset.union_assoc]
    rwa [Finset.insert_eq, Finset.union_comm] at hadd
  · have hadd := IndexSet.add_represents hw.insertions row.tvIndex
    rw [List.map_append, List.toFinset_append, ← Finset.union_assoc]
    rwa [Finset.insert_eq, Finset.union_comm] at hadd
  · change s.2.moves ++ _ = _
    rw [hw.moves_eq, List.map_append]
    rfl

/-! Why the rows to come stand behind one that matches -/

theorem stays_before (h : Shared b prevRows nextRows rows gone fresh)
    (horder : InTableOrder K prevRows nextRows) {y : RowInfo} (hx : row ∈ rows) (hy : y ∈ rows)
    (hK : row.rowIndex ∉ K) (hlt : row.rowIndex < y.rowIndex) : row.prev < y.prev := by
  by_contra hle
  have hne : y.prev ≠ row.prev := by
    intro he
    rw [prev_inj h hy hx he] at hlt
    exact Nat.lt_irrefl _ hlt
  have hback : y.prev < row.prev := by omega
  by_cases hyK : y.rowIndex ∈ K
  · exact hK (horder.behind _ _ _ _ hback (h.old_row y hy) (h.old_row row hx) hyK)
  · have := horder.stay _ _ _ _ hback (h.old_row y hy) (h.old_row row hx) hyK hK
    omega

theorem Walking.expected_before (hw : Walking b rows gone fresh done (row :: rest) c matched
    moved expected s) (h : Shared b prevRows nextRows rows gone fresh)
    (hexpected : row.shiftedTvIndex = expected) : ∀ y ∈ rest, row.prev < y.prev := by
  obtain ⟨hrow,hrest,hmatched,_⟩ := hw.mem_rows
  intro y hy
  have hne : row.prev ≠ y.prev := by
    intro he
    have hsorted := h.sorted
    rw [hw.rows_eq] at hsorted
    have hlt := (List.pairwise_cons.mp (List.pairwise_append.mp hsorted).2.1).1 y hy
    rw [prev_inj h hrow (hrest y hy) he] at hlt
    exact Nat.lt_irrefl _ hlt
  have hge : ¬ y.shiftedTvIndex < row.shiftedTvIndex := by
    rcases hw.expected_eq with hzero | ⟨x,hx,hxe⟩
    · omega
    · have hxy := hw.before x hx y (List.mem_cons_of_mem _ hy)
      have := (prev_lt_iff h (hmatched x hx) (hrest y hy)).mpr hxy
      omega
  by_contra hle
  exact hge ((prev_lt_iff h (hrest y hy) hrow).mpr (by omega))

theorem Walking.apart (hw : Walking b rows gone fresh done (row :: rest) c matched moved
    expected s) (h : Shared b prevRows nextRows rows gone fresh) {x y : RowInfo}
    (hx : x ∈ matched) : y ∈ moved ∨ y ∈ row :: rest → x ≠ y := by
  have hrows : rows.Nodup := by
    refine List.Pairwise.imp ?_ h.sorted
    intro y z hlt he
    rw [he] at hlt
    exact Nat.lt_irrefl _ hlt
  rw [hw.rows_eq] at hrows
  obtain ⟨hdone,_,happart⟩ := List.nodup_append.mp hrows
  rintro (hy | hy)
  · exact (List.nodup_append.mp (hw.split.nodup_iff.mpr hdone)).2.2 x hx y hy
  · exact happart x (hw.split.subset (List.mem_append_left _ hx)) y hy

theorem place_inj (h : Shared b prevRows nextRows rows gone fresh) {x y : RowInfo}
    (hx : x ∈ rows) (hy : y ∈ rows) (he : x.tvIndex = y.tvIndex) : x = y := by
  have hnodup : (rows.map RowInfo.tvIndex).Nodup :=
    List.pairwise_map.mpr (h.sorted.imp Nat.ne_of_lt)
  exact List.inj_on_of_nodup_map hnodup hx hy he

/-- As many rows have matched as there are old ones among the new rows before this one. -/
theorem Walking.count_matched (hw : Walking b rows gone fresh done (row :: rest) c matched
    moved expected s) (h : Shared b prevRows nextRows rows gone fresh) :
    row.tvIndex-s.2.insertions.count 0 row.tvIndex = matched.length := by
  obtain ⟨hrow,hrest,hmatched,hmoved⟩ := hw.mem_rows
  have hsorted := h.sorted
  rw [hw.rows_eq] at hsorted
  obtain ⟨_,hfrom,hdone⟩ := List.pairwise_append.mp hsorted
  have hnodup : (matched.map RowInfo.tvIndex).Nodup :=
    List.pairwise_map.mpr (hw.sorted.imp (fun hlt => Nat.ne_of_lt hlt.2))
  have hfresh (k : ℕ) (hk : k ∈ (fresh.map RowInfo.tvIndex).toFinset) :
      ∀ x ∈ rows, x.tvIndex ≠ k := by
    rw [h.new, SequenceDiff.unmatched, Finset.mem_sdiff, List.mem_toFinset] at hk
    rintro x hx rfl
    exact hk.2 (List.mem_map_of_mem hx)
  have hdisjoint : Disjoint (((fresh.map RowInfo.tvIndex).toFinset ∪
      (moved.map RowInfo.tvIndex).toFinset).filter (fun k => k < row.tvIndex))
      (matched.map RowInfo.tvIndex).toFinset := by
    rw [Finset.disjoint_right]
    intro k hk hin
    obtain ⟨x,hx,rfl⟩ := List.mem_map.mp (List.mem_toFinset.mp hk)
    rcases Finset.mem_union.mp (Finset.mem_filter.mp hin).1 with hin | hin
    · exact hfresh _ hin x (hmatched x hx) rfl
    · obtain ⟨y,hy,he⟩ := List.mem_map.mp (List.mem_toFinset.mp hin)
      exact hw.apart h hx (Or.inl hy) (place_inj h (hmatched x hx) (hmoved y hy) he.symm)
  have hall : ((fresh.map RowInfo.tvIndex).toFinset ∪
      (moved.map RowInfo.tvIndex).toFinset).filter (fun k => k < row.tvIndex) ∪
      (matched.map RowInfo.tvIndex).toFinset = Finset.range row.tvIndex := by
    ext k
    rw [Finset.mem_union, Finset.mem_filter, Finset.mem_union, Finset.mem_range]
    simp only [List.mem_toFinset]
    constructor
    · rintro (hk | hk)
      · exact hk.2
      · obtain ⟨x,hx,rfl⟩ := List.mem_map.mp hk
        have hxd : x ∈ done := hw.split.subset (List.mem_append_left _ hx)
        exact hdone x hxd row List.mem_cons_self
    · intro hk
      by_cases hin : k ∈ rows.map RowInfo.tvIndex
      · obtain ⟨y,hy,rfl⟩ := List.mem_map.mp hin
        rw [hw.rows_eq, List.mem_append] at hy
        have hyd : y ∈ done := by
          refine hy.resolve_right ?_
          intro hy
          rcases List.mem_cons.mp hy with rfl | hy
          · exact Nat.lt_irrefl _ hk
          · have := (List.pairwise_cons.mp hfrom).1 y hy
            omega
        rcases List.mem_append.mp (hw.split.symm.subset hyd) with hy | hy
        · exact Or.inr (List.mem_map_of_mem hy)
        · exact Or.inl ⟨Or.inr (List.mem_map_of_mem hy), hk⟩
      · have hlt := (List.getElem?_eq_some_iff.mp (h.new_row row hrow)).1
        have hmem : k ∈ (fresh.map RowInfo.tvIndex).toFinset := by
          rw [h.new, SequenceDiff.unmatched, Finset.mem_sdiff, Finset.mem_range,
            List.mem_toFinset]
          exact ⟨hk.trans hlt, hin⟩
        exact Or.inl ⟨Or.inl (List.mem_toFinset.mp hmem), hk⟩
  have hcard := congrArg Finset.card hall
  rw [Finset.card_union_of_disjoint hdisjoint, List.toFinset_card_of_nodup hnodup,
    List.length_map, Finset.card_range] at hcard
  rw [IndexSet.count_zero hw.insertions]
  omega

/-- The rows before this one that are gone or have moved make up, with those that matched, all
rows before it. -/
theorem Walking.counted_before (hw : Walking b rows gone fresh done (row :: rest) c matched
    moved expected s) (h : Shared b prevRows nextRows rows gone fresh)
    (hcount : row.shiftedTvIndex = matched.length+s.1.count 0 row.prev) :
    ∀ y ∈ rest, row.prev < y.prev := by
  obtain ⟨hrow,hrest,hmatched,hmoved⟩ := hw.mem_rows
  have hnodup : (matched.map RowInfo.prev).Nodup :=
    List.pairwise_map.mpr (hw.sorted.imp (fun hlt => Nat.ne_of_lt hlt.1))
  have hgone (k : ℕ) (hk : k ∈ (gone.map RowInfo.tvIndex).toFinset) :
      (∀ x ∈ rows, x.prev ≠ k) ∧ k ∉ (missing prevRows 0).toFinset := by
    have hin : k ∈ (missing prevRows 0).toFinset ∪ (gone.map RowInfo.tvIndex).toFinset :=
      Finset.mem_union_right _ hk
    rw [h.old, SequenceDiff.unmatched, Finset.mem_sdiff, List.mem_toFinset] at hin
    constructor
    · rintro x hx rfl
      exact hin.2 (List.mem_map_of_mem hx)
    · obtain ⟨y,hy,rfl⟩ := List.mem_map.mp (List.mem_toFinset.mp hk)
      rw [List.mem_toFinset, mem_missing, h.gone_row y hy]
      simp
  rw [h.shifted row hrow, IndexSet.count_zero hw.removed] at hcount
  have hrank := IndexShift.unshift_add_card (S := (missing prevRows 0).toFinset) row.prev
  have hnot (x : RowInfo) (hx : x ∈ rows) : x.prev ∉ (missing prevRows 0).toFinset ∪
      (gone.map RowInfo.tvIndex).toFinset := by
    rw [Finset.mem_union, not_or]
    exact ⟨not_missing h hx, fun hin => (hgone _ hin).1 x hx rfl⟩
  -- the four kinds of rows before this one
  have hapart : Disjoint ((missing prevRows 0).toFinset.filter (fun k => k < row.prev))
      (((gone.map RowInfo.tvIndex).toFinset ∪ (moved.map RowInfo.prev).toFinset).filter
        (fun k => k < row.prev)) := by
    rw [Finset.disjoint_left]
    intro k hk hin
    have hk := (Finset.mem_filter.mp hk).1
    rcases Finset.mem_union.mp (Finset.mem_filter.mp hin).1 with hin | hin
    · exact (hgone k hin).2 hk
    · obtain ⟨y,hy,rfl⟩ := List.mem_map.mp (List.mem_toFinset.mp hin)
      exact not_missing h (hmoved y hy) hk
  have hapart' : Disjoint ((missing prevRows 0).toFinset.filter (fun k => k < row.prev) ∪
      (((gone.map RowInfo.tvIndex).toFinset ∪ (moved.map RowInfo.prev).toFinset).filter
        (fun k => k < row.prev))) (matched.map RowInfo.prev).toFinset := by
    rw [Finset.disjoint_right]
    intro k hk hin
    obtain ⟨x,hx,rfl⟩ := List.mem_map.mp (List.mem_toFinset.mp hk)
    have hout := hnot x (hmatched x hx)
    rw [Finset.mem_union, not_or] at hout
    rcases Finset.mem_union.mp hin with hin | hin
    · exact hout.1 (Finset.mem_filter.mp hin).1
    · rcases Finset.mem_union.mp (Finset.mem_filter.mp hin).1 with hin | hin
      · exact hout.2 hin
      · obtain ⟨y,hy,he⟩ := List.mem_map.mp (List.mem_toFinset.mp hin)
        exact hw.apart h hx (Or.inl hy) (prev_inj h (hmatched x hx) (hmoved y hy) he.symm)
  have hall : (missing prevRows 0).toFinset.filter (fun k => k < row.prev) ∪
      (((gone.map RowInfo.tvIndex).toFinset ∪ (moved.map RowInfo.prev).toFinset).filter
        (fun k => k < row.prev)) ∪ (matched.map RowInfo.prev).toFinset =
      Finset.range row.prev := by
    apply Finset.eq_of_subset_of_card_le
    · intro k hk
      rw [Finset.mem_range]
      rcases Finset.mem_union.mp hk with hk | hk
      · rcases Finset.mem_union.mp hk with hk | hk
        · exact (Finset.mem_filter.mp hk).2
        · exact (Finset.mem_filter.mp hk).2
      · obtain ⟨x,hx,rfl⟩ := List.mem_map.mp (List.mem_toFinset.mp hk)
        exact hw.before x hx row List.mem_cons_self
    · rw [Finset.card_union_of_disjoint hapart', Finset.card_union_of_disjoint hapart,
        List.toFinset_card_of_nodup hnodup, List.length_map, Finset.card_range]
      omega
  intro y hy
  have hne : y.prev ≠ row.prev := by
    intro he
    have hsorted := h.sorted
    rw [hw.rows_eq] at hsorted
    have hlt := (List.pairwise_cons.mp (List.pairwise_append.mp hsorted).2.1).1 y hy
    rw [prev_inj h (hrest y hy) hrow he] at hlt
    exact Nat.lt_irrefl _ hlt
  by_contra hle
  have hin : y.prev ∈ Finset.range row.prev := Finset.mem_range.mpr (by omega)
  rw [← hall] at hin
  have hout := hnot y (hrest y hy)
  rw [Finset.mem_union, not_or] at hout
  rcases Finset.mem_union.mp hin with hin | hin
  · rcases Finset.mem_union.mp hin with hin | hin
    · exact hout.1 (Finset.mem_filter.mp hin).1
    · rcases Finset.mem_union.mp (Finset.mem_filter.mp hin).1 with hin | hin
      · exact hout.2 hin
      · obtain ⟨z,hz,he⟩ := List.mem_map.mp (List.mem_toFinset.mp hin)
        have hzy := prev_inj h (hmoved z hz) (hrest y hy) he
        have hzd : z ∈ done := hw.split.subset (List.mem_append_right _ hz)
        have hsorted := h.sorted
        rw [hw.rows_eq] at hsorted
        have hlt := (List.pairwise_append.mp hsorted).2.2 z hzd y (List.mem_cons_of_mem _ hy)
        rw [hzy] at hlt
        exact Nat.lt_irrefl _ hlt
  · obtain ⟨x,hx,he⟩ := List.mem_map.mp (List.mem_toFinset.mp hin)
    exact hw.apart h hx (Or.inr (List.mem_cons_of_mem _ hy))
      (prev_inj h (hmatched x hx) (hrest y hy) he)

/-- One row of the walk. -/
theorem Walking.next {moveCandidates : IndexSet}
    (hw : Walking b rows gone fresh done (row :: rest) c matched moved expected s)
    (h : Shared b prevRows nextRows rows gone fresh)
    (horder : InTableOrder K prevRows nextRows)
    (hK : IndexSet.Represents b moveCandidates K) :
    ∃ matched' moved' expected' s',
      Walking b rows gone fresh (done ++ [row]) rest c matched' moved' expected' s' ∧
      calculateMovesUnsorted b moveCandidates (row :: rest) expected s.1 s.2 =
        calculateMovesUnsorted b moveCandidates rest expected' s'.1 s'.2 := by
  obtain ⟨hrow,hrest,_,_⟩ := hw.mem_rows
  rw [calculateMovesUnsorted]
  by_cases hexpected : row.shiftedTvIndex = expected
  · rw [if_pos hexpected]
    refine ⟨_, _, _, s, hw.matches h (hw.expected_before h hexpected), ?_⟩
    rw [hexpected]
  rw [if_neg hexpected]
  by_cases hcandidate : row.rowIndex ∈ K
  · rw [if_neg (not_not_intro ((IndexSet.contains_iff hK _).mpr hcandidate))]
    have hcount := hw.count_matched h
    by_cases hcalc : row.shiftedTvIndex =
        row.tvIndex-s.2.insertions.count 0 row.tvIndex+s.1.count 0 row.prev
    · simp only
      rw [if_pos hcalc, ← hcalc]
      rw [hcount] at hcalc
      exact ⟨_, _, _, s, hw.matches h (hw.counted_before h hcalc), rfl⟩
    · simp only
      rw [if_neg hcalc]
      exact ⟨_, _, _, _, hw.moves, rfl⟩
  · have hcontains : ¬ moveCandidates.contains row.rowIndex = true :=
      fun hin => hcandidate ((IndexSet.contains_iff hK _).mp hin)
    rw [if_pos hcontains]
    refine ⟨_, _, _, s, hw.matches h ?_, rfl⟩
    have hincreasing := rows_increasing h horder.next_sorted
    rw [hw.rows_eq] at hincreasing
    intro y hy
    have hlt := (List.pairwise_cons.mp (List.pairwise_append.mp hincreasing).2.1).1 y hy
    exact stays_before h horder hrow (hrest y hy) hcandidate hlt

theorem Walking.run {moveCandidates : IndexSet}
    (hw : Walking b rows gone fresh done rest c matched moved expected s)
    (h : Shared b prevRows nextRows rows gone fresh)
    (horder : InTableOrder K prevRows nextRows)
    (hK : IndexSet.Represents b moveCandidates K) :
    ∃ matched' moved' expected', Walking b rows gone fresh rows [] c matched' moved' expected'
      (calculateMovesUnsorted b moveCandidates rest expected s.1 s.2) := by
  induction rest generalizing done matched moved expected s with
  | nil =>
    have hdone : done = rows := by rw [hw.rows_eq, List.append_nil]
    rw [hdone] at hw
    exact ⟨matched, moved, expected, hw⟩
  | cons row rest ih =>
    obtain ⟨_,_,_,s',hw',heq⟩ := hw.next h horder hK
    rw [heq]
    exact ih hw'

theorem walking_start {rowDidChange : ℕ → Bool} {removed : IndexSet}
    (h : Started b prevRows nextRows rowDidChange rows gone fresh c removed)
    (hfresh : (fresh.map RowInfo.tvIndex).toFinset =
      SequenceDiff.unmatched nextRows.length (rows.map RowInfo.tvIndex)) :
    Walking b rows gone fresh [] rows c [] [] 0 (removed,c) := by
  refine ⟨rfl, List.Perm.refl _, List.Pairwise.nil, by simp, Or.inl rfl, ?_, ?_, h.moves_eq,
    rfl, rfl, rfl⟩
  · rw [List.map_nil, List.toFinset_nil, Finset.union_empty]
    exact h.removed
  · rw [List.map_nil, List.toFinset_nil, Finset.union_empty, hfresh]
    exact h.insertions

/-- The places of the rows that moved are those of the rows that did not match. -/
theorem split_places {f : RowInfo → ℕ} (hnodup : (rows.map f).Nodup)
    (hsplit : (matched ++ moved).Perm rows) : (moved.map f).toFinset =
      (rows.map f).toFinset \ (matched.map f).toFinset := by
  have hperm := hsplit.map f
  rw [List.map_append] at hperm
  have hapart := (List.nodup_append.mp (hperm.nodup_iff.mpr hnodup)).2.2
  ext k
  rw [Finset.mem_sdiff, List.mem_toFinset, List.mem_toFinset, List.mem_toFinset,
    ← hperm.mem_iff, List.mem_append]
  constructor
  · exact fun hk => ⟨Or.inr hk, fun hk' => hapart k hk' k hk rfl⟩
  · rintro ⟨hk,hnot⟩
    exact hk.resolve_left hnot

/-- When rows only moved to the places of deleted ones, the walk is right about any two
results in the order of the table, and what it names as moved are moves. -/
theorem calculate_unsorted (b : Build) (sorts : Sorts) (rowDidChange : ℕ → Bool)
    {moveCandidates : IndexSet} (hK : IndexSet.Represents b moveCandidates K)
    (horder : InTableOrder K prevRows nextRows) :
    Calculated b prevRows nextRows rowDidChange
      (calculate b sorts prevRows nextRows rowDidChange (some moveCandidates)) := by
  obtain ⟨gone,fresh,h⟩ := calculate_started b sorts prevRows nextRows rowDidChange
  have hval : calculate b sorts prevRows nextRows rowDidChange (some moveCandidates) =
      let s := calculateMovesUnsorted b moveCandidates
        (keptRows sorts (walked b sorts prevRows nextRows).newRows) 0
        (walked b sorts prevRows nextRows).removed
        (startOf b sorts prevRows (walked b sorts prevRows nextRows) rowDidChange)
      { s.2 with deletions := s.2.deletions.addAll b s.1 } := rfl
  rw [hval]
  generalize keptRows sorts (walked b sorts prevRows nextRows).newRows = rows at h
  generalize startOf b sorts prevRows (walked b sorts prevRows nextRows) rowDidChange = c at h
  generalize (walked b sorts prevRows nextRows).removed = removed at h
  obtain ⟨matched,moved,_,hw⟩ := (walking_start h h.shared.new).run h.shared horder hK
  generalize calculateMovesUnsorted b moveCandidates rows 0 removed c = s at hw
  have hshared := h.shared
  have hplaces : (rows.map RowInfo.tvIndex).Nodup :=
    List.pairwise_map.mpr (hshared.sorted.imp Nat.ne_of_lt)
  have hmem {x : RowInfo} (hx : x ∈ matched) : x ∈ rows :=
    hw.split.subset (List.mem_append_left _ hx)
  have hmem' {x : RowInfo} (hx : x ∈ moved) : x ∈ rows :=
    hw.split.subset (List.mem_append_right _ hx)
  have hsub {f : RowInfo → ℕ} : ∀ i ∈ matched.map f, i ∈ rows.map f := by
    intro i hi
    obtain ⟨x,hx,rfl⟩ := List.mem_map.mp hi
    exact List.mem_map_of_mem (hmem hx)
  have hdeletions : IndexSet.Represents b (s.2.deletions.addAll b s.1)
      (SequenceDiff.unmatched prevRows.length (matched.map RowInfo.prev)) := by
    rw [hw.deletions_eq, ← unmatched_union hshared.old hshared.prev_lt hsub,
      ← split_places hshared.prev_nodup hw.split, Finset.union_right_comm, Finset.union_assoc]
    exact IndexSet.addAll_represents h.deletions hw.removed
  have hinsertions : IndexSet.Represents b s.2.insertions
      (SequenceDiff.unmatched nextRows.length (matched.map RowInfo.tvIndex)) := by
    have hunion := unmatched_union (G := ∅) (Finset.union_empty _) hshared.place_lt
      (hsub (f := RowInfo.tvIndex))
    rw [Finset.union_empty, ← split_places hplaces hw.split, ← hshared.new] at hunion
    rw [← hunion]
    exact hw.insertions
  apply calculated_of_pairs (matched.map (fun x => (x.prev,x.tvIndex))) hshared
  · exact List.pairwise_map.mpr hw.sorted
  · intro p hp
    obtain ⟨x,hx,rfl⟩ := List.mem_map.mp hp
    exact ⟨x.rowIndex, hshared.old_row x (hmem hx), hshared.new_row x (hmem hx)⟩
  · intro p hp
    obtain ⟨x,hx,rfl⟩ := List.mem_map.mp hp
    exact List.mem_map_of_mem (hmem hx)
  · rw [List.map_map]
    exact hdeletions
  · rw [List.map_map]
    exact hinsertions
  · change IndexSet.Represents b s.2.modifications _
    rw [hw.modifications_eq]
    exact h.modifications
  · exact hw.columns_eq.trans h.columns_eq
  · intro m hm
    change m ∈ s.2.moves at hm
    rw [hw.moves_eq] at hm
    obtain ⟨x,hx,rfl⟩ := List.mem_map.mp hm
    have hD : x.prev ∈ SequenceDiff.unmatched prevRows.length (matched.map RowInfo.prev) := by
      rw [SequenceDiff.unmatched, Finset.mem_sdiff, Finset.mem_range]
      refine ⟨hshared.prev_lt _ (List.mem_map_of_mem (hmem' hx)), ?_⟩
      have hin : x.prev ∈ (moved.map RowInfo.prev).toFinset :=
        List.mem_toFinset.mpr (List.mem_map_of_mem hx)
      rw [split_places hshared.prev_nodup hw.split] at hin
      exact (Finset.mem_sdiff.mp hin).2
    have hI : x.tvIndex ∈ SequenceDiff.unmatched nextRows.length
        (matched.map RowInfo.tvIndex) := by
      rw [SequenceDiff.unmatched, Finset.mem_sdiff, Finset.mem_range]
      refine ⟨hshared.place_lt _ (List.mem_map_of_mem (hmem' hx)), ?_⟩
      have hin : x.tvIndex ∈ (moved.map RowInfo.tvIndex).toFinset :=
        List.mem_toFinset.mpr (List.mem_map_of_mem hx)
      rw [split_places hplaces hw.split] at hin
      exact (Finset.mem_sdiff.mp hin).2
    refine ⟨x, hmem' hx, rfl, rfl, ?_, ?_⟩
    · rw [deleted, hdeletions.indices_eq]
      exact hD
    · rw [added, hinsertions.indices_eq]
      exact hI
  · change (s.2.moves.map Move.from).Nodup
    rw [hw.moves_eq, List.map_map]
    have hperm := hw.split.map RowInfo.prev
    rw [List.map_append] at hperm
    exact (List.nodup_append.mp (hperm.nodup_iff.mpr hshared.prev_nodup)).2.1
  · change (s.2.moves.map Move.to).Nodup
    rw [hw.moves_eq, List.map_map]
    have hperm := hw.split.map RowInfo.tvIndex
    rw [List.map_append] at hperm
    exact (List.nodup_append.mp (hperm.nodup_iff.mpr hplaces)).2.1

end CollectionChangeBuilder

end ObjectStore
