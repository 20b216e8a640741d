import CurrencyConverter.SequenceAlignment
import CurrencyConverter.SequencePatch
import CurrencyConverter.ObjectStore.ChangeTracking
import CurrencyConverter.ObjectStore.LongestMatches

/-! The change set between two results of a query, from the rows in the old and in the new
one. -/
namespace ObjectStore

open LongestCommonSubsequenceCalculator (Row Match longestMatches)

/-- `std::sort` with a comparison: nothing is promised about the order of items of which
neither is less. -/
structure Sorting (α : Type) (lt : α → α → Bool) where
  sort : List α → List α
  perm : ∀ l, (sort l).Perm l
  sorted : ∀ l, (sort l).Pairwise (fun x y => lt y x = false)

/-- A row of the table with its places in the old and in the new results, and its old place
among the rows that were not deleted. -/
structure RowInfo where
  rowIndex : ℕ
  prevTvIndex : Option ℕ
  tvIndex : ℕ
  shiftedTvIndex : ℕ
  deriving DecidableEq, Repr

/-- The old place of a row that has one. -/
def RowInfo.prev (row : RowInfo) : ℕ := row.prevTvIndex.getD 0

/-- The sorts that are called. -/
structure Sorts where
  byRow : Sorting RowInfo (fun lft rgt => lft.rowIndex < rgt.rowIndex)
  byPlace : Sorting RowInfo (fun lft rgt => lft.tvIndex < rgt.tvIndex)
  oldRows : Sorting Row (fun lft rgt => lft.tvIndex < rgt.tvIndex ∨
    lft.tvIndex = rgt.tvIndex ∧ lft.rowIndex < rgt.rowIndex)
  newRows : Sorting Row (fun lft rgt => lft.rowIndex < rgt.rowIndex ∨
    lft.rowIndex = rgt.rowIndex ∧ lft.tvIndex < rgt.tvIndex)

namespace CollectionChangeBuilder

/-- The rows that were deleted and the rows that were not. -/
def collectOld (b : Build) : List (Option ℕ) → ℕ → ℕ → IndexSet → IndexSet × List RowInfo
  | [], _, _, deletions => (deletions, [])
  | none :: rest, i, deleted, deletions =>
    collectOld b rest (i+1) (deleted+1) (deletions.add b i)
  | some rowIndex :: rest, i, deleted, deletions =>
    let s := collectOld b rest (i+1) deleted deletions
    (s.1, ⟨rowIndex, none, i, i-deleted⟩ :: s.2)

def collectNew (nextRows : List ℕ) : List RowInfo :=
  nextRows.mapIdx (fun i rowIndex => ⟨rowIndex, none, i, 0⟩)

/-- What the walk over the sorted rows finds. -/
structure Paired where
  newRows : List RowInfo
  removed : IndexSet
  insertions : IndexSet

/-- Rows that are in both results get their old places. -/
def pairRows (b : Build) : List RowInfo → List RowInfo → IndexSet → IndexSet → Paired
  | old :: oldRows, new :: newRows, removed, insertions =>
    if old.rowIndex = new.rowIndex then
      let s := pairRows b oldRows newRows removed insertions
      { s with newRows :=
          { new with
            prevTvIndex := some old.tvIndex
            shiftedTvIndex := old.shiftedTvIndex } :: s.newRows }
    else if old.rowIndex < new.rowIndex then
      pairRows b oldRows (new :: newRows) (removed.add b old.tvIndex) insertions
    else
      let s := pairRows b (old :: oldRows) newRows removed (insertions.add b new.tvIndex)
      { s with newRows := new :: s.newRows }
  | oldRows, newRows, removed, insertions =>
    { newRows
      removed := oldRows.foldl (fun set row => set.add b row.tvIndex) removed
      insertions := newRows.foldl (fun set row => set.add b row.tvIndex) insertions }
termination_by oldRows newRows => oldRows.length+newRows.length

variable (b : Build)

/-- Rows are expected one behind the other. A row that stands elsewhere counts as moved if it
may have been, unless the rows before it that are gone or new explain its place. -/
def calculateMovesUnsorted (moveCandidates : IndexSet) :
    List RowInfo → ℕ → IndexSet → CollectionChangeBuilder → IndexSet × CollectionChangeBuilder
  | [], _, removed, changeset => (removed, changeset)
  | row :: rows, expected, removed, changeset =>
    if row.shiftedTvIndex = expected then
      calculateMovesUnsorted moveCandidates rows (expected+1) removed changeset
    else if ¬ moveCandidates.contains row.rowIndex then
      calculateMovesUnsorted moveCandidates rows (row.shiftedTvIndex+1) removed changeset
    else
      let calcExpected := row.tvIndex-changeset.insertions.count 0 row.tvIndex+
        removed.count 0 row.prev
      if row.shiftedTvIndex = calcExpected then
        calculateMovesUnsorted moveCandidates rows (calcExpected+1) removed changeset
      else
        calculateMovesUnsorted moveCandidates rows expected (removed.add b row.prev)
          { changeset with
            moves := changeset.moves ++ [⟨row.prev, row.tvIndex⟩]
            insertions := changeset.insertions.add b row.tvIndex }

/-- Deletes and inserts the rows between the matches. -/
def align (old : List Row) (rows : List RowInfo) :
    List Match → ℕ → ℕ → CollectionChangeBuilder → CollectionChangeBuilder
  | [], _, _, changeset => changeset
  | m :: rest, i, j, changeset =>
    align old rows rest (max i m.i+m.size) (max j m.j+m.size)
      { changeset with
        deletions := ((old.drop i).take (m.i-i)).foldl
          (fun set row => set.add b row.tvIndex) changeset.deletions
        insertions := ((rows.drop j).take (m.j-j)).foldl
          (fun set row => set.add b row.tvIndex) changeset.insertions }

def firstDifference (old : List Row) (rows : List RowInfo) : Option ℕ :=
  (old.zip rows).findIdx? (fun p => p.1.rowIndex ≠ p.2.rowIndex)

def calculateMovesSorted (sorts : Sorts) (rows : List RowInfo)
    (changeset : CollectionChangeBuilder) : CollectionChangeBuilder :=
  let old := sorts.oldRows.sort (rows.map (fun row => ⟨row.rowIndex, row.prev⟩))
  match firstDifference old rows with
  | none => changeset
  | some first =>
    let new := sorts.newRows.sort (rows.mapIdx (fun i row => ⟨row.rowIndex, i⟩))
    align b old rows (longestMatches b changeset.modifications old new first) first first
      changeset

/-- The rows that are in both results, by their new places. -/
def keptRows (sorts : Sorts) (newRows : List RowInfo) : List RowInfo :=
  sorts.byPlace.sort (newRows.filter (fun row => row.prevTvIndex.isSome))

def calculate (sorts : Sorts) (prevRows : List (Option ℕ)) (nextRows : List ℕ)
    (rowDidChange : ℕ → Bool) (moveCandidates : Option IndexSet) : CollectionChangeBuilder :=
  let oldRows := collectOld b prevRows 0 0 {}
  let paired := pairRows b (sorts.byRow.sort oldRows.2) (sorts.byRow.sort (collectNew nextRows))
    {} {}
  let rows := keptRows sorts paired.newRows
  let ret : CollectionChangeBuilder :=
    { deletions := oldRows.1
      insertions := paired.insertions
      modifications := (rows.filter (fun row => rowDidChange row.rowIndex)).foldl
        (fun set row => set.add b row.tvIndex) {} }
  let s :=
    match moveCandidates with
    | some moveCandidates =>
      calculateMovesUnsorted b moveCandidates rows 0 paired.removed ret
    | none => (paired.removed, calculateMovesSorted b sorts rows ret)
  { s.2 with deletions := s.2.deletions.addAll b s.1 }

/-! Pairing the rows -/

variable {b : Build} {prevRows : List (Option ℕ)} {nextRows : List ℕ} {α : Type*}

theorem addEach_represents {v : IndexSet} {S : Finset ℕ} (h : IndexSet.Represents b v S)
    (f : α → ℕ) (l : List α) : IndexSet.Represents b
      (l.foldl (fun set x => set.add b (f x)) v) (S ∪ (l.map f).toFinset) := by
  induction l generalizing v S with
  | nil => simpa using h
  | cons x l ih =>
    have hnext := ih (IndexSet.add_represents h (f x))
    rwa [Finset.insert_union, ← Finset.union_insert, ← List.toFinset_cons] at hnext

/-- The rows that are still there, with their places. -/
def remaining (prevRows : List (Option ℕ)) (i : ℕ) : List (ℕ × ℕ) :=
  (prevRows.zipIdx i).filterMap (fun p => p.1.map (fun row => (row,p.2)))

/-- The places of the rows that are not. -/
def missing (prevRows : List (Option ℕ)) (i : ℕ) : List ℕ :=
  ((prevRows.zipIdx i).filter (fun p => p.1.isNone)).map Prod.snd

theorem missing_ge {prevRows : List (Option ℕ)} {i k : ℕ} (h : k ∈ missing prevRows i) : i ≤ k := by
  rw [missing, List.mem_map] at h
  obtain ⟨p,hp,rfl⟩ := h
  exact (List.mem_zipIdx (List.mem_of_mem_filter hp)).1

/-- The rows that are left, each with its rank among them. -/
theorem collectOld_spec (prevRows : List (Option ℕ)) {i deleted : ℕ} {deletions : IndexSet}
    {S : Finset ℕ} (h : IndexSet.Represents b deletions S) (hS : S ⊆ Finset.range i)
    (hdeleted : deleted = S.card) :
    let s := collectOld b prevRows i deleted deletions
    IndexSet.Represents b s.1 (S ∪ (missing prevRows i).toFinset) ∧
      s.2.map (fun row => (row.rowIndex,row.tvIndex)) = remaining prevRows i ∧
      ∀ row ∈ s.2, row.prevTvIndex = none ∧ row.shiftedTvIndex =
        IndexShift.unshift (S ∪ (missing prevRows i).toFinset) row.tvIndex := by
  induction prevRows generalizing i deleted deletions S with
  | nil => simpa [collectOld, missing, remaining] using h
  | cons row prevRows ih =>
    have hi : i ∉ S := fun hi => Nat.lt_irrefl i (Finset.mem_range.mp (hS hi))
    have hsucc : S ⊆ Finset.range (i+1) :=
      hS.trans (Finset.range_subset_range.mpr (Nat.le_succ i))
    cases row with
    | none =>
      have hsub : insert i S ⊆ Finset.range (i+1) :=
        Finset.insert_subset (Finset.mem_range.mpr (Nat.lt_succ_self i)) hsucc
      have hcard : deleted+1 = (insert i S).card := by
        rw [Finset.card_insert_of_notMem hi, hdeleted]
      obtain ⟨hset,hrows,hinfo⟩ := ih (IndexSet.add_represents h i) hsub hcard
      rw [Finset.insert_union, ← Finset.union_insert, ← List.toFinset_cons] at hset hinfo
      exact ⟨hset, hrows, hinfo⟩
    | some rowIndex =>
      obtain ⟨hset,hrows,hinfo⟩ := ih h hsucc hdeleted
      refine ⟨hset, congrArg (List.cons _) hrows, ?_⟩
      intro row hrow
      rcases List.mem_cons.mp hrow with rfl | hrow
      · refine ⟨rfl, ?_⟩
        change i-deleted = IndexShift.unshift (S ∪ (missing prevRows (i+1)).toFinset) i
        have hunshift : IndexShift.unshift (S ∪ (missing prevRows (i+1)).toFinset) i =
            IndexShift.unshift S i := by
          apply SequenceDiff.unshift_eq_of_agree
          intro k hk
          rw [Finset.mem_union]
          refine or_iff_left ?_
          intro hmem
          have := missing_ge (List.mem_toFinset.mp hmem)
          omega
        have hall := SequenceDiff.unshift_of_subset hS
        rw [hunshift, hdeleted]
        omega
      · exact hinfo row hrow

theorem collectOld_start (b : Build) (prevRows : List (Option ℕ)) :
    IndexSet.Represents b (collectOld b prevRows 0 0 {}).1 (missing prevRows 0).toFinset ∧
      (collectOld b prevRows 0 0 {}).2.map (fun row => (row.rowIndex,row.tvIndex)) =
        remaining prevRows 0 ∧
      ∀ row ∈ (collectOld b prevRows 0 0 {}).2, row.prevTvIndex = none ∧
        row.shiftedTvIndex = IndexShift.unshift (missing prevRows 0).toFinset row.tvIndex := by
  have h := @collectOld_spec b prevRows 0 0 _ _ IndexSet.represents_empty
    (Finset.empty_subset _) rfl
  rwa [Finset.empty_union] at h

theorem mem_remaining {row k : ℕ} :
    (row,k) ∈ remaining prevRows 0 ↔ prevRows[k]? = some (some row) := by
  rw [remaining, List.mem_filterMap]
  constructor
  · rintro ⟨⟨o,k'⟩,hmem,he⟩
    obtain ⟨row',ho,hpair⟩ := Option.map_eq_some_iff.mp he
    obtain ⟨rfl,rfl⟩ := Prod.mk.inj hpair
    have hget := List.mem_zipIdx_iff_getElem?.mp hmem
    change o = some row' at ho
    rw [← ho]
    exact hget
  · intro hget
    exact ⟨(some row,k), List.mem_zipIdx_iff_getElem?.mpr hget, rfl⟩

theorem mem_missing {k : ℕ} : k ∈ missing prevRows 0 ↔ prevRows[k]? = some none := by
  rw [missing, List.mem_map]
  constructor
  · rintro ⟨⟨o,k'⟩,hmem,rfl⟩
    obtain ⟨hget,hnone⟩ := List.mem_filter.mp hmem
    have hget := List.mem_zipIdx_iff_getElem?.mp hget
    rwa [Option.isNone_iff_eq_none.mp hnone] at hget
  · intro hget
    exact ⟨(none,k), List.mem_filter.mpr ⟨List.mem_zipIdx_iff_getElem?.mpr hget, rfl⟩, rfl⟩

theorem remaining_sorted (prevRows : List (Option ℕ)) (i : ℕ) :
    ((remaining prevRows i).map Prod.snd).Pairwise (· < ·) := by
  have hindex : ((prevRows.zipIdx i).map Prod.snd).Pairwise (· < ·) := by
    rw [List.zipIdx_map_snd]
    exact List.pairwise_lt_range'
  have hsub (l : List (Option ℕ × ℕ)) :
      ((l.filterMap (fun p => p.1.map (fun row => (row,p.2)))).map Prod.snd).Sublist
        (l.map Prod.snd) := by
    induction l with
    | nil => exact List.Sublist.slnil
    | cons p l ih =>
      obtain ⟨o,k⟩ := p
      cases o with
      | none => exact ih.cons k
      | some row => exact ih.cons_cons k
  exact List.Pairwise.sublist (hsub _) hindex

/-- The row as it stood in the old results. -/
def asOld (row : RowInfo) : RowInfo := ⟨row.rowIndex, none, row.prev, row.shiftedTvIndex⟩

def kept (rows : List RowInfo) : List RowInfo := rows.filter (fun row => row.prevTvIndex.isSome)

def fresh (rows : List RowInfo) : List RowInfo :=
  rows.filter (fun row => row.prevTvIndex.isNone)

/-- Every row is paired as often as it is in both results. -/
structure Pairing (b : Build) (oldRows newRows gone : List RowInfo) (R I : Finset ℕ)
    (s : Paired) : Prop where
  old : ((kept s.newRows).map asOld ++ gone).Perm oldRows
  new : s.newRows.map (fun row => (row.rowIndex,row.tvIndex)) =
    newRows.map (fun row => (row.rowIndex,row.tvIndex))
  removed : IndexSet.Represents b s.removed (R ∪ (gone.map RowInfo.tvIndex).toFinset)
  insertions : IndexSet.Represents b s.insertions
    (I ∪ ((fresh s.newRows).map RowInfo.tvIndex).toFinset)
  apart : ∀ x ∈ fresh s.newRows, ∀ y ∈ gone, x.rowIndex ≠ y.rowIndex

/-- A row of the pairing is one of the new rows. -/
theorem Pairing.mem_new {oldRows newRows gone : List RowInfo} {R I : Finset ℕ} {s : Paired}
    (h : Pairing b oldRows newRows gone R I s) {row : RowInfo} (hrow : row ∈ s.newRows) :
    ∃ row' ∈ newRows, row'.rowIndex = row.rowIndex ∧ row'.tvIndex = row.tvIndex := by
  have hmem := List.mem_map_of_mem (f := fun row => (row.rowIndex,row.tvIndex)) hrow
  rw [h.new] at hmem
  obtain ⟨row',hrow',he⟩ := List.mem_map.mp hmem
  exact ⟨row', hrow', (Prod.mk.inj he).1, (Prod.mk.inj he).2⟩

theorem Pairing.gone_old {oldRows newRows gone : List RowInfo} {R I : Finset ℕ} {s : Paired}
    (h : Pairing b oldRows newRows gone R I s) {row : RowInfo} (hrow : row ∈ gone) :
    row ∈ oldRows :=
  h.old.subset (List.mem_append_right _ hrow)

theorem pairRows_pairing (oldRows newRows : List RowInfo) {removed insertions : IndexSet}
    {R I : Finset ℕ} (hR : IndexSet.Represents b removed R)
    (hI : IndexSet.Represents b insertions I)
    (hold : oldRows.Pairwise (fun x y => x.rowIndex ≤ y.rowIndex))
    (hnew : newRows.Pairwise (fun x y => x.rowIndex ≤ y.rowIndex))
    (hnone : ∀ row ∈ oldRows, row.prevTvIndex = none)
    (hnone' : ∀ row ∈ newRows, row.prevTvIndex = none) :
    ∃ gone, Pairing b oldRows newRows gone R I
      (pairRows b oldRows newRows removed insertions) := by
  induction oldRows, newRows, removed, insertions using pairRows.induct b generalizing R I with
  | case1 old oldRows new newRows removed insertions heq ih =>
    obtain ⟨gone,h⟩ := ih hR hI (List.pairwise_cons.mp hold).2 (List.pairwise_cons.mp hnew).2
      (fun row hrow => hnone row (List.mem_cons_of_mem _ hrow))
      (fun row hrow => hnone' row (List.mem_cons_of_mem _ hrow))
    rw [pairRows, if_pos heq]
    refine ⟨gone, ?_, ?_, h.removed, h.insertions, h.apart⟩
    · have hsame : asOld ⟨new.rowIndex, some old.tvIndex, new.tvIndex, old.shiftedTvIndex⟩ =
          old := by
        rw [asOld, ← heq, ← hnone old List.mem_cons_self]
        rfl
      change (asOld ⟨new.rowIndex, some old.tvIndex, new.tvIndex, old.shiftedTvIndex⟩ ::
        ((kept _).map asOld ++ gone)).Perm _
      rw [hsame]
      exact h.old.cons old
    · exact congrArg (List.cons _) h.new
  | case2 old oldRows new newRows removed insertions hne hlt ih =>
    obtain ⟨hfirst,hrest⟩ := List.pairwise_cons.mp hnew
    obtain ⟨gone,h⟩ := ih (IndexSet.add_represents hR old.tvIndex) hI
      (List.pairwise_cons.mp hold).2 hnew
      (fun row hrow => hnone row (List.mem_cons_of_mem _ hrow)) hnone'
    rw [pairRows, if_neg hne, if_pos hlt]
    refine ⟨old :: gone, ?_, h.new, ?_, h.insertions, ?_⟩
    · exact List.perm_middle.trans (h.old.cons old)
    · have hset := h.removed
      rwa [Finset.insert_union, ← Finset.union_insert, ← List.toFinset_cons,
        ← List.map_cons] at hset
    · intro x hx y hy
      rcases List.mem_cons.mp hy with rfl | hy
      · obtain ⟨x',hx',hrow,_⟩ := h.mem_new (List.mem_of_mem_filter hx)
        rcases List.mem_cons.mp hx' with rfl | hx'
        · omega
        · have := hfirst x' hx'
          omega
      · exact h.apart x hx y hy
  | case3 old oldRows new newRows removed insertions hne hlt ih =>
    obtain ⟨hfirst,hrest⟩ := List.pairwise_cons.mp hold
    obtain ⟨gone,h⟩ := ih hR (IndexSet.add_represents hI new.tvIndex) hold
      (List.pairwise_cons.mp hnew).2 hnone
      (fun row hrow => hnone' row (List.mem_cons_of_mem _ hrow))
    have hfresh := hnone' new List.mem_cons_self
    rw [pairRows, if_neg hne, if_neg hlt]
    refine ⟨gone, ?_, congrArg (List.cons _) h.new, h.removed, ?_, ?_⟩
    · have hkept : kept (new :: (pairRows b (old :: oldRows) newRows removed
          (insertions.add b new.tvIndex)).newRows) = kept (pairRows b (old :: oldRows) newRows
            removed (insertions.add b new.tvIndex)).newRows := by
        rw [kept, List.filter_cons_of_neg (by simp [hfresh])]
        rfl
      change ((kept (new :: _)).map asOld ++ gone).Perm _
      rw [hkept]
      exact h.old
    · have hset := h.insertions
      rw [Finset.insert_union, ← Finset.union_insert, ← List.toFinset_cons,
        ← List.map_cons] at hset
      change IndexSet.Represents b _ (I ∪ ((fresh (new :: _)).map RowInfo.tvIndex).toFinset)
      rw [fresh, List.filter_cons_of_pos (by simp [hfresh])]
      exact hset
    · intro x hx y hy
      change x ∈ fresh (new :: _) at hx
      rw [fresh, List.filter_cons_of_pos (by simp [hfresh])] at hx
      rcases List.mem_cons.mp hx with rfl | hx
      · have hold' := h.gone_old hy
        rcases List.mem_cons.mp hold' with rfl | hold'
        · exact fun he => hne he.symm
        · have := hfirst y hold'
          omega
      · exact h.apart x hx y hy
  | case4 oldRows newRows removed insertions hnil =>
    have hall : fresh newRows = newRows :=
      List.filter_eq_self.mpr (fun row hrow => by simp [hnone' row hrow])
    have hno : kept newRows = [] :=
      List.filter_eq_nil_iff.mpr (fun row hrow => by simp [hnone' row hrow])
    have hempty : oldRows = [] ∨ newRows = [] := by
      cases oldRows with
      | nil => exact Or.inl rfl
      | cons old oldRows =>
        cases newRows with
        | nil => exact Or.inr rfl
        | cons new newRows => exact (hnil old oldRows new newRows rfl rfl).elim
    rw [pairRows]
    · refine ⟨oldRows, ?_, rfl, addEach_represents hR RowInfo.tvIndex oldRows, ?_, ?_⟩
      · change ((kept newRows).map asOld ++ oldRows).Perm oldRows
        rw [hno]
        exact List.Perm.refl _
      · change IndexSet.Represents b _ (I ∪ ((fresh newRows).map RowInfo.tvIndex).toFinset)
        rw [hall]
        exact addEach_represents hI RowInfo.tvIndex newRows
      · intro x hx y hy
        change x ∈ fresh newRows at hx
        rw [hall] at hx
        rcases hempty with rfl | rfl
        · exact absurd hy List.not_mem_nil
        · exact absurd hx List.not_mem_nil
    · exact hnil

/-- The rows that are in both results, and what else there is in them. -/
structure Shared (b : Build) (prevRows : List (Option ℕ)) (nextRows : List ℕ)
    (rows gone fresh : List RowInfo) : Prop where
  sorted : rows.Pairwise (fun x y => x.tvIndex < y.tvIndex)
  old_row : ∀ row ∈ rows, prevRows[row.prev]? = some (some row.rowIndex)
  new_row : ∀ row ∈ rows, nextRows[row.tvIndex]? = some row.rowIndex
  gone_row : ∀ row ∈ gone, prevRows[row.tvIndex]? = some (some row.rowIndex)
  fresh_row : ∀ row ∈ fresh, nextRows[row.tvIndex]? = some row.rowIndex
  shifted : ∀ row ∈ rows, row.shiftedTvIndex =
    IndexShift.unshift (missing prevRows 0).toFinset row.prev
  prev_nodup : (rows.map RowInfo.prev).Nodup
  old : (missing prevRows 0).toFinset ∪ (gone.map RowInfo.tvIndex).toFinset =
    SequenceDiff.unmatched prevRows.length (rows.map RowInfo.prev)
  new : (fresh.map RowInfo.tvIndex).toFinset =
    SequenceDiff.unmatched nextRows.length (rows.map RowInfo.tvIndex)
  apart : ∀ x ∈ fresh, ∀ y ∈ gone, x.rowIndex ≠ y.rowIndex

theorem collectNew_map (nextRows : List ℕ) :
    (collectNew nextRows).map (fun row => (row.rowIndex,row.tvIndex)) = nextRows.zipIdx := by
  apply List.ext_getElem?
  intro i
  rw [List.getElem?_map, collectNew, List.getElem?_mapIdx, List.getElem?_zipIdx, Option.map_map,
    Nat.zero_add]
  rfl

theorem sorted_byRow (sorts : Sorts) (l : List RowInfo) :
    (sorts.byRow.sort l).Pairwise (fun x y => x.rowIndex ≤ y.rowIndex) :=
  (sorts.byRow.sorted l).imp (fun h => Nat.le_of_not_lt (of_decide_eq_false h))

theorem kept_append_fresh (rows : List RowInfo) : (kept rows ++ fresh rows).Perm rows := by
  have hfresh : fresh rows = rows.filter (fun row => !row.prevTvIndex.isSome) := by
    apply List.filter_congr
    intro row _
    rw [Option.not_isSome]
  rw [hfresh]
  exact List.filter_append_perm _ rows

/-- The walk over both sorted lists finds the rows that are in both results. -/
theorem pairing_shared (sorts : Sorts) {gone : List RowInfo} {s : Paired} {R I : Finset ℕ}
    (h : Pairing b (sorts.byRow.sort (collectOld b prevRows 0 0 {}).2)
      (sorts.byRow.sort (collectNew nextRows)) gone R I s) :
    Shared b prevRows nextRows (keptRows sorts s.newRows) gone (fresh s.newRows) := by
  obtain ⟨_,hold,hinfo⟩ := collectOld_start b prevRows
  have hperm : (keptRows sorts s.newRows).Perm (kept s.newRows) := sorts.byPlace.perm _
  have hboth : ((keptRows sorts s.newRows).map (fun row => (row.rowIndex,row.prev)) ++
      gone.map (fun row => (row.rowIndex,row.tvIndex))).Perm (remaining prevRows 0) := by
    have hrows := (h.old.trans (sorts.byRow.perm _)).map
      (fun row => (row.rowIndex,row.tvIndex))
    rw [hold, List.map_append, List.map_map] at hrows
    exact ((hperm.map _).append_right _).trans hrows
  have hnew : (s.newRows.map (fun row => (row.rowIndex,row.tvIndex))).Perm
      nextRows.zipIdx := by
    rw [h.new, ← collectNew_map]
    exact (sorts.byRow.perm _).map _
  have hplaces : ((keptRows sorts s.newRows).map RowInfo.tvIndex ++
      (fresh s.newRows).map RowInfo.tvIndex).Perm (List.range nextRows.length) := by
    have hall := (kept_append_fresh s.newRows).map RowInfo.tvIndex
    have hrange := hnew.map Prod.snd
    rw [List.map_map, List.zipIdx_map_snd, ← List.range_eq_range'] at hrange
    rw [List.map_append] at hall
    exact (((hperm.map _).append_right _).trans hall).trans hrange
  have hprevs : ((keptRows sorts s.newRows).map RowInfo.prev ++
      gone.map RowInfo.tvIndex).Perm ((remaining prevRows 0).map Prod.snd) := by
    have hmap := hboth.map Prod.snd
    rwa [List.map_append, List.map_map, List.map_map] at hmap
  have hnodup : ((keptRows sorts s.newRows).map RowInfo.prev ++
      gone.map RowInfo.tvIndex).Nodup :=
    hprevs.nodup_iff.mpr ((remaining_sorted prevRows 0).imp Nat.ne_of_lt)
  have hnodup' : ((keptRows sorts s.newRows).map RowInfo.tvIndex ++
      (fresh s.newRows).map RowInfo.tvIndex).Nodup :=
    hplaces.nodup_iff.mpr List.nodup_range
  have hold_row (row : RowInfo) (hrow : row ∈ keptRows sorts s.newRows) :
      prevRows[row.prev]? = some (some row.rowIndex) :=
    mem_remaining.mp (hboth.subset (List.mem_append_left _
      (List.mem_map_of_mem (f := fun row => (row.rowIndex,row.prev)) hrow)))
  have hgone_row (row : RowInfo) (hrow : row ∈ gone) :
      prevRows[row.tvIndex]? = some (some row.rowIndex) :=
    mem_remaining.mp (hboth.subset (List.mem_append_right _
      (List.mem_map_of_mem (f := fun row => (row.rowIndex,row.tvIndex)) hrow)))
  have hnew_row (row : RowInfo) (hrow : row ∈ s.newRows) :
      nextRows[row.tvIndex]? = some row.rowIndex :=
    List.mem_zipIdx_iff_getElem?.mp (hnew.subset
      (List.mem_map_of_mem (f := fun row => (row.rowIndex,row.tvIndex)) hrow))
  refine ⟨?_, hold_row, ?_, hgone_row, ?_, ?_, (List.nodup_append.mp hnodup).1, ?_, ?_,
    h.apart⟩
  · have hle := sorts.byPlace.sorted (kept s.newRows)
    have hne := List.pairwise_map.mp (List.nodup_append.mp hnodup').1
    refine (List.Pairwise.and hle hne).imp ?_
    rintro x y ⟨hxy,hne⟩
    have := of_decide_eq_false hxy
    omega
  · exact fun row hrow => hnew_row row (List.mem_of_mem_filter (hperm.subset hrow))
  · exact fun row hrow => hnew_row row (List.mem_of_mem_filter hrow)
  · intro row hrow
    have hmem : asOld row ∈ (collectOld b prevRows 0 0 {}).2 :=
      (h.old.trans (sorts.byRow.perm _)).subset
        (List.mem_append_left _ (List.mem_map_of_mem (hperm.subset hrow)))
    exact (hinfo _ hmem).2
  · ext k
    rw [Finset.mem_union, List.mem_toFinset, List.mem_toFinset, mem_missing,
      SequenceDiff.unmatched, Finset.mem_sdiff, Finset.mem_range, List.mem_toFinset]
    have hdisjoint := (List.nodup_append.mp hnodup).2.2
    constructor
    · rintro (hnone | hgone)
      · refine ⟨(List.getElem?_eq_some_iff.mp hnone).1, ?_⟩
        intro hk
        obtain ⟨row,hrow,rfl⟩ := List.mem_map.mp hk
        rw [hold_row row hrow] at hnone
        exact absurd (Option.some.inj hnone) (by simp)
      · refine ⟨?_, fun hk => hdisjoint k hk k hgone rfl⟩
        obtain ⟨row,hrow,rfl⟩ := List.mem_map.mp hgone
        exact (List.getElem?_eq_some_iff.mp (hgone_row row hrow)).1
    · rintro ⟨hlt,hk⟩
      cases hget : prevRows[k] with
      | none => exact Or.inl (List.getElem?_eq_some_iff.mpr ⟨hlt, hget⟩)
      | some row =>
        have hmem : (row,k) ∈ remaining prevRows 0 :=
          mem_remaining.mpr (List.getElem?_eq_some_iff.mpr ⟨hlt, hget⟩)
        have hin := hprevs.symm.subset (List.mem_map_of_mem (f := Prod.snd) hmem)
        exact Or.inr ((List.mem_append.mp hin).resolve_left hk)
  · ext k
    rw [List.mem_toFinset, SequenceDiff.unmatched, Finset.mem_sdiff, Finset.mem_range,
      List.mem_toFinset]
    have hdisjoint := (List.nodup_append.mp hnodup').2.2
    constructor
    · intro hk
      refine ⟨?_, fun hk' => hdisjoint k hk' k hk rfl⟩
      exact List.mem_range.mp (hplaces.subset (List.mem_append_right _ hk))
    · rintro ⟨hlt,hk⟩
      have hin := hplaces.symm.subset (List.mem_range.mpr hlt)
      exact (List.mem_append.mp hin).resolve_left hk

/-! The sorted path -/

/-- The positions between the matches, on one side of them. -/
def gaps (place : Match → ℕ) : List Match → ℕ → List ℕ
  | [], _ => []
  | m :: rest, i => List.range' i (place m-i) ++ gaps place rest (max i (place m)+m.size)

theorem take_drop_eq (l : List α) (i n : ℕ) :
    (l.drop i).take n = (List.range' i n).filterMap (fun k => l[k]?) := by
  induction n generalizing i with
  | zero => simp
  | succ n ih =>
    rw [List.range'_succ, List.filterMap_cons, ← ih]
    by_cases hi : i < l.length
    · rw [List.getElem?_eq_getElem hi, List.drop_eq_getElem_cons hi, List.take_succ_cons]
    · rw [List.getElem?_eq_none (by omega), List.drop_eq_nil_of_le (by omega),
        List.drop_eq_nil_of_le (by omega), List.take_nil, List.take_nil]

/-- The places of the items at some positions. -/
def placesAt (f : α → ℕ) (l : List α) (at' : List ℕ) : List ℕ :=
  (at'.filterMap (fun k => l[k]?)).map f

theorem mem_placesAt {f : α → ℕ} {l : List α} {at' : List ℕ} {t : ℕ} :
    t ∈ placesAt f l at' ↔ ∃ k ∈ at', ∃ x, l[k]? = some x ∧ f x = t := by
  rw [placesAt, List.mem_map]
  constructor
  · rintro ⟨x,hx,ht⟩
    obtain ⟨k,hk,hget⟩ := List.mem_filterMap.mp hx
    exact ⟨k, hk, x, hget, ht⟩
  · rintro ⟨k,hk,x,hget,ht⟩
    exact ⟨x, List.mem_filterMap.mpr ⟨k, hk, hget⟩, ht⟩

theorem placesAt_slice (f : α → ℕ) (l : List α) (i n : ℕ) (rest : List ℕ) :
    placesAt f l (List.range' i n ++ rest) = ((l.drop i).take n).map f ++ placesAt f l rest := by
  rw [placesAt, placesAt, List.filterMap_append, List.map_append, take_drop_eq]

theorem align_represents {old : List Row} {rows : List RowInfo} (l : List Match) {i j : ℕ}
    {c : CollectionChangeBuilder} {D I : Finset ℕ}
    (hD : IndexSet.Represents b c.deletions D) (hI : IndexSet.Represents b c.insertions I) :
    IndexSet.Represents b (align b old rows l i j c).deletions
      (D ∪ (placesAt Row.tvIndex old (gaps Match.i l i)).toFinset) ∧
    IndexSet.Represents b (align b old rows l i j c).insertions
      (I ∪ (placesAt RowInfo.tvIndex rows (gaps Match.j l j)).toFinset) ∧
    (align b old rows l i j c).moves = c.moves ∧
    (align b old rows l i j c).modifications = c.modifications ∧
    (align b old rows l i j c).columns = c.columns := by
  induction l generalizing i j c D I with
  | nil => simpa [align, gaps, placesAt] using ⟨hD, hI⟩
  | cons m l ih =>
    have hD' := addEach_represents hD Row.tvIndex ((old.drop i).take (m.i-i))
    have hI' := addEach_represents hI RowInfo.tvIndex ((rows.drop j).take (m.j-j))
    obtain ⟨hdel,hins,hrest⟩ := ih (c := { c with
        deletions := ((old.drop i).take (m.i-i)).foldl
          (fun set row => set.add b row.tvIndex) c.deletions
        insertions := ((rows.drop j).take (m.j-j)).foldl
          (fun set row => set.add b row.tvIndex) c.insertions })
      (i := max i m.i+m.size) (j := max j m.j+m.size) hD' hI'
    rw [Finset.union_assoc, ← List.toFinset_append] at hdel hins
    rw [align, gaps, gaps, placesAt_slice, placesAt_slice]
    exact ⟨hdel, hins, hrest⟩

/-- What lies between the matches is what is in none of them. -/
theorem mem_gaps {place : Match → ℕ} (ls : List Match) {last : Match} {i k : ℕ}
    (horder : ls.Pairwise (fun m n => place m+m.size ≤ place n))
    (hfirst : ∀ m ∈ ls, i ≤ place m) (hlast : ∀ m ∈ ls, place m+m.size ≤ place last)
    (hi : i ≤ place last) :
    k ∈ gaps place (ls ++ [last]) i ↔ i ≤ k ∧ k < place last ∧
      ∀ m ∈ ls, ¬ (place m ≤ k ∧ k < place m+m.size) := by
  induction ls generalizing i with
  | nil =>
    rw [List.nil_append, gaps, gaps, List.append_nil, List.mem_range'_1]
    constructor
    · rintro ⟨hle,hlt⟩
      exact ⟨hle, by omega, by simp⟩
    · rintro ⟨hle,hlt,_⟩
      exact ⟨hle, by omega⟩
  | cons m ls ih =>
    obtain ⟨hm,hls⟩ := List.pairwise_cons.mp horder
    have him := hfirst m List.mem_cons_self
    have hml := hlast m List.mem_cons_self
    have hmax : max i (place m) = place m := by omega
    rw [List.cons_append, gaps, List.mem_append, List.mem_range'_1, hmax,
      ih hls (fun n hn => hm n hn) (fun n hn => hlast n (List.mem_cons_of_mem _ hn)) hml]
    constructor
    · rintro (⟨hle,hlt⟩ | ⟨hle,hlt,hrest⟩)
      · refine ⟨hle, by omega, ?_⟩
        intro n hn
        rcases List.mem_cons.mp hn with rfl | hn
        · omega
        · have := hm n hn
          omega
      · refine ⟨by omega, hlt, ?_⟩
        intro n hn
        rcases List.mem_cons.mp hn with rfl | hn
        · omega
        · exact hrest n hn
    · rintro ⟨hle,hlt,hall⟩
      have hout := hall m List.mem_cons_self
      by_cases hk : k < place m
      · exact Or.inl ⟨hle, by omega⟩
      · exact Or.inr ⟨by omega, hlt, fun n hn => hall n (List.mem_cons_of_mem _ hn)⟩

/-- The rows that the matches hold, by their positions on both sides. -/
def blockPairs (ls : List Match) : List (ℕ × ℕ) :=
  ls.flatMap (fun m => (List.range m.size).map (fun k => (m.i+k,m.j+k)))

theorem mem_blockPairs {ls : List Match} {p : ℕ × ℕ} :
    p ∈ blockPairs ls ↔ ∃ m ∈ ls, ∃ k, k < m.size ∧ (m.i+k,m.j+k) = p := by
  rw [blockPairs, List.mem_flatMap]
  constructor
  · rintro ⟨m,hm,hp⟩
    obtain ⟨k,hk,he⟩ := List.mem_map.mp hp
    exact ⟨m, hm, k, List.mem_range.mp hk, he⟩
  · rintro ⟨m,hm,k,hk,he⟩
    exact ⟨m, hm, List.mem_map.mpr ⟨k, List.mem_range.mpr hk, he⟩⟩

theorem blockPairs_sorted {ls : List Match}
    (h : ls.Pairwise (fun m n => m.i+m.size ≤ n.i ∧ m.j+m.size ≤ n.j)) :
    (blockPairs ls).Pairwise (fun p q => p.1 < q.1 ∧ p.2 < q.2) := by
  rw [blockPairs, List.pairwise_flatMap]
  constructor
  · intro m _
    rw [List.pairwise_map]
    refine List.pairwise_lt_range.imp ?_
    intro k l hkl
    exact ⟨Nat.add_lt_add_left hkl _, Nat.add_lt_add_left hkl _⟩
  · refine h.imp ?_
    rintro m n ⟨hi,hj⟩ p hp q hq
    obtain ⟨k,hk,rfl⟩ := List.mem_map.mp hp
    obtain ⟨l,_,rfl⟩ := List.mem_map.mp hq
    have hk := List.mem_range.mp hk
    exact ⟨show m.i+k < n.i+l by omega, show m.j+k < n.j+l by omega⟩

/-- The change set after the rows that are in both results are matched in pairs: those that
are in no pair are deleted and inserted. -/
structure Realigned (b : Build) (prevRows : List (Option ℕ)) (nextRows : List ℕ)
    (rows : List RowInfo) (c c' : CollectionChangeBuilder) (pairs : List (ℕ × ℕ)) : Prop where
  sorted : pairs.Pairwise (fun p q => p.1 < q.1 ∧ p.2 < q.2)
  same : ∀ p ∈ pairs, ∃ row, prevRows[p.1]? = some (some row) ∧ nextRows[p.2]? = some row
  old_mem : ∀ p ∈ pairs, p.1 ∈ rows.map RowInfo.prev
  new_mem : ∀ p ∈ pairs, p.2 ∈ rows.map RowInfo.tvIndex
  deletions : IndexSet.Represents b c'.deletions (c.deleted ∪
    ((rows.map RowInfo.prev).toFinset \ (pairs.map Prod.fst).toFinset))
  insertions : IndexSet.Represents b c'.insertions (c.added ∪
    ((rows.map RowInfo.tvIndex).toFinset \ (pairs.map Prod.snd).toFinset))
  moves_eq : c'.moves = c.moves
  modifications_eq : c'.modifications = c.modifications
  columns_eq : c'.columns = c.columns

/-- The place of the item at a position. -/
def placeOf (f : α → ℕ) (l : List α) (k : ℕ) : ℕ := (l[k]?.map f).getD 0

theorem placeOf_eq {f : α → ℕ} {l : List α} {k : ℕ} {x : α} (h : l[k]? = some x) :
    placeOf f l k = f x := by
  rw [placeOf, h]
  rfl

/-- The places of the other positions are those between the matches. -/
theorem placesAt_others {f : α → ℕ} {l : List α} {at' others : List ℕ}
    (hl : l.Pairwise (fun x y => f x < f y)) (hat : ∀ k ∈ at', k < l.length)
    (hothers : ∀ k, k < l.length → (k ∈ others ↔ k ∉ at')) :
    (placesAt f l others).toFinset =
      (l.map f).toFinset \ (at'.map (placeOf f l)).toFinset := by
  ext t
  rw [List.mem_toFinset, mem_placesAt, Finset.mem_sdiff, List.mem_toFinset, List.mem_toFinset,
    List.mem_map, List.mem_map]
  have hinj {i j : ℕ} {x y : α} (hi : l[i]? = some x) (hj : l[j]? = some y) (he : f x = f y) :
      i = j := by
    obtain ⟨hilt,rfl⟩ := List.getElem?_eq_some_iff.mp hi
    obtain ⟨hjlt,rfl⟩ := List.getElem?_eq_some_iff.mp hj
    by_contra hne
    rcases Nat.lt_or_gt_of_ne hne with hlt | hlt
    · have := List.pairwise_iff_getElem.mp hl i j hilt hjlt hlt
      omega
    · have := List.pairwise_iff_getElem.mp hl j i hjlt hilt hlt
      omega
  constructor
  · rintro ⟨k,hk,x,hx,rfl⟩
    refine ⟨⟨x, List.mem_of_getElem? hx, rfl⟩, ?_⟩
    rintro ⟨k',hk',he⟩
    have hx' := List.getElem?_eq_getElem (hat k' hk')
    rw [placeOf_eq hx'] at he
    have hkk := hinj hx' hx he
    exact (hothers k (List.getElem?_eq_some_iff.mp hx).1).mp hk (hkk ▸ hk')
  · rintro ⟨⟨x,hx,rfl⟩,hnot⟩
    obtain ⟨k,hk⟩ := List.mem_iff_getElem?.mp hx
    refine ⟨k, ?_, x, hk, rfl⟩
    refine (hothers k (List.getElem?_eq_some_iff.mp hk).1).mpr ?_
    intro hin
    exact hnot ⟨k, hin, placeOf_eq hk⟩

theorem placeOf_lt {f : α → ℕ} {l : List α} (hl : l.Pairwise (fun x y => f x < f y)) {i j : ℕ}
    (hij : i < j) (hj : j < l.length) : placeOf f l i < placeOf f l j := by
  rw [placeOf_eq (List.getElem?_eq_getElem (hij.trans hj)), placeOf_eq (List.getElem?_eq_getElem hj)]
  exact List.pairwise_iff_getElem.mp hl i j _ hj hij

/-- The rows of the old results, by their old places. -/
structure OldRows (rows : List RowInfo) (old : List Row) : Prop where
  perm : old.Perm (rows.map (fun row => ⟨row.rowIndex, row.prev⟩))
  sorted : old.Pairwise (fun x y => x.tvIndex < y.tvIndex)

theorem oldRows_sorted (sorts : Sorts) {rows : List RowInfo}
    (h : (rows.map RowInfo.prev).Nodup) :
    OldRows rows (sorts.oldRows.sort (rows.map (fun row => ⟨row.rowIndex, row.prev⟩))) := by
  have hperm := sorts.oldRows.perm (rows.map (fun row => ⟨row.rowIndex, row.prev⟩))
  have hnodup := (hperm.map Row.tvIndex).nodup_iff.mpr (by rwa [List.map_map])
  refine ⟨hperm, ?_⟩
  refine (List.Pairwise.and (sorts.oldRows.sorted _) (List.pairwise_map.mp hnodup)).imp ?_
  rintro x y ⟨hle,hne⟩
  have := of_decide_eq_false hle
  omega

theorem newRows_indexed (sorts : Sorts) (rows : List RowInfo) :
    LongestCommonSubsequenceCalculator.Indexed
      (sorts.newRows.sort (rows.mapIdx (fun i row => ⟨row.rowIndex, i⟩)))
      (rows.map RowInfo.rowIndex) := by
  have hperm := sorts.newRows.perm (rows.mapIdx (fun i row => (⟨row.rowIndex, i⟩ : Row)))
  have hnodup : ((sorts.newRows.sort
      (rows.mapIdx (fun i row => ⟨row.rowIndex, i⟩))).map Row.tvIndex).Nodup := by
    rw [(hperm.map Row.tvIndex).nodup_iff, List.nodup_iff_getElem?_ne_getElem?]
    intro i j hij hj
    rw [List.getElem?_map, List.getElem?_map, List.getElem?_mapIdx, List.getElem?_mapIdx]
    rw [List.length_map, List.length_mapIdx] at hj
    rw [List.getElem?_eq_getElem (hij.trans hj), List.getElem?_eq_getElem hj]
    intro he
    exact Nat.ne_of_lt hij (Option.some.inj he)
  constructor
  · refine (List.Pairwise.and (sorts.newRows.sorted _) (List.pairwise_map.mp hnodup)).imp ?_
    rintro x y ⟨hle,hne⟩
    have := of_decide_eq_false hle
    omega
  · intro row
    rw [hperm.mem_iff, List.mem_iff_getElem?, List.getElem?_map]
    constructor
    · rintro ⟨i,hi⟩
      rw [List.getElem?_mapIdx] at hi
      obtain ⟨row',hrow',rfl⟩ := Option.map_eq_some_iff.mp hi
      rw [hrow']
      rfl
    · intro h
      obtain ⟨row',hrow',he⟩ := Option.map_eq_some_iff.mp h
      refine ⟨row.tvIndex, ?_⟩
      rw [List.getElem?_mapIdx, hrow', Option.map_some, he]

/-- Pairs of positions in the rows of both results make pairs of places. -/
theorem realigned_of_common {rows gone fresh : List RowInfo} {old : List Row}
    {c c' : CollectionChangeBuilder} {common : List (ℕ × ℕ)} (others others' : List ℕ)
    (h : Shared b prevRows nextRows rows gone fresh) (hold : OldRows rows old)
    (hsorted : common.Pairwise (fun p q => p.1 < q.1 ∧ p.2 < q.2))
    (hsame : ∀ p ∈ common, ∃ x y, old[p.1]? = some x ∧ rows[p.2]? = some y ∧
      x.rowIndex = y.rowIndex)
    (hothers : ∀ k, k < old.length → (k ∈ others ↔ k ∉ common.map Prod.fst))
    (hothers' : ∀ k, k < rows.length → (k ∈ others' ↔ k ∉ common.map Prod.snd))
    (hD : IndexSet.Represents b c'.deletions
      (c.deleted ∪ (placesAt Row.tvIndex old others).toFinset))
    (hI : IndexSet.Represents b c'.insertions
      (c.added ∪ (placesAt RowInfo.tvIndex rows others').toFinset))
    (hmoves : c'.moves = c.moves) (hmod : c'.modifications = c.modifications)
    (hcol : c'.columns = c.columns) : ∃ pairs, Realigned b prevRows nextRows rows c c' pairs := by
  have hold_mem (x : Row) (hx : x ∈ old) : x.tvIndex ∈ rows.map RowInfo.prev ∧
      prevRows[x.tvIndex]? = some (some x.rowIndex) := by
    obtain ⟨row,hrow,rfl⟩ := List.mem_map.mp (hold.perm.subset hx)
    exact ⟨List.mem_map_of_mem hrow, h.old_row row hrow⟩
  have hlen (p : ℕ × ℕ) (hp : p ∈ common) : p.1 < old.length ∧ p.2 < rows.length := by
    obtain ⟨x,y,hx,hy,_⟩ := hsame p hp
    exact ⟨(List.getElem?_eq_some_iff.mp hx).1, (List.getElem?_eq_some_iff.mp hy).1⟩
  have hfirst : ∀ k ∈ common.map Prod.fst, k < old.length := by
    intro k hk
    obtain ⟨p,hp,rfl⟩ := List.mem_map.mp hk
    exact (hlen p hp).1
  have hsecond : ∀ k ∈ common.map Prod.snd, k < rows.length := by
    intro k hk
    obtain ⟨p,hp,rfl⟩ := List.mem_map.mp hk
    exact (hlen p hp).2
  have hplaces : (old.map Row.tvIndex).toFinset = (rows.map RowInfo.prev).toFinset := by
    have hperm := hold.perm.map Row.tvIndex
    rw [List.map_map] at hperm
    exact List.toFinset_eq_of_perm _ _ hperm
  rw [placesAt_others hold.sorted hfirst hothers, hplaces, List.map_map] at hD
  rw [placesAt_others h.sorted hsecond hothers', List.map_map] at hI
  refine ⟨common.map (fun p => (placeOf Row.tvIndex old p.1,placeOf RowInfo.tvIndex rows p.2)),
    ?_, ?_, ?_, ?_, ?_, ?_, hmoves, hmod, hcol⟩
  · rw [List.pairwise_map]
    refine hsorted.imp_of_mem ?_
    rintro p q _ hq ⟨hpq,hpq'⟩
    exact ⟨placeOf_lt hold.sorted hpq (hlen q hq).1, placeOf_lt h.sorted hpq' (hlen q hq).2⟩
  · intro p hp
    obtain ⟨q,hq,rfl⟩ := List.mem_map.mp hp
    obtain ⟨x,y,hx,hy,hrow⟩ := hsame q hq
    rw [placeOf_eq hx, placeOf_eq hy]
    refine ⟨x.rowIndex, (hold_mem x (List.mem_of_getElem? hx)).2, ?_⟩
    rw [hrow]
    exact h.new_row y (List.mem_of_getElem? hy)
  · intro p hp
    obtain ⟨q,hq,rfl⟩ := List.mem_map.mp hp
    obtain ⟨x,_,hx,_,_⟩ := hsame q hq
    rw [placeOf_eq hx]
    exact (hold_mem x (List.mem_of_getElem? hx)).1
  · intro p hp
    obtain ⟨q,hq,rfl⟩ := List.mem_map.mp hp
    obtain ⟨_,y,_,hy,_⟩ := hsame q hq
    rw [placeOf_eq hy]
    exact List.mem_map_of_mem (List.mem_of_getElem? hy)
  · rw [List.map_map]
    exact hD
  · rw [List.map_map]
    exact hI

theorem firstDifference_none {old : List Row} {rows : List RowInfo}
    (h : firstDifference old rows = none) {k : ℕ} {x : Row} {y : RowInfo}
    (hx : old[k]? = some x) (hy : rows[k]? = some y) : x.rowIndex = y.rowIndex := by
  have hmem : (x,y) ∈ old.zip rows := by
    rw [List.mem_iff_getElem?]
    exact ⟨k, by rw [List.getElem?_zip_eq_some]; exact ⟨hx, hy⟩⟩
  have hfalse := List.findIdx?_eq_none_iff.mp h (x,y) hmem
  simpa using hfalse

theorem firstDifference_some {old : List Row} {rows : List RowInfo} {first : ℕ}
    (h : firstDifference old rows = some first) : first < (old.zip rows).length ∧
      ∀ k x y, k < first → old[k]? = some x → rows[k]? = some y → x.rowIndex = y.rowIndex := by
  obtain ⟨hlt,_,hbefore⟩ := List.findIdx?_eq_some_iff_getElem.mp h
  refine ⟨hlt, ?_⟩
  intro k x y hk hx hy
  have hpair := hbefore k hk
  have hget : (old.zip rows)[k]? = some (x,y) := by
    rw [List.getElem?_zip_eq_some]
    exact ⟨hx, hy⟩
  obtain ⟨_,he⟩ := List.getElem?_eq_some_iff.mp hget
  rw [he] at hpair
  simpa using hpair

/-- Positions before the first difference, and those the matches hold behind it. -/
def commonPairs (first : ℕ) (ls : List Match) : List (ℕ × ℕ) :=
  (List.range first).map (fun k => (k,k)) ++ blockPairs ls

theorem commonPairs_sorted {first : ℕ} {ls : List Match}
    (h : ls.Pairwise (fun m n => m.i+m.size ≤ n.i ∧ m.j+m.size ≤ n.j))
    (hfirst : ∀ m ∈ ls, first ≤ m.i ∧ first ≤ m.j) :
    (commonPairs first ls).Pairwise (fun p q => p.1 < q.1 ∧ p.2 < q.2) := by
  refine List.pairwise_append.mpr ⟨?_, blockPairs_sorted h, ?_⟩
  · rw [List.pairwise_map]
    exact List.pairwise_lt_range.imp (fun hkl => ⟨hkl, hkl⟩)
  · intro p hp q hq
    obtain ⟨k,hk,rfl⟩ := List.mem_map.mp hp
    obtain ⟨m,hm,l,_,rfl⟩ := mem_blockPairs.mp hq
    have hk := List.mem_range.mp hk
    obtain ⟨hi,hj⟩ := hfirst m hm
    exact ⟨show k < m.i+l by omega, show k < m.j+l by omega⟩

/-- One side of the pairs, whose places are told by `place`. -/
theorem mem_commonPairs {first k : ℕ} {ls : List Match} {side : ℕ × ℕ → ℕ}
    (place : Match → ℕ) (hrange : ∀ k, side (k,k) = k)
    (hside : ∀ (m : Match) k, side (m.i+k,m.j+k) = place m+k) :
    k ∈ (commonPairs first ls).map side ↔
      k < first ∨ ∃ m ∈ ls, place m ≤ k ∧ k < place m+m.size := by
  rw [commonPairs, List.map_append, List.mem_append, List.map_map]
  apply or_congr
  · rw [List.mem_map]
    constructor
    · rintro ⟨l,hl,rfl⟩
      rw [Function.comp_apply, hrange]
      exact List.mem_range.mp hl
    · exact fun hk => ⟨k, List.mem_range.mpr hk, hrange k⟩
  · rw [List.mem_map]
    constructor
    · rintro ⟨p,hp,rfl⟩
      obtain ⟨m,hm,l,hl,rfl⟩ := mem_blockPairs.mp hp
      rw [hside]
      exact ⟨m, hm, by omega, by omega⟩
    · rintro ⟨m,hm,hle,hlt⟩
      refine ⟨(m.i+(k-place m),m.j+(k-place m)), ?_, ?_⟩
      · exact mem_blockPairs.mpr ⟨m, hm, k-place m, by omega, rfl⟩
      · rw [hside]
        omega

/-- The walk along the matches, from the first difference on. -/
theorem align_realigned {rows gone fresh : List RowInfo} {old : List Row} {first : ℕ}
    {c : CollectionChangeBuilder} {ls : List Match} {last : Match}
    (h : Shared b prevRows nextRows rows gone fresh) (hold : OldRows rows old)
    (hbefore : ∀ k x y, k < first → old[k]? = some x → rows[k]? = some y →
      x.rowIndex = y.rowIndex)
    (hmatched : LongestCommonSubsequenceCalculator.Matched old (rows.map RowInfo.rowIndex)
      first old.length first rows.length ls)
    (hfirst : first ≤ old.length) (hfirst' : first ≤ rows.length) (hi : last.i = old.length)
    (hj : last.j = rows.length) (hD : c.deletions.Verified b) (hI : c.insertions.Verified b) :
    ∃ pairs, Realigned b prevRows nextRows rows c
      (align b old rows (ls ++ [last]) first first c) pairs := by
  obtain ⟨hdel,hins,hmoves,hmod,hcol⟩ := align_represents
    (ls ++ [last]) (i := first) (j := first) (represents_self hD) (represents_self hI)
  have hcommon : (commonPairs first ls).Pairwise (fun p q => p.1 < q.1 ∧ p.2 < q.2) :=
    commonPairs_sorted hmatched.inOrder (fun m hm =>
      ⟨(hmatched.blocks m hm).old_first, (hmatched.blocks m hm).new_first⟩)
  apply realigned_of_common _ _ h hold hcommon ?_ ?_ ?_ hdel hins hmoves hmod hcol
  · intro p hp
    rcases List.mem_append.mp hp with hp | hp
    · obtain ⟨k,hk,rfl⟩ := List.mem_map.mp hp
      have hk := List.mem_range.mp hk
      have hx := List.getElem?_eq_getElem (hk.trans_le hfirst)
      have hy := List.getElem?_eq_getElem (hk.trans_le hfirst')
      exact ⟨_, _, hx, hy, hbefore k _ _ hk hx hy⟩
    · obtain ⟨m,hm,k,hk,rfl⟩ := mem_blockPairs.mp hp
      obtain ⟨x,hx,hrow⟩ := (hmatched.blocks m hm).same k hk
      rw [List.getElem?_map] at hrow
      obtain ⟨y,hy,he⟩ := Option.map_eq_some_iff.mp hrow
      exact ⟨x, y, hx, hy, he.symm⟩
  · intro k hk
    rw [mem_gaps ls (hmatched.inOrder.imp And.left)
      (fun m hm => (hmatched.blocks m hm).old_first)
      (fun m hm => hi ▸ (hmatched.blocks m hm).old_last) (hi ▸ hfirst),
      mem_commonPairs Match.i (fun _ => rfl) (fun _ _ => rfl), not_or, not_lt, hi]
    constructor
    · rintro ⟨hle,_,hout⟩
      exact ⟨hle, fun ⟨m,hm,hin⟩ => hout m hm hin⟩
    · rintro ⟨hle,hout⟩
      exact ⟨hle, hk, fun m hm hin => hout ⟨m, hm, hin⟩⟩
  · intro k hk
    rw [mem_gaps ls (hmatched.inOrder.imp And.right)
      (fun m hm => (hmatched.blocks m hm).new_first)
      (fun m hm => hj ▸ (hmatched.blocks m hm).new_last) (hj ▸ hfirst'),
      mem_commonPairs Match.j (fun _ => rfl) (fun _ _ => rfl), not_or, not_lt, hj]
    constructor
    · rintro ⟨hle,_,hout⟩
      exact ⟨hle, fun ⟨m,hm,hin⟩ => hout m hm hin⟩
    · rintro ⟨hle,hout⟩
      exact ⟨hle, hk, fun m hm hin => hout ⟨m, hm, hin⟩⟩

theorem calculateMovesSorted_realigned (sorts : Sorts) {rows gone fresh : List RowInfo}
    {c : CollectionChangeBuilder} (h : Shared b prevRows nextRows rows gone fresh)
    (hD : c.deletions.Verified b) (hI : c.insertions.Verified b) :
    ∃ pairs, Realigned b prevRows nextRows rows c (calculateMovesSorted b sorts rows c) pairs := by
  have hold := oldRows_sorted sorts h.prev_nodup
  rw [calculateMovesSorted]
  generalize sorts.oldRows.sort (rows.map (fun row => ⟨row.rowIndex, row.prev⟩)) = old at hold
  have hlen : old.length = rows.length := by
    rw [hold.perm.length_eq, List.length_map]
  simp only
  cases hdiff : firstDifference old rows with
  | none =>
    have hcommon : (commonPairs rows.length []).Pairwise (fun p q => p.1 < q.1 ∧ p.2 < q.2) :=
      commonPairs_sorted List.Pairwise.nil (by simp)
    have hempty {β : Type} (f : β → ℕ) (l : List β) : (placesAt f l []).toFinset = ∅ := rfl
    apply realigned_of_common [] [] h hold hcommon
    · intro p hp
      rw [commonPairs, show blockPairs [] = [] from rfl, List.append_nil] at hp
      obtain ⟨k,hk,rfl⟩ := List.mem_map.mp hp
      have hk := List.mem_range.mp hk
      have hx := List.getElem?_eq_getElem (hlen.symm ▸ hk)
      have hy := List.getElem?_eq_getElem hk
      exact ⟨_, _, hx, hy, firstDifference_none hdiff hx hy⟩
    · intro k hk
      rw [mem_commonPairs Match.i (fun _ => rfl) (fun _ _ => rfl)]
      exact iff_of_false List.not_mem_nil (not_not_intro (Or.inl (hlen ▸ hk)))
    · intro k hk
      rw [mem_commonPairs Match.j (fun _ => rfl) (fun _ _ => rfl)]
      exact iff_of_false List.not_mem_nil (not_not_intro (Or.inl hk))
    · rw [hempty, Finset.union_empty]
      exact represents_self hD
    · rw [hempty, Finset.union_empty]
      exact represents_self hI
    · rfl
    · rfl
    · rfl
  | some first =>
    obtain ⟨hlt,hbefore⟩ := firstDifference_some hdiff
    rw [List.length_zip] at hlt
    have hnew := newRows_indexed sorts rows
    have hnewlen : (sorts.newRows.sort
        (rows.mapIdx (fun i row => (⟨row.rowIndex, i⟩ : Row)))).length = rows.length := by
      rw [(sorts.newRows.perm _).length_eq, List.length_mapIdx]
    generalize sorts.newRows.sort (rows.mapIdx (fun i row => (⟨row.rowIndex, i⟩ : Row))) = new
      at hnew hnewlen
    have hfirst : first ≤ old.length := by omega
    have hfirst' : first ≤ rows.length := by omega
    have hmatched := @LongestCommonSubsequenceCalculator.findLongestMatches_matched b
      c.modifications old _ _ hnew first old.length first new.length
      hfirst (by omega)
    rw [hnewlen] at hmatched
    simp only [longestMatches, hnewlen]
    exact align_realigned h hold hbefore hmatched hfirst hfirst' rfl rfl hD hI

/-! The whole calculation -/

/-- The change set leads from the old rows to the new ones, and its modifications are the new
rows that changed. -/
structure Calculated (b : Build) (prevRows : List (Option ℕ)) (nextRows : List ℕ)
    (rowDidChange : ℕ → Bool) (c : CollectionChangeBuilder) : Prop where
  wellFormed : WellFormed b c
  describes : Describes c ∅ prevRows (nextRows.map some)
  modified : ∀ j ∈ c.changed Aspect.contents,
    ∃ row, nextRows[j]? = some row ∧ rowDidChange row = true
  kept : ∀ j row, nextRows[j]? = some row → j ∉ c.added → rowDidChange row = true →
    j ∈ c.changed Aspect.contents
  moved : ∀ m ∈ c.moves, ∀ row, nextRows[m.to]? = some row → rowDidChange row = true →
    m.to ∈ c.changed Aspect.contents
  columns : c.columns = []

/-- The new places of the rows in both results that changed. -/
def changedPlaces (rowDidChange : ℕ → Bool) (rows : List RowInfo) : List ℕ :=
  (rows.filter (fun row => rowDidChange row.rowIndex)).map RowInfo.tvIndex

theorem mem_changedPlaces {rowDidChange : ℕ → Bool} {rows : List RowInfo} {j : ℕ} :
    j ∈ changedPlaces rowDidChange rows ↔
      ∃ row ∈ rows, rowDidChange row.rowIndex = true ∧ row.tvIndex = j := by
  rw [changedPlaces, List.mem_map]
  constructor
  · rintro ⟨row,hrow,rfl⟩
    obtain ⟨hmem,hchange⟩ := List.mem_filter.mp hrow
    exact ⟨row, hmem, hchange, rfl⟩
  · rintro ⟨row,hmem,hchange,rfl⟩
    exact ⟨row, List.mem_filter.mpr ⟨hmem, hchange⟩, rfl⟩

/-- A change set whose deletions and insertions are what the pairs leave out. -/
theorem calculated_of_pairs {rowDidChange : ℕ → Bool} {rows gone fresh : List RowInfo}
    {c : CollectionChangeBuilder} (pairs : List (ℕ × ℕ))
    (h : Shared b prevRows nextRows rows gone fresh)
    (hsorted : pairs.Pairwise (fun p q => p.1 < q.1 ∧ p.2 < q.2))
    (hsame : ∀ p ∈ pairs, ∃ row, prevRows[p.1]? = some (some row) ∧ nextRows[p.2]? = some row)
    (hmem : ∀ p ∈ pairs, p.2 ∈ rows.map RowInfo.tvIndex)
    (hD : IndexSet.Represents b c.deletions
      (SequenceDiff.unmatched prevRows.length (pairs.map Prod.fst)))
    (hI : IndexSet.Represents b c.insertions
      (SequenceDiff.unmatched nextRows.length (pairs.map Prod.snd)))
    (hM : IndexSet.Represents b c.modifications (changedPlaces rowDidChange rows).toFinset)
    (hcol : c.columns = [])
    (hmoves : ∀ m ∈ c.moves, ∃ info ∈ rows, info.prev = m.from ∧ info.tvIndex = m.to ∧
      m.from ∈ c.deleted ∧ m.to ∈ c.added)
    (hfrom : (c.moves.map Move.from).Nodup) (hto : (c.moves.map Move.to).Nodup) :
    Calculated b prevRows nextRows rowDidChange c := by
  have hlen : (nextRows.map some).length = nextRows.length := List.length_map _
  have haligned : SequenceDiff.Aligned prevRows.length (nextRows.map some).length pairs := by
    refine ⟨hsorted, ?_, ?_⟩
    · intro p hp
      obtain ⟨row,hrow,_⟩ := hsame p hp
      exact (List.getElem?_eq_some_iff.mp hrow).1
    · intro p hp
      obtain ⟨row,_,hrow⟩ := hsame p hp
      rw [hlen]
      exact (List.getElem?_eq_some_iff.mp hrow).1
  have hdeleted : c.deleted = SequenceDiff.unmatched prevRows.length (pairs.map Prod.fst) :=
    hD.indices_eq
  have hadded : c.added = SequenceDiff.unmatched (nextRows.map some).length
      (pairs.map Prod.snd) := by
    rw [hlen]
    exact hI.indices_eq
  have hcolumn (k : ℕ) : c.tracked (Aspect.column k) = { data := [] } := by
    rw [tracked, hcol]
    rfl
  have hwithin (a : Aspect) : c.changed a ⊆ c.changed Aspect.contents := by
    cases a with
    | identity => exact Finset.empty_subset _
    | contents => exact Finset.Subset.refl _
    | column k =>
      rw [changed, hcolumn]
      exact Finset.empty_subset _
  have hchanged (info : RowInfo) (hinfo : info ∈ rows)
      (hchange : rowDidChange info.rowIndex = true) :
      info.tvIndex ∈ c.changed Aspect.contents := by
    rw [changed, tracked, hM.indices_eq, List.mem_toFinset, mem_changedPlaces]
    exact ⟨info, hinfo, hchange, rfl⟩
  refine ⟨⟨hD.verified, hI.verified, ?_, hwithin, ?_, ?_, hfrom, hto⟩, ⟨?_, ?_, ?_, by simp⟩,
    ?_, ?_, ?_, hcol⟩
  · intro a
    cases a with
    | identity => exact IndexSet.represents_empty.verified
    | contents => exact hM.verified
    | column k =>
      rw [hcolumn]
      exact IndexSet.represents_empty.verified
  · intro m hm
    obtain ⟨_,_,_,_,hin,_⟩ := hmoves m hm
    exact hin
  · intro m hm
    obtain ⟨_,_,_,_,_,hin⟩ := hmoves m hm
    exact hin
  · rw [hdeleted, hadded]
    apply haligned.transforms
    intro p hp _
    obtain ⟨row,hold,hnew⟩ := hsame p hp
    rw [hold, List.getElem?_map, hnew]
    rfl
  · intro m hm
    obtain ⟨info,hinfo,hfrom,hto,hin,hin'⟩ := hmoves m hm
    refine ⟨hin, hin', ?_⟩
    intro _
    rw [← hfrom, ← hto, h.old_row info hinfo, List.getElem?_map, h.new_row info hinfo]
    rfl
  · rw [hdeleted, hadded]
    exact haligned.fits
  · intro j hj
    have hj : j ∈ (changedPlaces rowDidChange rows).toFinset := by
      rw [← hM.indices_eq]
      exact hj
    obtain ⟨row,hmem,hchange,rfl⟩ := mem_changedPlaces.mp (List.mem_toFinset.mp hj)
    exact ⟨row.rowIndex, h.new_row row hmem, hchange⟩
  · intro j row hrow hj hchange
    rw [hadded, hlen, SequenceDiff.unmatched, Finset.mem_sdiff, Finset.mem_range, not_and,
      not_not, List.mem_toFinset] at hj
    obtain ⟨p,hp,rfl⟩ := List.mem_map.mp (hj (List.getElem?_eq_some_iff.mp hrow).1)
    obtain ⟨info,hinfo,hplace⟩ := List.mem_map.mp (hmem p hp)
    have hindex := h.new_row info hinfo
    rw [hplace, hrow] at hindex
    rw [← hplace]
    exact hchanged info hinfo (Option.some.inj hindex ▸ hchange)
  · intro m hm row hrow hchange
    obtain ⟨info,hinfo,_,hto,_,_⟩ := hmoves m hm
    have hindex := h.new_row info hinfo
    rw [hto, hrow] at hindex
    rw [← hto]
    exact hchanged info hinfo (Option.some.inj hindex ▸ hchange)

/-- What is in neither of two sets of pairs. -/
theorem unmatched_union {n : ℕ} {P Q : List ℕ} {A G : Finset ℕ}
    (h : A ∪ G = SequenceDiff.unmatched n P) (hP : ∀ i ∈ P, i < n) (hQ : ∀ i ∈ Q, i ∈ P) :
    A ∪ (P.toFinset \ Q.toFinset) ∪ G = SequenceDiff.unmatched n Q := by
  rw [Finset.union_right_comm, h]
  ext k
  simp only [SequenceDiff.unmatched, Finset.mem_union, Finset.mem_sdiff, Finset.mem_range,
    List.mem_toFinset]
  constructor
  · rintro (⟨hlt,hnot⟩ | ⟨hin,hnot⟩)
    · exact ⟨hlt, fun hq => hnot (hQ k hq)⟩
    · exact ⟨hP k hin, hnot⟩
  · rintro ⟨hlt,hnot⟩
    by_cases hin : k ∈ P
    · exact Or.inr ⟨hin, hnot⟩
    · exact Or.inl ⟨hlt, hin⟩

theorem Shared.prev_lt {rows gone fresh : List RowInfo}
    (h : Shared b prevRows nextRows rows gone fresh) :
    ∀ i ∈ rows.map RowInfo.prev, i < prevRows.length := by
  intro i hi
  obtain ⟨row,hrow,rfl⟩ := List.mem_map.mp hi
  exact (List.getElem?_eq_some_iff.mp (h.old_row row hrow)).1

theorem Shared.place_lt {rows gone fresh : List RowInfo}
    (h : Shared b prevRows nextRows rows gone fresh) :
    ∀ j ∈ rows.map RowInfo.tvIndex, j < nextRows.length := by
  intro j hj
  obtain ⟨row,hrow,rfl⟩ := List.mem_map.mp hj
  exact (List.getElem?_eq_some_iff.mp (h.new_row row hrow)).1

/-- The change set before the moves are looked for. -/
def startOf (b : Build) (sorts : Sorts) (prevRows : List (Option ℕ)) (s : Paired)
    (rowDidChange : ℕ → Bool) : CollectionChangeBuilder where
  deletions := (collectOld b prevRows 0 0 {}).1
  insertions := s.insertions
  modifications := ((keptRows sorts s.newRows).filter
    (fun row => rowDidChange row.rowIndex)).foldl (fun set row => set.add b row.tvIndex) {}

def walked (b : Build) (sorts : Sorts) (prevRows : List (Option ℕ)) (nextRows : List ℕ) :
    Paired :=
  pairRows b (sorts.byRow.sort (collectOld b prevRows 0 0 {}).2)
    (sorts.byRow.sort (collectNew nextRows)) {} {}

theorem walked_pairing (sorts : Sorts) : ∃ gone, Pairing b
    (sorts.byRow.sort (collectOld b prevRows 0 0 {}).2) (sorts.byRow.sort (collectNew nextRows))
    gone ∅ ∅ (walked b sorts prevRows nextRows) := by
  obtain ⟨_,_,hinfo⟩ := collectOld_start b prevRows
  apply pairRows_pairing _ _ IndexSet.represents_empty IndexSet.represents_empty
    (sorted_byRow sorts _) (sorted_byRow sorts _)
  · exact fun row hrow => (hinfo row ((sorts.byRow.perm _).subset hrow)).1
  · intro row hrow
    obtain ⟨i,hi,rfl⟩ := List.mem_mapIdx.mp ((sorts.byRow.perm _).subset hrow)
    rfl

/-- What the calculation starts from. -/
structure Started (b : Build) (prevRows : List (Option ℕ)) (nextRows : List ℕ)
    (rowDidChange : ℕ → Bool) (rows gone fresh : List RowInfo) (c : CollectionChangeBuilder)
    (removed : IndexSet) : Prop where
  shared : Shared b prevRows nextRows rows gone fresh
  deletions : IndexSet.Represents b c.deletions (missing prevRows 0).toFinset
  insertions : IndexSet.Represents b c.insertions
    (SequenceDiff.unmatched nextRows.length (rows.map RowInfo.tvIndex))
  modifications : IndexSet.Represents b c.modifications
    (changedPlaces rowDidChange rows).toFinset
  removed : IndexSet.Represents b removed (gone.map RowInfo.tvIndex).toFinset
  moves_eq : c.moves = []
  columns_eq : c.columns = []

theorem calculate_started (b : Build) (sorts : Sorts) (prevRows : List (Option ℕ))
    (nextRows : List ℕ) (rowDidChange : ℕ → Bool) : ∃ gone fresh,
      Started b prevRows nextRows rowDidChange
        (keptRows sorts (walked b sorts prevRows nextRows).newRows) gone fresh
        (startOf b sorts prevRows (walked b sorts prevRows nextRows) rowDidChange)
        (walked b sorts prevRows nextRows).removed := by
  obtain ⟨gone,h⟩ := walked_pairing (b := b) sorts
  have hshared := pairing_shared sorts h
  obtain ⟨hdel,_⟩ := collectOld_start b prevRows
  refine ⟨gone, _, hshared, hdel, ?_, ?_, ?_, rfl, rfl⟩
  · rw [← hshared.new]
    have hins := h.insertions
    rwa [Finset.empty_union] at hins
  · have hmod := addEach_represents (b := b) IndexSet.represents_empty RowInfo.tvIndex
      ((keptRows sorts (walked b sorts prevRows nextRows).newRows).filter
        (fun row => rowDidChange row.rowIndex))
    rwa [Finset.empty_union] at hmod
  · have hrem := h.removed
    rwa [Finset.empty_union] at hrem

/-- When no rows are named that may have moved, the calculation is right about any two
results. -/
theorem calculate_sorted (b : Build) (sorts : Sorts) (prevRows : List (Option ℕ))
    (nextRows : List ℕ) (rowDidChange : ℕ → Bool) :
    Calculated b prevRows nextRows rowDidChange
      (calculate b sorts prevRows nextRows rowDidChange none) ∧
    (calculate b sorts prevRows nextRows rowDidChange none).moves = [] := by
  obtain ⟨gone,fresh,h⟩ := calculate_started b sorts prevRows nextRows rowDidChange
  obtain ⟨pairs,hp⟩ := calculateMovesSorted_realigned sorts h.shared h.deletions.verified
    h.insertions.verified
  have hval : calculate b sorts prevRows nextRows rowDidChange none =
      { calculateMovesSorted b sorts (keptRows sorts (walked b sorts prevRows nextRows).newRows)
          (startOf b sorts prevRows (walked b sorts prevRows nextRows) rowDidChange) with
        deletions := (calculateMovesSorted b sorts
          (keptRows sorts (walked b sorts prevRows nextRows).newRows)
          (startOf b sorts prevRows (walked b sorts prevRows nextRows)
            rowDidChange)).deletions.addAll b (walked b sorts prevRows nextRows).removed } := rfl
  have hmoves : (calculate b sorts prevRows nextRows rowDidChange none).moves = [] := by
    rw [hval]
    exact hp.moves_eq.trans h.moves_eq
  refine ⟨?_, hmoves⟩
  apply calculated_of_pairs _ h.shared hp.sorted hp.same hp.new_mem
  · have hdel := IndexSet.addAll_represents hp.deletions h.removed
    rw [deleted, h.deletions.indices_eq, unmatched_union h.shared.old h.shared.prev_lt] at hdel
    · rw [hval]
      exact hdel
    · intro i hi
      obtain ⟨p,hpp,rfl⟩ := List.mem_map.mp hi
      exact hp.old_mem p hpp
  · have hins := hp.insertions
    rw [added, h.insertions.indices_eq] at hins
    have hunion := unmatched_union (A := SequenceDiff.unmatched nextRows.length
      ((keptRows sorts (walked b sorts prevRows nextRows).newRows).map RowInfo.tvIndex))
      (G := ∅) (Q := pairs.map Prod.snd) (Finset.union_empty _) h.shared.place_lt (by
        intro j hj
        obtain ⟨p,hpp,rfl⟩ := List.mem_map.mp hj
        exact hp.new_mem p hpp)
    rw [Finset.union_empty] at hunion
    rw [hunion] at hins
    rw [hval]
    exact hins
  · rw [hval]
    change IndexSet.Represents b (calculateMovesSorted b sorts _ _).modifications _
    rw [hp.modifications_eq]
    exact h.modifications
  · rw [hval]
    exact hp.columns_eq.trans h.columns_eq
  · rw [hmoves]
    simp
  · rw [hmoves]
    exact List.nodup_nil
  · rw [hmoves]
    exact List.nodup_nil

/-- The check of debug builds: the change set applied to the old rows. -/
def applied (c : CollectionChangeBuilder) (prevRows nextRows : List (Option ℕ)) :
    List (Option ℕ) :=
  SequenceDiff.insertItems c.insertions.asIndexes nextRows
    (SequenceDiff.eraseRanges c.deletions.ranges prevRows)

theorem Calculated.applied_eq {rowDidChange : ℕ → Bool} {c : CollectionChangeBuilder}
    (h : Calculated b prevRows nextRows rowDidChange c) :
    applied c prevRows (nextRows.map some) = nextRows.map some := by
  have hD := represents_self h.wellFormed.deletions
  have hI := represents_self h.wellFormed.insertions
  have hI' : c.insertions.asIndexes.toFinset = c.added := IndexSet.toFinset_asIndexes hI
  obtain ⟨_,hget⟩ := SequenceDiff.Transforms.patch (M := ∅)
    (hI'.symm ▸ h.describes.transforms) (hI'.symm ▸ h.describes.fits) hD.separated
    hI.asIndexes_sorted
  apply List.ext_getElem?
  exact fun j => hget j (Finset.notMem_empty j)

/-! Rows that keep their order -/

/-- A row that is once in each of the results is found in both. -/
theorem Shared.common {rows gone fresh : List RowInfo}
    (h : Shared b prevRows nextRows rows gone fresh)
    (hprev : ∀ (i j row : ℕ), prevRows[i]? = some (some row) → prevRows[j]? = some (some row) →
      i = j) (hnext : nextRows.Nodup) {i j row : ℕ} (hi : prevRows[i]? = some (some row))
    (hj : nextRows[j]? = some row) : ∃ info ∈ rows, info.prev = i ∧ info.tvIndex = j := by
  have hlt := (List.getElem?_eq_some_iff.mp hi).1
  have hlt' := (List.getElem?_eq_some_iff.mp hj).1
  by_cases hin : i ∈ rows.map RowInfo.prev
  · obtain ⟨info,hinfo,rfl⟩ := List.mem_map.mp hin
    have hrow := h.old_row info hinfo
    rw [hi] at hrow
    have hplace := h.new_row info hinfo
    rw [← Option.some.inj (Option.some.inj hrow)] at hplace
    obtain ⟨hlt'',_⟩ := List.getElem?_eq_some_iff.mp hplace
    exact ⟨info, hinfo, rfl, (List.getElem?_inj hlt'' hnext).mp (hplace.trans hj.symm)⟩
  by_cases hin' : j ∈ rows.map RowInfo.tvIndex
  · obtain ⟨info,hinfo,rfl⟩ := List.mem_map.mp hin'
    have hrow := h.new_row info hinfo
    rw [hj] at hrow
    have hplace := h.old_row info hinfo
    rw [← Option.some.inj hrow] at hplace
    exact ⟨info, hinfo, hprev _ _ _ hplace hi, rfl⟩
  -- a row that is gone is not one that is fresh
  exfalso
  have hold : i ∈ (missing prevRows 0).toFinset ∪ (gone.map RowInfo.tvIndex).toFinset := by
    rw [h.old, SequenceDiff.unmatched, Finset.mem_sdiff, Finset.mem_range, List.mem_toFinset]
    exact ⟨hlt, hin⟩
  have hnew : j ∈ (fresh.map RowInfo.tvIndex).toFinset := by
    rw [h.new, SequenceDiff.unmatched, Finset.mem_sdiff, Finset.mem_range, List.mem_toFinset]
    exact ⟨hlt', hin'⟩
  rw [Finset.mem_union, List.mem_toFinset, mem_missing, hi, List.mem_toFinset] at hold
  obtain ⟨x,hx,rfl⟩ := List.mem_map.mp (List.mem_toFinset.mp hnew)
  rcases hold with hnone | hgone
  · exact absurd (Option.some.inj hnone) (by simp)
  · obtain ⟨y,hy,rfl⟩ := List.mem_map.mp hgone
    have hxrow := h.fresh_row x hx
    have hyrow := h.gone_row y hy
    rw [hj] at hxrow
    rw [hi] at hyrow
    apply h.apart x hx y hy
    rw [← Option.some.inj hxrow, ← Option.some.inj (Option.some.inj hyrow)]

/-- No row is deleted and put in again when the rows of both results are in the same order
in both. -/
theorem firstDifference_inOrder {rows gone fresh : List RowInfo} {old : List Row}
    (h : Shared b prevRows nextRows rows gone fresh) (hold : OldRows rows old)
    (hprev : ∀ (i j row : ℕ), prevRows[i]? = some (some row) → prevRows[j]? = some (some row) →
      i = j) (hnext : nextRows.Nodup)
    (horder : prevRows.filter (fun row => row ∈ nextRows.map some) =
      (nextRows.map some).filter (fun row => row ∈ prevRows)) :
    firstDifference old rows = none := by
  have hleft : old.map (fun x => some x.rowIndex) =
      prevRows.filter (fun row => row ∈ nextRows.map some) := by
    apply SequenceDiff.map_places hold.sorted
    · intro x hx
      obtain ⟨info,hinfo,rfl⟩ := List.mem_map.mp (hold.perm.subset hx)
      refine ⟨h.old_row info hinfo, decide_eq_true ?_⟩
      exact List.mem_map_of_mem (List.mem_of_getElem? (h.new_row info hinfo))
    · intro i y hy hp
      obtain ⟨row,hrow,rfl⟩ := List.mem_map.mp (of_decide_eq_true hp)
      obtain ⟨j,hj⟩ := List.mem_iff_getElem?.mp hrow
      obtain ⟨info,hinfo,hi,_⟩ := h.common hprev hnext hy hj
      exact ⟨_, hold.perm.symm.subset (List.mem_map_of_mem hinfo), hi⟩
  have hright : rows.map (fun x => some x.rowIndex) =
      (nextRows.map some).filter (fun row => row ∈ prevRows) := by
    apply SequenceDiff.map_places h.sorted
    · intro x hx
      refine ⟨?_, decide_eq_true (List.mem_of_getElem? (h.old_row x hx))⟩
      rw [List.getElem?_map, h.new_row x hx]
      rfl
    · intro j y hy hp
      rw [List.getElem?_map] at hy
      obtain ⟨row,hj,rfl⟩ := Option.map_eq_some_iff.mp hy
      obtain ⟨i,hi⟩ := List.mem_iff_getElem?.mp (of_decide_eq_true hp)
      obtain ⟨info,hinfo,_,hplace⟩ := h.common hprev hnext hi hj
      exact ⟨info, hinfo, hplace⟩
  rw [firstDifference, List.findIdx?_eq_none_iff]
  rintro ⟨x,y⟩ hxy
  obtain ⟨k,hk⟩ := List.mem_iff_getElem?.mp hxy
  obtain ⟨hx,hy⟩ := List.getElem?_zip_eq_some.mp hk
  have hsame := congrArg (fun l => l[k]?) (hleft.trans (horder.trans hright.symm))
  simp only [List.getElem?_map] at hsame
  rw [hx, hy] at hsame
  have hrow : x.rowIndex = y.rowIndex :=
    Option.some.inj (Option.some.inj hsame)
  simpa using hrow

/-- Then exactly the rows are deleted that are not in the new results, and exactly those
inserted that were not in the old ones. -/
theorem calculate_inOrder (b : Build) (sorts : Sorts) (rowDidChange : ℕ → Bool)
    (hprev : ∀ (i j row : ℕ), prevRows[i]? = some (some row) → prevRows[j]? = some (some row) →
      i = j) (hnext : nextRows.Nodup)
    (horder : prevRows.filter (fun row => row ∈ nextRows.map some) =
      (nextRows.map some).filter (fun row => row ∈ prevRows)) :
    (∀ i row, prevRows[i]? = some row →
      (i ∈ (calculate b sorts prevRows nextRows rowDidChange none).deleted ↔
        row ∉ nextRows.map some)) ∧
    (∀ j row, nextRows[j]? = some row →
      (j ∈ (calculate b sorts prevRows nextRows rowDidChange none).added ↔
        some row ∉ prevRows)) := by
  obtain ⟨gone,fresh,h⟩ := calculate_started b sorts prevRows nextRows rowDidChange
  have hdiff := firstDifference_inOrder h.shared (oldRows_sorted sorts h.shared.prev_nodup)
    hprev hnext horder
  have hmoves : calculateMovesSorted b sorts
      (keptRows sorts (walked b sorts prevRows nextRows).newRows)
      (startOf b sorts prevRows (walked b sorts prevRows nextRows) rowDidChange) =
        startOf b sorts prevRows (walked b sorts prevRows nextRows) rowDidChange := by
    rw [calculateMovesSorted]
    simp only [hdiff]
  have hval : calculate b sorts prevRows nextRows rowDidChange none =
      { calculateMovesSorted b sorts (keptRows sorts (walked b sorts prevRows nextRows).newRows)
          (startOf b sorts prevRows (walked b sorts prevRows nextRows) rowDidChange) with
        deletions := (calculateMovesSorted b sorts
          (keptRows sorts (walked b sorts prevRows nextRows).newRows)
          (startOf b sorts prevRows (walked b sorts prevRows nextRows)
            rowDidChange)).deletions.addAll b (walked b sorts prevRows nextRows).removed } := rfl
  rw [hmoves] at hval
  have hdeleted : (calculate b sorts prevRows nextRows rowDidChange none).deleted =
      SequenceDiff.unmatched prevRows.length ((keptRows sorts
        (walked b sorts prevRows nextRows).newRows).map RowInfo.prev) := by
    rw [hval, ← h.shared.old]
    exact (IndexSet.addAll_represents h.deletions h.removed).indices_eq
  have hadded : (calculate b sorts prevRows nextRows rowDidChange none).added =
      SequenceDiff.unmatched nextRows.length ((keptRows sorts
        (walked b sorts prevRows nextRows).newRows).map RowInfo.tvIndex) := by
    rw [hval]
    exact h.insertions.indices_eq
  generalize keptRows sorts (walked b sorts prevRows nextRows).newRows = rows
    at h hdeleted hadded
  constructor
  · intro i row hi
    have hlt := (List.getElem?_eq_some_iff.mp hi).1
    rw [hdeleted, SequenceDiff.unmatched, Finset.mem_sdiff, Finset.mem_range,
      List.mem_toFinset, and_iff_right hlt, not_iff_not]
    constructor
    · intro hin
      obtain ⟨info,hinfo,rfl⟩ := List.mem_map.mp hin
      have hrow := h.shared.old_row info hinfo
      rw [hi] at hrow
      rw [Option.some.inj hrow]
      exact List.mem_map_of_mem (List.mem_of_getElem? (h.shared.new_row info hinfo))
    · intro hin
      obtain ⟨r,hr,rfl⟩ := List.mem_map.mp hin
      obtain ⟨j,hj⟩ := List.mem_iff_getElem?.mp hr
      obtain ⟨info,hinfo,rfl,_⟩ := h.shared.common hprev hnext hi hj
      exact List.mem_map_of_mem hinfo
  · intro j row hj
    have hlt := (List.getElem?_eq_some_iff.mp hj).1
    rw [hadded, SequenceDiff.unmatched, Finset.mem_sdiff, Finset.mem_range,
      List.mem_toFinset, and_iff_right hlt, not_iff_not]
    constructor
    · intro hin
      obtain ⟨info,hinfo,rfl⟩ := List.mem_map.mp hin
      have hrow := h.shared.new_row info hinfo
      rw [hj] at hrow
      rw [Option.some.inj hrow]
      exact List.mem_of_getElem? (h.shared.old_row info hinfo)
    · intro hin
      obtain ⟨i,hi⟩ := List.mem_iff_getElem?.mp hin
      obtain ⟨info,hinfo,_,rfl⟩ := h.shared.common hprev hnext hi hj
      exact List.mem_map_of_mem hinfo

end CollectionChangeBuilder

end ObjectStore
