import CurrencyConverter.ObjectStore.CollectionChangeBuilder

/-! Blocks of rows that two versions of a result have in common, the longest one first. -/
namespace ObjectStore

open CollectionChangeBuilder (npos)

namespace LongestCommonSubsequenceCalculator

/-- A row of the table and its place in the results. -/
structure Row where
  rowIndex : ℕ
  tvIndex : ℕ
  deriving DecidableEq, Repr

/-- `size` rows from `i` on in the old results and from `j` on in the new ones. The number of
modified rows among them is only counted when two blocks are equally long. -/
structure Match where
  i : ℕ
  j : ℕ
  size : ℕ
  modified : Option ℕ
  deriving DecidableEq, Repr

/-- The length of the block that ends at `j` in the new results. -/
structure Length where
  j : ℕ
  len : ℕ
  deriving DecidableEq, Repr

variable (b : Build) (modified : IndexSet) (old new : List Row)

/-- One more than the block that ends right before, if there is one. -/
def length (prev : List Length) (j : ℕ) : ℕ :=
  match prev.find? (fun pair => pair.j+1 = j) with
  | some pair => pair.len+1
  | none => 1

/-- The places at which a row appears in the new results, which are sorted by row here. -/
def matchesOf (rowIndex begin2 end2 : ℕ) : List ℕ :=
  let found := (new.dropWhile (fun row => row.rowIndex < rowIndex)).takeWhile
    (fun row => row.rowIndex = rowIndex)
  ((found.map Row.tvIndex).takeWhile (fun j => j < begin2 ∨ j < end2)).filter
    (fun j => ¬ j < begin2)

/-- The first place of a block of the length `size` that starts at `best`, counted back from
its own start: below zero the counter starts over at its largest value. -/
def countedFrom (best size : ℕ) : ℕ :=
  if size ≤ best+1 then best+1-size else best+1+(npos b+1)-size

/-- Takes the block that ends at `i` and `j` if it is longer than the best one, or as long
with fewer modified rows. -/
def consider (i : ℕ) (best : Match) (pair : Length) : Match :=
  let j := pair.j
  let size := pair.len
  if size > best.size then ⟨i+1-size, j+1-size, size, none⟩
  else if size = best.size then
    let bestModified :=
      best.modified.getD (modified.count (countedFrom b best.j size) (best.j+1))
    let count := modified.count (j+1-size) (j+1)
    if count < bestModified then ⟨i+1-size, j+1-size, size, some count⟩
    else { best with modified := some bestModified }
  else best

/-- The lengths for the next row of the old results, and the best block up to there. -/
def nextRow (begin2 end2 : ℕ) (s : List Length × Match) (i : ℕ) : List Length × Match :=
  let found := old[i]?.elim [] (fun row => matchesOf new row.rowIndex begin2 end2)
  let cur := found.map (fun j => ⟨j, length s.1 j⟩)
  (cur, cur.foldl (consider b modified i) s.2)

def findLongestMatch (begin1 end1 begin2 end2 : ℕ) : Match :=
  ((List.range' begin1 (end1-begin1)).foldl (nextRow b modified old new begin2 end2)
    ([], ⟨begin1, begin2, 0, some 0⟩)).2

variable {b modified old new} {begin1 end1 begin2 end2 i j n : ℕ} {best : Match} {pair : Length}

/-- The result of a comparison is one of the two blocks. -/
theorem consider_cases : let m := consider b modified i best pair
    (m.i = best.i ∧ m.j = best.j ∧ m.size = best.size ∧ pair.len ≤ best.size) ∨
    (m.i = i+1-pair.len ∧ m.j = pair.j+1-pair.len ∧ m.size = pair.len ∧
      best.size ≤ pair.len) := by
  simp only [consider]
  by_cases hgt : pair.len > best.size
  · rw [if_pos hgt]
    exact Or.inr ⟨rfl, rfl, rfl, Nat.le_of_lt hgt⟩
  rw [if_neg hgt]
  by_cases heq : pair.len = best.size
  · rw [if_pos heq]
    split_ifs
    · exact Or.inr ⟨rfl, rfl, rfl, Nat.le_of_eq heq.symm⟩
    · exact Or.inl ⟨rfl, rfl, rfl, Nat.le_of_eq heq⟩
  · rw [if_neg heq]
    exact Or.inl ⟨rfl, rfl, rfl, Nat.le_of_not_lt hgt⟩

/-- The blocks that a row continues lie behind the row at which the search begins. -/
structure Bounded (begin1 i : ℕ) (s : List Length × Match) : Prop where
  lengths : ∀ pair ∈ s.1, begin1+pair.len ≤ i
  first : begin1 ≤ s.2.i
  last : s.2.i+s.2.size ≤ i

theorem length_le {prev : List Length} (h : ∀ pair ∈ prev, begin1+pair.len ≤ i)
    (hi : begin1 ≤ i) (j : ℕ) : begin1+length prev j ≤ i+1 := by
  rw [length]
  cases hfind : prev.find? (fun pair => pair.j+1 = j) with
  | none => exact Nat.succ_le_succ hi
  | some pair =>
    have := h pair (List.mem_of_find?_eq_some hfind)
    change begin1+(pair.len+1) ≤ i+1
    omega

theorem bounded_consider (pairs : List Length) (hfirst : begin1 ≤ best.i)
    (hlast : best.i+best.size ≤ i+1) (h : ∀ pair ∈ pairs, begin1+pair.len ≤ i+1) :
    begin1 ≤ (pairs.foldl (consider b modified i) best).i ∧
      (pairs.foldl (consider b modified i) best).i+
        (pairs.foldl (consider b modified i) best).size ≤ i+1 := by
  induction pairs generalizing best with
  | nil => exact ⟨hfirst, hlast⟩
  | cons pair pairs ih =>
    have hpair := h pair List.mem_cons_self
    apply ih _ _ (fun p hp => h p (List.mem_cons_of_mem _ hp))
    · rcases consider_cases with ⟨hi,_,_,_⟩ | ⟨hi,_,_,_⟩
      · rw [hi]
        exact hfirst
      · rw [hi]
        omega
    · rcases consider_cases with ⟨hi,_,hsize,_⟩ | ⟨hi,_,hsize,_⟩
      · rw [hi, hsize]
        exact hlast
      · rw [hi, hsize]
        omega

theorem Bounded.nextRow {s : List Length × Match} (h : Bounded begin1 i s) (hi : begin1 ≤ i) :
    Bounded begin1 (i+1) (nextRow b modified old new begin2 end2 s i) := by
  have hcur : ∀ pair ∈ (LongestCommonSubsequenceCalculator.nextRow b modified old new begin2 end2
      s i).1, begin1+pair.len ≤ i+1 := by
    intro pair hp
    obtain ⟨j,_,rfl⟩ := List.mem_map.mp hp
    exact length_le h.lengths hi j
  obtain ⟨hfirst,hlast⟩ := bounded_consider _ h.first
    (Nat.le_succ_of_le h.last) hcur
  exact ⟨hcur, hfirst, hlast⟩

theorem Bounded.rows {s : List Length × Match} (h : Bounded begin1 i s) (hi : begin1 ≤ i)
    (count : ℕ) : Bounded begin1 (i+count)
      ((List.range' i count).foldl (LongestCommonSubsequenceCalculator.nextRow b modified old new
        begin2 end2) s) := by
  induction count generalizing i s with
  | zero => exact h
  | succ count ih =>
    rw [List.range'_succ, List.foldl_cons, ← Nat.add_assoc, Nat.add_right_comm]
    exact ih (h.nextRow hi) (Nat.le_succ_of_le hi)

/-- The best block lies within the old rows that are searched. -/
theorem findLongestMatch_bounded (h : begin1 ≤ end1) :
    begin1 ≤ (findLongestMatch b modified old new begin1 end1 begin2 end2).i ∧
      (findLongestMatch b modified old new begin1 end1 begin2 end2).i+
        (findLongestMatch b modified old new begin1 end1 begin2 end2).size ≤ end1 := by
  have hstart : Bounded begin1 begin1 (([], ⟨begin1, begin2, 0, some 0⟩) : List Length × Match) :=
    ⟨by simp, Nat.le_refl _, Nat.le_refl _⟩
  have hrows : Bounded begin1 (begin1+(end1-begin1))
      ((List.range' begin1 (end1-begin1)).foldl (nextRow b modified old new begin2 end2)
        ([], ⟨begin1, begin2, 0, some 0⟩)) := hstart.rows (Nat.le_refl _) _
  rw [Nat.add_sub_cancel' h] at hrows
  exact ⟨hrows.first, hrows.last⟩

theorem findLongestMatch_empty (h : ¬ begin1 < end1) :
    findLongestMatch b modified old new begin1 end1 begin2 end2 = ⟨begin1, begin2, 0, some 0⟩ := by
  rw [findLongestMatch, Nat.sub_eq_zero_of_le (Nat.le_of_not_lt h)]
  rfl

variable (b modified old new)

/-- The blocks before the longest one, the longest one and the blocks behind it. The rows
behind it are left alone when it reaches the end of the new results on either side. -/
def findLongestMatches (begin1 end1 begin2 end2 : ℕ) : List Match :=
  let m := findLongestMatch b modified old new begin1 end1 begin2 end2
  if m.size = 0 then []
  else
    (if m.i > begin1 ∧ m.j > begin2 then findLongestMatches begin1 m.i begin2 m.j else []) ++
      m :: if m.i+m.size < end2 ∧ m.j+m.size < end2 then
        findLongestMatches (m.i+m.size) end1 (m.j+m.size) end2 else []
termination_by end1-begin1
decreasing_by
  all_goals
    rename_i hsize _
    have hlt : begin1 < end1 := by
      by_contra hnot
      have hempty : m = _ := findLongestMatch_empty hnot
      exact hsize (by rw [hempty])
    have hbound := @findLongestMatch_bounded b modified old new _ _ begin2 end2 (Nat.le_of_lt hlt)
    have hpos : (findLongestMatch b modified old new begin1 end1 begin2 end2).size ≠ 0 := hsize
    omega

/-- The last match is empty and stands at the end of both results. -/
def longestMatches (startIndex : ℕ) : List Match :=
  findLongestMatches b modified old new startIndex old.length startIndex new.length ++
    [⟨old.length, new.length, 0, some 0⟩]

/-! The longest block -/

theorem takeWhile_eq_filter {α : Type*} {p : α → Bool} {l : List α}
    (h : l.Pairwise (fun x y => p y = true → p x = true)) : l.takeWhile p = l.filter p := by
  induction l with
  | nil => rfl
  | cons x l ih =>
    obtain ⟨hx,hl⟩ := List.pairwise_cons.mp h
    by_cases hp : p x = true
    · rw [List.takeWhile_cons_of_pos hp, List.filter_cons_of_pos hp, ih hl]
    · rw [List.takeWhile_cons_of_neg hp, List.filter_cons_of_neg hp]
      symm
      rw [List.filter_eq_nil_iff]
      exact fun y hy hpy => hp (hx y hy hpy)

theorem dropWhile_eq_filter {α : Type*} {p : α → Bool} {l : List α}
    (h : l.Pairwise (fun x y => p y = true → p x = true)) :
    l.dropWhile p = l.filter (fun x => !p x) := by
  induction l with
  | nil => rfl
  | cons x l ih =>
    obtain ⟨hx,hl⟩ := List.pairwise_cons.mp h
    by_cases hp : p x = true
    · rw [List.dropWhile_cons_of_pos hp, List.filter_cons_of_neg (by simp [hp]), ih hl]
    · have hall : ∀ y ∈ x :: l, (!p y) = true := by
        intro y hy
        rcases List.mem_cons.mp hy with rfl | hy
        · simpa using hp
        · have hne : p y ≠ true := fun hpy => hp (hx y hy hpy)
          simpa using hne
      rw [List.dropWhile_cons_of_neg hp, List.filter_eq_self.mpr hall]

/-- The new results, sorted by the rows' positions in the table. -/
structure Indexed (new : List Row) (rows : List ℕ) : Prop where
  sorted : new.Pairwise (fun x y => x.rowIndex < y.rowIndex ∨
    x.rowIndex = y.rowIndex ∧ x.tvIndex < y.tvIndex)
  mem : ∀ row, row ∈ new ↔ rows[row.tvIndex]? = some row.rowIndex

variable {b modified old new} {rows : List ℕ} {rowIndex : ℕ}

theorem matchesOf_eq (h : Indexed new rows) : matchesOf new rowIndex begin2 end2 =
    (((new.filter (fun row => row.rowIndex = rowIndex)).map Row.tvIndex).filter
      (fun j => j < begin2 ∨ j < end2)).filter (fun j => ¬ j < begin2) := by
  have hfound : (new.dropWhile (fun row => row.rowIndex < rowIndex)).takeWhile
      (fun row => row.rowIndex = rowIndex) = new.filter (fun row => row.rowIndex = rowIndex) := by
    rw [dropWhile_eq_filter, takeWhile_eq_filter, List.filter_filter]
    · apply List.filter_congr
      intro row _
      rw [Bool.eq_iff_iff]
      simp only [Bool.and_eq_true, Bool.not_eq_true', decide_eq_true_iff, decide_eq_false_iff_not]
      omega
    · rw [List.pairwise_filter]
      refine h.sorted.imp ?_
      intro x y hxy hx hy
      simp only [Bool.not_eq_true', decide_eq_false_iff_not, decide_eq_true_iff] at hx hy ⊢
      omega
    · refine h.sorted.imp ?_
      intro x y hxy
      simp only [decide_eq_true_iff]
      omega
  rw [matchesOf]
  simp only [hfound]
  rw [takeWhile_eq_filter]
  rw [List.pairwise_map, List.pairwise_filter]
  refine h.sorted.imp ?_
  intro x y hxy hx hy
  simp only [decide_eq_true_iff] at hx hy ⊢
  omega

theorem mem_matchesOf (h : Indexed new rows) {j : ℕ} :
    j ∈ matchesOf new rowIndex begin2 end2 ↔
      begin2 ≤ j ∧ j < end2 ∧ rows[j]? = some rowIndex := by
  rw [matchesOf_eq h, List.mem_filter, List.mem_filter, List.mem_map]
  simp only [decide_eq_true_iff]
  constructor
  · rintro ⟨⟨⟨row,hrow,rfl⟩,hlt⟩,hge⟩
    obtain ⟨hmem,hindex⟩ := List.mem_filter.mp hrow
    refine ⟨by omega, by omega, ?_⟩
    rw [(h.mem row).mp hmem, of_decide_eq_true hindex]
  · rintro ⟨hge,hlt,hrow⟩
    refine ⟨⟨⟨⟨rowIndex,j⟩, List.mem_filter.mpr ⟨(h.mem _).mpr hrow, by simp⟩, rfl⟩,
      Or.inr hlt⟩, by omega⟩

theorem nodup_matchesOf (h : Indexed new rows) :
    (matchesOf new rowIndex begin2 end2).Nodup := by
  rw [matchesOf_eq h]
  apply List.Nodup.filter
  apply List.Nodup.filter
  rw [List.Nodup, List.pairwise_map, List.pairwise_filter]
  refine h.sorted.imp ?_
  intro x y hxy hx hy he
  have hx := of_decide_eq_true hx
  have hy := of_decide_eq_true hy
  omega

/-- A block of the same rows on both sides, within the bounds of a search. -/
structure Block (old : List Row) (rows : List ℕ) (begin1 end1 begin2 end2 i j size : ℕ) :
    Prop where
  old_first : begin1 ≤ i
  old_last : i+size ≤ end1
  new_first : begin2 ≤ j
  new_last : j+size ≤ end2
  same : ∀ k, k < size → ∃ row, old[i+k]? = some row ∧ rows[j+k]? = some row.rowIndex

theorem Block.widen {end1' : ℕ} (h : Block old rows begin1 end1 begin2 end2 i j n)
    (hle : end1 ≤ end1') : Block old rows begin1 end1' begin2 end2 i j n :=
  { h with old_last := h.old_last.trans hle }

/-- The lengths of all blocks that end right before the row `i`. -/
structure Continues (old : List Row) (rows : List ℕ) (begin1 begin2 end2 i : ℕ)
    (prev : List Length) : Prop where
  nodup : (prev.map Length.j).Nodup
  sound : ∀ pair ∈ prev, ∃ p q, p+pair.len = i ∧ q+pair.len = pair.j+1 ∧
    Block old rows begin1 i begin2 end2 p q pair.len
  complete : ∀ p q n, 0 < n → p+n = i → Block old rows begin1 i begin2 end2 p q n →
    ∃ pair ∈ prev, pair.j+1 = q+n ∧ n ≤ pair.len

/-- A block no shorter than any other one that ends before the row `i`. -/
structure Longest (old : List Row) (rows : List ℕ) (begin1 i begin2 end2 : ℕ) (best : Match) :
    Prop where
  block : Block old rows begin1 i begin2 end2 best.i best.j best.size
  longest : ∀ p q n, Block old rows begin1 i begin2 end2 p q n → n ≤ best.size

theorem length_cases (prev : List Length) (j : ℕ) :
    (∃ pair ∈ prev, pair.j+1 = j ∧ length prev j = pair.len+1) ∨
      ((∀ pair ∈ prev, pair.j+1 ≠ j) ∧ length prev j = 1) := by
  rw [length]
  cases hfind : prev.find? (fun pair => pair.j+1 = j) with
  | none =>
    refine Or.inr ⟨?_, rfl⟩
    intro pair hp he
    exact List.find?_eq_none.mp hfind pair hp (decide_eq_true he)
  | some pair =>
    refine Or.inl ⟨pair, List.mem_of_find?_eq_some hfind, ?_, rfl⟩
    have hfound := List.find?_some hfind
    exact of_decide_eq_true hfound

/-- The block that ends at the row `i` and at `j`, as long as it can be. -/
theorem length_spec {prev : List Length} {row : Row}
    (h : Continues old rows begin1 begin2 end2 i prev) (hi : begin1 ≤ i)
    (hrow : old[i]? = some row) (hj : begin2 ≤ j) (hlt : j < end2)
    (hsame : rows[j]? = some row.rowIndex) :
    (∃ p q, p+length prev j = i+1 ∧ q+length prev j = j+1 ∧
      Block old rows begin1 (i+1) begin2 end2 p q (length prev j)) ∧
    ∀ p q n, p+n = i+1 → q+n = j+1 → Block old rows begin1 (i+1) begin2 end2 p q n →
      n ≤ length prev j := by
  rcases length_cases prev j with ⟨pair,hp,hpair,hlen⟩ | ⟨hnone,hlen⟩
  · obtain ⟨p,q,hpi,hqj,hblock⟩ := h.sound pair hp
    rw [hlen]
    constructor
    · refine ⟨p, q, by omega, by omega, ?_⟩
      refine ⟨hblock.old_first, by omega, hblock.new_first, by omega, ?_⟩
      intro k hk
      by_cases hlast : k = pair.len
      · rw [hlast, hpi, hqj, hpair]
        exact ⟨row, hrow, hsame⟩
      · exact hblock.same k (by omega)
    · intro p' q' n hpn hqn hblock'
      by_contra hlong
      have hshort : Block old rows begin1 i begin2 end2 p' q' (n-1) :=
        ⟨hblock'.old_first, by omega, hblock'.new_first, by omega,
          fun k hk => hblock'.same k (by omega)⟩
      obtain ⟨pair',hp',he,hle⟩ := h.complete p' q' (n-1) (by omega) (by omega) hshort
      have hpp : pair' = pair := List.inj_on_of_nodup_map h.nodup hp' hp (by omega)
      rw [hpp] at hle
      omega
  · rw [hlen]
    constructor
    · refine ⟨i, j, rfl, rfl, hi, by omega, hj, by omega, ?_⟩
      intro k hk
      have hzero : k = 0 := by omega
      rw [hzero]
      exact ⟨row, hrow, hsame⟩
    · intro p' q' n hpn hqn hblock'
      by_contra hlong
      have hshort : Block old rows begin1 i begin2 end2 p' q' (n-1) :=
        ⟨hblock'.old_first, by omega, hblock'.new_first, by omega,
          fun k hk => hblock'.same k (by omega)⟩
      obtain ⟨pair',hp',he,_⟩ := h.complete p' q' (n-1) (by omega) (by omega) hshort
      exact hnone pair' hp' (by omega)

theorem consider_block {p q : ℕ}
    (hbest : Block old rows begin1 (i+1) begin2 end2 best.i best.j best.size)
    (hp : p+pair.len = i+1) (hq : q+pair.len = pair.j+1)
    (hpair : Block old rows begin1 (i+1) begin2 end2 p q pair.len) :
    let m := consider b modified i best pair
    Block old rows begin1 (i+1) begin2 end2 m.i m.j m.size ∧ best.size ≤ m.size ∧
      pair.len ≤ m.size := by
  intro m
  rcases consider_cases with ⟨hi,hj,hsize,hle⟩ | ⟨hi,hj,hsize,hle⟩
  · rw [show m.i = best.i from hi, show m.j = best.j from hj, show m.size = best.size from hsize]
    exact ⟨hbest, Nat.le_refl _, hle⟩
  · have hstart : i+1-pair.len = p := by omega
    have hstart' : pair.j+1-pair.len = q := by omega
    rw [show m.i = p from hi.trans hstart, show m.j = q from hj.trans hstart',
      show m.size = pair.len from hsize]
    exact ⟨hpair, hle, Nat.le_refl _⟩

/-- The best block after some of the blocks that end at the row `i` are looked at. -/
theorem consider_foldl (pairs : List Length)
    (hbest : Block old rows begin1 (i+1) begin2 end2 best.i best.j best.size)
    (hpairs : ∀ pair ∈ pairs, ∃ p q, p+pair.len = i+1 ∧ q+pair.len = pair.j+1 ∧
      Block old rows begin1 (i+1) begin2 end2 p q pair.len) :
    let m := pairs.foldl (consider b modified i) best
    Block old rows begin1 (i+1) begin2 end2 m.i m.j m.size ∧ best.size ≤ m.size ∧
      ∀ pair ∈ pairs, pair.len ≤ m.size := by
  induction pairs generalizing best with
  | nil => exact ⟨hbest, Nat.le_refl _, by simp⟩
  | cons pair pairs ih =>
    obtain ⟨p,q,hp,hq,hblock⟩ := hpairs pair List.mem_cons_self
    obtain ⟨hm,hbest',hpair⟩ := consider_block hbest hp hq hblock
    obtain ⟨hm',hle,hall⟩ := ih hm (fun pair' hp' => hpairs pair' (List.mem_cons_of_mem _ hp'))
    refine ⟨hm', hbest'.trans hle, ?_⟩
    intro pair' hp'
    rcases List.mem_cons.mp hp' with rfl | hp'
    · exact hpair.trans hle
    · exact hall pair' hp'

/-- One row of the old results. -/
theorem nextRow_spec {s : List Length × Match} (hnew : Indexed new rows) (hi : begin1 ≤ i)
    (h : Continues old rows begin1 begin2 end2 i s.1)
    (hbest : Longest old rows begin1 i begin2 end2 s.2) :
    Continues old rows begin1 begin2 end2 (i+1)
      (nextRow b modified old new begin2 end2 s i).1 ∧
    Longest old rows begin1 (i+1) begin2 end2
      (nextRow b modified old new begin2 end2 s i).2 := by
  have hfound (j : ℕ) :
      j ∈ (old[i]?.elim [] (fun row => matchesOf new row.rowIndex begin2 end2)) ↔
        ∃ row, old[i]? = some row ∧ begin2 ≤ j ∧ j < end2 ∧ rows[j]? = some row.rowIndex := by
    cases old[i]? with
    | none => simp
    | some row =>
      rw [Option.elim_some, mem_matchesOf hnew]
      constructor
      · exact fun hj => ⟨row, rfl, hj⟩
      · rintro ⟨row',he,hj⟩
        rwa [← Option.some.inj he] at hj
  have hnodup : (old[i]?.elim [] (fun row => matchesOf new row.rowIndex begin2 end2)).Nodup := by
    cases old[i]? with
    | none => exact List.nodup_nil
    | some row => exact nodup_matchesOf hnew
  rw [nextRow]
  generalize old[i]?.elim [] (fun row => matchesOf new row.rowIndex begin2 end2) = found
    at hfound hnodup
  have hmem (pair : Length) (hp : pair ∈ found.map (fun j => (⟨j, length s.1 j⟩ : Length))) :
      ∃ p q, p+pair.len = i+1 ∧ q+pair.len = pair.j+1 ∧
        Block old rows begin1 (i+1) begin2 end2 p q pair.len := by
    obtain ⟨j,hj,rfl⟩ := List.mem_map.mp hp
    obtain ⟨row,hrow,hge,hlt,hsame⟩ := (hfound j).mp hj
    exact (length_spec h hi hrow hge hlt hsame).1
  have hreach (p q n : ℕ) (hn : 0 < n) (hp : p+n = i+1)
      (hblock : Block old rows begin1 (i+1) begin2 end2 p q n) :
      ∃ pair ∈ found.map (fun j => (⟨j, length s.1 j⟩ : Length)),
        pair.j+1 = q+n ∧ n ≤ pair.len := by
    obtain ⟨row,hrow,hsame⟩ := hblock.same (n-1) (by omega)
    have hrow' : old[i]? = some row := by
      rw [← hrow]
      congr 1
      omega
    have hge := hblock.new_first
    have hlt := hblock.new_last
    have hj : q+(n-1) ∈ found := (hfound _).mpr ⟨row, hrow', by omega, by omega, hsame⟩
    refine ⟨_, List.mem_map_of_mem hj, show q+(n-1)+1 = q+n by omega, ?_⟩
    exact (length_spec h hi hrow' (by omega) (by omega) hsame).2 p q n hp (by omega) hblock
  obtain ⟨hm,hle,hall⟩ := consider_foldl _
    (hbest.block.widen (Nat.le_succ i)) hmem
  refine ⟨⟨?_, hmem, hreach⟩, ⟨hm, ?_⟩⟩
  · rw [List.map_map]
    exact hnodup.map (fun _ _ he => he)
  · intro p q n hblock
    by_cases hend : p+n = i+1
    · rcases Nat.eq_zero_or_pos n with hn | hn
      · omega
      · obtain ⟨pair,hp,_,hlen⟩ := hreach p q n hn hend hblock
        exact hlen.trans (hall pair hp)
    · have hbefore : Block old rows begin1 i begin2 end2 p q n :=
        { hblock with old_last := by have := hblock.old_last; omega }
      exact (hbest.longest p q n hbefore).trans hle

theorem rows_spec {s : List Length × Match} (hnew : Indexed new rows) (hi : begin1 ≤ i)
    (h : Continues old rows begin1 begin2 end2 i s.1)
    (hbest : Longest old rows begin1 i begin2 end2 s.2) (count : ℕ) :
    Longest old rows begin1 (i+count) begin2 end2
      ((List.range' i count).foldl (nextRow b modified old new begin2 end2) s).2 := by
  induction count generalizing i s with
  | zero => exact hbest
  | succ count ih =>
    rw [List.range'_succ, List.foldl_cons, ← Nat.add_assoc, Nat.add_right_comm]
    obtain ⟨h',hbest'⟩ := nextRow_spec hnew hi h hbest
    exact ih (Nat.le_succ_of_le hi) h' hbest'

/-- No block of common rows within the bounds is longer than the one that is found. -/
theorem findLongestMatch_longest (hnew : Indexed new rows) (h1 : begin1 ≤ end1)
    (h2 : begin2 ≤ end2) : Longest old rows begin1 end1 begin2 end2
      (findLongestMatch b modified old new begin1 end1 begin2 end2) := by
  have hempty (p q n : ℕ) (h : Block old rows begin1 begin1 begin2 end2 p q n) : n ≤ 0 := by
    have := h.old_first
    have := h.old_last
    omega
  have hstart : Longest old rows begin1 begin1 begin2 end2 ⟨begin1, begin2, 0, some 0⟩ :=
    ⟨⟨Nat.le_refl _, Nat.le_refl _, Nat.le_refl _, h2, by simp⟩, hempty⟩
  have hnone : Continues old rows begin1 begin2 end2 begin1 [] := by
    refine ⟨List.nodup_nil, by simp, ?_⟩
    intro p q n hn _ hblock
    have := hempty p q n hblock
    omega
  have hrows : Longest old rows begin1 (begin1+(end1-begin1)) begin2 end2
      ((List.range' begin1 (end1-begin1)).foldl (nextRow b modified old new begin2 end2)
        ([], ⟨begin1, begin2, 0, some 0⟩)).2 :=
    rows_spec hnew (Nat.le_refl begin1) hnone hstart (end1-begin1)
  rwa [Nat.add_sub_cancel' h1] at hrows

/-! All blocks -/

/-- Blocks one behind the other on both sides. -/
structure Matched (old : List Row) (rows : List ℕ) (begin1 end1 begin2 end2 : ℕ)
    (l : List Match) : Prop where
  inOrder : l.Pairwise (fun m n => m.i+m.size ≤ n.i ∧ m.j+m.size ≤ n.j)
  blocks : ∀ m ∈ l, Block old rows begin1 end1 begin2 end2 m.i m.j m.size

theorem matched_nil : Matched old rows begin1 end1 begin2 end2 [] :=
  ⟨List.Pairwise.nil, by simp⟩

/-- Blocks before and blocks behind one block. -/
theorem Matched.around {m : Match} {l t : List Match}
    (hm : Block old rows begin1 end1 begin2 end2 m.i m.j m.size)
    (hl : Matched old rows begin1 m.i begin2 m.j l)
    (ht : Matched old rows (m.i+m.size) end1 (m.j+m.size) end2 t) :
    Matched old rows begin1 end1 begin2 end2 (l ++ m :: t) := by
  have hfirst := hm.old_first
  have hlast := hm.old_last
  have hfirst' := hm.new_first
  have hlast' := hm.new_last
  have hbefore (n : Match) (hn : n ∈ l) : n.i+n.size ≤ m.i ∧ n.j+n.size ≤ m.j :=
    ⟨(hl.blocks n hn).old_last, (hl.blocks n hn).new_last⟩
  have hbehind (n : Match) (hn : n ∈ t) : m.i+m.size ≤ n.i ∧ m.j+m.size ≤ n.j :=
    ⟨(ht.blocks n hn).old_first, (ht.blocks n hn).new_first⟩
  constructor
  · refine List.pairwise_append.mpr
      ⟨hl.inOrder, List.pairwise_cons.mpr ⟨hbehind, ht.inOrder⟩, ?_⟩
    intro n hn n' hn'
    have hnm := hbefore n hn
    rcases List.mem_cons.mp hn' with rfl | hn'
    · exact hnm
    · have hmn' := hbehind n' hn'
      constructor
      · omega
      · omega
  · intro n hn
    rcases List.mem_append.mp hn with hn | hn
    · have hblock := hl.blocks n hn
      exact { hblock with
        old_last := by have := hblock.old_last; omega
        new_last := by have := hblock.new_last; omega }
    rcases List.mem_cons.mp hn with rfl | hn
    · exact hm
    · have hblock := ht.blocks n hn
      exact { hblock with
        old_first := by have := hblock.old_first; omega
        new_first := by have := hblock.new_first; omega }

theorem findLongestMatches_matched (hnew : Indexed new rows) (begin1 end1 begin2 end2 : ℕ)
    (h1 : begin1 ≤ end1) (h2 : begin2 ≤ end2) : Matched old rows begin1 end1 begin2 end2
      (findLongestMatches b modified old new begin1 end1 begin2 end2) := by
  induction begin1, end1, begin2, end2 using findLongestMatches.induct b modified old new with
  | case1 begin1 end1 begin2 end2 m hsize =>
    rw [findLongestMatches, if_pos hsize]
    exact matched_nil
  | case2 begin1 end1 begin2 end2 m hsize ihleft ihright =>
    have hm : Block old rows begin1 end1 begin2 end2 m.i m.j m.size :=
      (findLongestMatch_longest hnew h1 h2).block
    rw [findLongestMatches, if_neg hsize]
    apply Matched.around hm
    · split_ifs
      · exact ihleft hm.old_first hm.new_first
      · exact matched_nil
    · split_ifs
      · exact ihright hm.old_last hm.new_last
      · exact matched_nil

end LongestCommonSubsequenceCalculator

end ObjectStore
