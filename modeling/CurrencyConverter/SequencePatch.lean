import CurrencyConverter.SequenceDiff
import CurrencyConverter.SeparatedRanges

/-! Applying a diff: ranges of positions are erased, the last one first, and items are put in,
the first one first. -/
namespace SequenceDiff

open IndexShift SeparatedRanges

variable {α : Type*} {D I M : Finset ℕ} {xs ys ks : List α} {ranges : List Range}
  {positions : List ℕ}

def eraseRanges (ranges : List Range) (xs : List α) : List α :=
  ranges.foldr (fun r xs => xs.take r.1 ++ xs.drop r.2) xs

/-- Each item is the one of the new sequence `ys` at its position. -/
def insertItems (positions : List ℕ) (ys xs : List α) : List α :=
  positions.foldl (fun xs i => ys[i]?.elim xs (fun y => xs.insertIdx i y)) xs

theorem getElem?_eraseRange {r : Range} (hr : r.1 < r.2) (xs : List α) (k : ℕ) :
    (xs.take r.1 ++ xs.drop r.2)[k]? = xs[shift (Finset.Ico r.1 r.2) k]? := by
  have hIco : Finset.Ico r.1 r.2 = Finset.Ico r.1 (r.1+(r.2-r.1)) := by
    rw [Nat.add_sub_cancel' (Nat.le_of_lt hr)]
  rw [hIco, shift_Ico]
  by_cases hlen : r.1 ≤ xs.length
  · rw [List.getElem?_append, List.length_take, Nat.min_eq_left hlen, List.getElem?_take,
      List.getElem?_drop]
    by_cases hk : k < r.1
    · rw [if_pos hk, if_pos hk, if_pos hk]
    · rw [if_neg hk, if_neg hk]
      congr 1
      omega
  · rw [List.drop_eq_nil_of_le (by omega), List.append_nil,
      List.take_of_length_le (by omega)]
    by_cases hk : k < r.1
    · rw [if_pos hk]
    · rw [if_neg hk, List.getElem?_eq_none (by omega), List.getElem?_eq_none (by omega)]

theorem getElem?_eraseRanges (hs : Separated ranges) (xs : List α) (k : ℕ) :
    (eraseRanges ranges xs)[k]? = xs[shift (members ranges) k]? := by
  induction ranges generalizing k with
  | nil => exact congrArg (fun i => xs[i]?) (shift_empty k).symm
  | cons r ranges ih =>
    obtain ⟨hr,hrest,hsr⟩ := separated_cons.mp hs
    have hset : members (r :: ranges) = inserted (Finset.Ico r.1 r.2) (members ranges) := by
      have hfix : ∀ i ∈ Finset.Ico r.1 r.2, shift (members ranges) i = id i := by
        intro i hi
        have hlt := (Finset.mem_Ico.mp hi).2
        change shift (members ranges) i = i
        apply shift_eq
        · rw [mem_members]
          rintro ⟨s,hmem,hle,_⟩
          have := hrest s hmem
          omega
        · have hcard := unshift_add_card (S := members ranges) i
          have hnone : (members ranges).filter (fun k => k < i) = ∅ := by
            rw [Finset.filter_eq_empty_iff]
            intro j hj hji
            obtain ⟨s,hmem,hle,_⟩ := mem_members.mp hj
            have := hrest s hmem
            omega
          rw [hnone] at hcard
          exact hcard
      rw [inserted, Finset.image_congr hfix, Finset.image_id]
      ext i
      rw [mem_members, covers_cons, Finset.mem_union, mem_members, Finset.mem_Ico, or_comm]
    change ((eraseRanges ranges xs).take r.1 ++ (eraseRanges ranges xs).drop r.2)[k]? = _
    rw [getElem?_eraseRange hr, ih hsr, hset, shift_inserted]

/-- Items put in behind all the ones that were put in before. -/
theorem unshift_insert_of_lt {J : Finset ℕ} {i j : ℕ} (hi : ∀ k ∈ J, k < i) (hij : i < j) :
    unshift (insert i J) j = unshift J (j-1) := by
  have hnot : i ∉ J := fun h => Nat.lt_irrefl i (hi i h)
  have h := unshift_add_card (S := insert i J) j
  have h' := unshift_add_card (S := J) (j-1)
  have hall : (insert i J).filter (fun k => k < j) = insert i J := by
    rw [Finset.filter_eq_self]
    intro k hk
    rcases Finset.mem_insert.mp hk with rfl | hk
    · exact hij
    · exact (hi k hk).trans hij
  have hall' : J.filter (fun k => k < j-1) = J := by
    rw [Finset.filter_eq_self]
    intro k hk
    have := hi k hk
    omega
  rw [hall, Finset.card_insert_of_notMem hnot] at h
  rw [hall'] at h'
  omega

theorem unshift_insert_of_le {J : Finset ℕ} {i j : ℕ} (hij : j ≤ i) :
    unshift (insert i J) j = unshift J j := by
  apply unshift_eq_of_agree
  intro k hk
  rw [Finset.mem_insert]
  exact or_iff_right (by omega)

theorem length_eraseRanges (hs : Separated ranges) (xs : List α) :
    (eraseRanges ranges xs).length = unshift (members ranges) xs.length := by
  have hlt (k : ℕ) : k < (eraseRanges ranges xs).length ↔
      k < unshift (members ranges) xs.length := by
    rw [← not_le, ← List.getElem?_eq_none_iff, getElem?_eraseRanges hs,
      List.getElem?_eq_none_iff, not_le, shift_lt_iff]
  apply Nat.le_antisymm
  · by_contra h
    exact Nat.lt_irrefl _ ((hlt _).mp (Nat.lt_of_not_le h))
  · by_contra h
    exact Nat.lt_irrefl _ ((hlt _).mpr (Nat.lt_of_not_le h))

/-- What is put in stands at its position; the rest stands where its rank is left. -/
theorem insertItems_spec (positions : List ℕ) (hsorted : positions.Pairwise (· < ·))
    (hlt : ∀ i ∈ positions, i < ys.length)
    (hplace : ∀ i ∈ positions, unshift positions.toFinset i ≤ ks.length) :
    (insertItems positions ys ks).length = ks.length+positions.length ∧
    ∀ j, (insertItems positions ys ks)[j]? =
      if j ∈ positions then ys[j]? else ks[unshift positions.toFinset j]? := by
  induction positions using List.reverseRecOn with
  | nil =>
    refine ⟨rfl, ?_⟩
    intro j
    rw [if_neg List.not_mem_nil, List.toFinset_nil, unshift_empty]
    rfl
  | append_singleton l i ih =>
    obtain ⟨hl,_,hle⟩ := List.pairwise_append.mp hsorted
    have hli : ∀ k ∈ l.toFinset, k < i :=
      fun k hk => hle k (List.mem_toFinset.mp hk) i (List.mem_singleton_self i)
    have hset : (l ++ [i]).toFinset = insert i l.toFinset := by
      rw [List.toFinset_append, List.toFinset_cons, List.toFinset_nil, Finset.union_comm]
      rfl
    rw [hset] at hplace ⊢
    obtain ⟨hlen,hget⟩ := ih hl (fun k hk => hlt k (List.mem_append_left _ hk)) (by
      intro k hk
      have hk' := hplace k (List.mem_append_left _ hk)
      rwa [unshift_insert_of_le (Nat.le_of_lt (hli k (List.mem_toFinset.mpr hk)))] at hk')
    have hin : i < ys.length := hlt i (by simp)
    have hroom : i ≤ (insertItems l ys ks).length := by
      have hi := hplace i (by simp)
      have hcard := unshift_add_card (S := l.toFinset) i
      rw [Finset.filter_true_of_mem hli,
        List.toFinset_card_of_nodup (hl.imp Nat.ne_of_lt)] at hcard
      rw [unshift_insert_of_le (Nat.le_refl i)] at hi
      omega
    have hval : insertItems (l ++ [i]) ys ks = (insertItems l ys ks).insertIdx i ys[i] := by
      rw [insertItems, List.foldl_append, List.foldl_cons, List.foldl_nil,
        List.getElem?_eq_getElem hin]
      rfl
    rw [hval]
    constructor
    · rw [List.length_insertIdx_of_le_length hroom, hlen, List.length_append]
      rfl
    · intro j
      rw [List.getElem?_insertIdx]
      rcases Nat.lt_trichotomy j i with hj | hj | hj
      · have hmem : j ∈ l ++ [i] ↔ j ∈ l := by
          rw [List.mem_append, List.mem_singleton]
          exact or_iff_left (Nat.ne_of_lt hj)
        rw [if_pos hj, hget, unshift_insert_of_le (Nat.le_of_lt hj)]
        simp only [hmem]
      · rw [hj, if_neg (Nat.lt_irrefl i), if_pos rfl, if_pos hroom, if_pos (by simp),
          List.getElem?_eq_getElem hin]
      · have hout (k : ℕ) (hk : i ≤ k) : k ∉ l := by
          intro hmem
          have := hli k (List.mem_toFinset.mpr hmem)
          omega
        have hmem : j ∉ l ++ [i] := by
          rw [List.mem_append, List.mem_singleton, not_or]
          exact ⟨hout j (Nat.le_of_lt hj), Nat.ne_of_gt hj⟩
        rw [if_neg (by omega), if_neg (by omega), hget, if_neg (hout _ (by omega)), if_neg hmem,
          unshift_insert_of_lt hli hj]

/-- A diff that describes two sequences turns the old one into the new one, except for the
items that changed in place. -/
theorem Transforms.patch (h : Transforms (members ranges) positions.toFinset M xs ys)
    (hfits : Fits (members ranges) positions.toFinset xs.length ys.length)
    (hranges : Separated ranges) (hsorted : positions.Pairwise (· < ·)) :
    (insertItems positions ys (eraseRanges ranges xs)).length = ys.length ∧
    ∀ j, j ∉ M → (insertItems positions ys (eraseRanges ranges xs))[j]? = ys[j]? := by
  have hlen := length_eraseRanges hranges xs
  have hlt : ∀ i ∈ positions, i < ys.length :=
    fun i hi => Finset.mem_range.mp (hfits.new (List.mem_toFinset.mpr hi))
  have hplace : ∀ i ∈ positions, unshift positions.toFinset i ≤
      (eraseRanges ranges xs).length := by
    intro i hi
    rw [hlen, hfits.rank_eq]
    exact unshift_mono (Nat.le_of_lt (hlt i hi))
  obtain ⟨hlength,hget⟩ := insertItems_spec positions hsorted hlt hplace
  constructor
  · have hcard := unshift_of_subset hfits.new
    rw [List.toFinset_card_of_nodup (hsorted.imp Nat.ne_of_lt)] at hcard
    rw [hlength, hlen, hfits.rank_eq, hcard]
  · intro j hM
    rw [hget]
    by_cases hj : j ∈ positions
    · rw [if_pos hj]
    · rw [if_neg hj, getElem?_eraseRanges hranges,
        h.kept_new (fun hin => hj (List.mem_toFinset.mp hin)) hM]

end SequenceDiff
