import CurrencyConverter.SequenceDiff

/-! Diffs that come from items matched in pairs: what is not matched is deleted or inserted. -/
namespace SequenceDiff

open IndexShift

variable {α : Type*} {n m : ℕ} {l l' : List ℕ} {pairs : List (ℕ × ℕ)} {xs ys : List α}
  {M : Finset ℕ}

/-- Positions up to `n` that are not in the list. -/
def unmatched (n : ℕ) (l : List ℕ) : Finset ℕ := Finset.range n \ l.toFinset

/-- The positions that are left are those of the list, and behind it all from `n` on. -/
theorem shift_unmatched (hl : l.Pairwise (· < ·)) (hn : ∀ i ∈ l, i < n) (k : ℕ) :
    shift (unmatched n l) k = if h : k < l.length then l[k] else n+(k-l.length) := by
  have hmono : StrictMono (fun k => if h : k < l.length then l[k] else n+(k-l.length)) := by
    intro i j hij
    change (if h : i < l.length then l[i] else n+(i-l.length)) <
      if h : j < l.length then l[j] else n+(j-l.length)
    split_ifs with hi hj hj
    · exact List.pairwise_iff_getElem.mp hl i j hi hj hij
    · have := hn l[i] (List.getElem_mem hi)
      omega
    · omega
    · omega
  apply congrFun (eq_shift hmono _).symm
  intro j
  rw [unmatched, Finset.mem_sdiff, Finset.mem_range, List.mem_toFinset, not_and, not_not]
  constructor
  · rintro ⟨i,rfl⟩ hlt
    by_cases hi : i < l.length
    · rw [dif_pos hi]
      exact List.getElem_mem hi
    · rw [dif_neg hi] at hlt
      omega
  · intro h
    by_cases hlt : j < n
    · obtain ⟨i,hi,he⟩ := List.mem_iff_getElem.mp (h hlt)
      exact ⟨i, by rw [dif_pos hi, he]⟩
    · refine ⟨l.length+(j-n), ?_⟩
      rw [dif_neg (by omega)]
      omega

/-- Pairs of positions, in order on both sides. -/
structure Aligned (n m : ℕ) (pairs : List (ℕ × ℕ)) : Prop where
  sorted : pairs.Pairwise (fun p q => p.1 < q.1 ∧ p.2 < q.2)
  old_lt : ∀ p ∈ pairs, p.1 < n
  new_lt : ∀ p ∈ pairs, p.2 < m

theorem Aligned.sorted_old (h : Aligned n m pairs) : (pairs.map Prod.fst).Pairwise (· < ·) :=
  List.pairwise_map.mpr (h.sorted.imp And.left)

theorem Aligned.sorted_new (h : Aligned n m pairs) : (pairs.map Prod.snd).Pairwise (· < ·) :=
  List.pairwise_map.mpr (h.sorted.imp And.right)

theorem Aligned.lt_old (h : Aligned n m pairs) : ∀ i ∈ pairs.map Prod.fst, i < n := by
  intro i hi
  obtain ⟨p,hp,rfl⟩ := List.mem_map.mp hi
  exact h.old_lt p hp

theorem Aligned.lt_new (h : Aligned n m pairs) : ∀ j ∈ pairs.map Prod.snd, j < m := by
  intro j hj
  obtain ⟨p,hp,rfl⟩ := List.mem_map.mp hj
  exact h.new_lt p hp

/-- Deleting and inserting what is not matched turns the old sequence into the new one. -/
theorem Aligned.transforms (h : Aligned xs.length ys.length pairs)
    (hsame : ∀ p ∈ pairs, p.2 ∉ M → xs[p.1]? = ys[p.2]?) :
    Transforms (unmatched xs.length (pairs.map Prod.fst))
      (unmatched ys.length (pairs.map Prod.snd)) M xs ys := by
  intro k hM
  rw [shift_unmatched h.sorted_new h.lt_new] at hM ⊢
  rw [shift_unmatched h.sorted_old h.lt_old]
  simp only [List.length_map] at hM ⊢
  by_cases hk : k < pairs.length
  · rw [dif_pos hk, List.getElem_map] at hM
    rw [dif_pos hk, dif_pos hk, List.getElem_map, List.getElem_map]
    exact hsame _ (List.getElem_mem hk) hM
  · rw [dif_neg hk, dif_neg hk, List.getElem?_eq_none (by omega),
      List.getElem?_eq_none (by omega)]

theorem card_unmatched (hl : l.Pairwise (· < ·)) (hn : ∀ i ∈ l, i < n) :
    (unmatched n l).card+l.length = n := by
  have hsub : l.toFinset ⊆ Finset.range n := by
    intro i hi
    exact Finset.mem_range.mpr (hn i (List.mem_toFinset.mp hi))
  have hcard := Finset.card_sdiff_add_card_eq_card hsub
  rwa [List.toFinset_card_of_nodup (hl.imp Nat.ne_of_lt), Finset.card_range] at hcard

theorem Aligned.fits (h : Aligned n m pairs) : Fits (unmatched n (pairs.map Prod.fst))
    (unmatched m (pairs.map Prod.snd)) n m := by
  refine ⟨Finset.sdiff_subset, Finset.sdiff_subset, ?_⟩
  have hold := card_unmatched h.sorted_old h.lt_old
  have hnew := card_unmatched h.sorted_new h.lt_new
  rw [List.length_map] at hold hnew
  omega

/-- Items listed by their places are the items of the sequence that are listed at all. -/
theorem map_places {β : Type*} {l : List α} {items : List β} {place : β → ℕ} {item : β → α}
    {p : α → Bool} (hsorted : items.Pairwise (fun x y => place x < place y))
    (hitem : ∀ x ∈ items, l[place x]? = some (item x) ∧ p (item x) = true)
    (hall : ∀ i y, l[i]? = some y → p y = true → ∃ x ∈ items, place x = i) :
    items.map item = l.filter p := by
  have hpairs : items.map (fun x => (item x,place x)) = l.zipIdx.filter (fun q => p q.1) := by
    have hleft : (items.map (fun x => (item x,place x))).Pairwise (fun q r => q.2 < r.2) :=
      List.pairwise_map.mpr hsorted
    have hright : (l.zipIdx.filter (fun q => p q.1)).Pairwise (fun q r => q.2 < r.2) := by
      apply List.Pairwise.filter
      rw [← List.pairwise_map (f := Prod.snd), List.zipIdx_map_snd]
      exact List.pairwise_lt_range'
    have hne {l : List (α × ℕ)} (hl : l.Pairwise (fun q r => q.2 < r.2)) : l.Nodup :=
      hl.imp (fun hlt he => Nat.ne_of_lt hlt (congrArg Prod.snd he))
    apply List.Perm.eq_of_pairwise (fun _ _ _ _ h h' => absurd h (Nat.lt_asymm h')) hleft hright
    apply (List.perm_ext_iff_of_nodup (hne hleft) (hne hright)).mpr
    rintro ⟨y,i⟩
    rw [List.mem_map, List.mem_filter, List.mem_zipIdx_iff_getElem?]
    constructor
    · rintro ⟨x,hx,he⟩
      obtain ⟨rfl,rfl⟩ := Prod.mk.inj he
      exact hitem x hx
    · rintro ⟨hget,hp⟩
      obtain ⟨x,hx,rfl⟩ := hall i y hget hp
      have hy := (hitem x hx).1.symm.trans hget
      exact ⟨x, hx, by rw [Option.some.inj hy]⟩
  have hfirst := congrArg (List.map Prod.fst) hpairs
  rw [List.map_map] at hfirst
  refine hfirst.trans ?_
  have hfilter (l : List α) (n : ℕ) :
      ((l.zipIdx n).filter (fun q => p q.1)).map Prod.fst = l.filter p := by
    induction l generalizing n with
    | nil => rfl
    | cons x l ih =>
      rw [List.zipIdx_cons]
      by_cases hp : p x = true
      · rw [List.filter_cons_of_pos (p := fun q : α × ℕ => p q.1) hp,
          List.filter_cons_of_pos hp, List.map_cons, ih]
      · rw [List.filter_cons_of_neg (p := fun q : α × ℕ => p q.1) hp,
          List.filter_cons_of_neg hp, ih]
  exact hfilter l 0

end SequenceDiff
