import CurrencyConverter.IndexShift

/-! Descriptions of how one sequence became another: the positions that went out of the old
one, the positions that are new in the other, and the new positions whose item changed. -/
namespace SequenceDiff

open IndexShift

variable {α : Type*}

/-- Closing `D` in the old sequence and `I` in the new one leaves the same sequence, but for
the items at the positions `M`. -/
def Transforms (D I M : Finset ℕ) (xs ys : List α) : Prop :=
  ∀ i, shift I i ∉ M → xs[shift D i]? = ys[shift I i]?

variable {D I M D' I' M' S : Finset ℕ} {xs ys zs : List α}

theorem Transforms.refl (M : Finset ℕ) (xs : List α) : Transforms ∅ ∅ M xs xs := by
  intro i _
  rfl

theorem Transforms.eq_of_empty (h : Transforms ∅ ∅ ∅ xs ys) : xs = ys := by
  apply List.ext_getElem?
  intro i
  simpa using h i (Finset.notMem_empty _)

theorem Transforms.mono (h : Transforms D I M xs ys) (hM : M ⊆ M') : Transforms D I M' xs ys :=
  fun i hi => h i (fun hm => hi (hM hm))

/-- An item that stays is found again at its shifted position. -/
theorem Transforms.kept_old (h : Transforms D I M xs ys) {k : ℕ} (hk : k ∉ D)
    (hM : shift I (unshift D k) ∉ M) : xs[k]? = ys[shift I (unshift D k)]? := by
  have hi := h (unshift D k) hM
  rwa [shift_unshift hk] at hi

theorem Transforms.kept_new (h : Transforms D I M xs ys) {k : ℕ} (hk : k ∉ I) (hM : k ∉ M) :
    ys[k]? = xs[shift D (unshift I k)]? := by
  have hi := h (unshift I k) (by rwa [shift_unshift hk])
  rw [shift_unshift hk] at hi
  exact hi.symm

/-- The changed positions of the middle sequence at their places in the last one, and the
positions changed after that. -/
noncomputable def carried (M D I M' : Finset ℕ) : Finset ℕ := (erased M D).image (shift I) ∪ M'

theorem not_mem_carried {k : ℕ} : shift I k ∉ carried M D I M' ↔
    shift D k ∉ M ∧ shift I k ∉ M' := by
  rw [carried, Finset.mem_union, mem_image_shift, unshift_shift, mem_erased, not_or, not_and]
  constructor
  · rintro ⟨h,h'⟩
    exact ⟨h (shift_not_mem I k), h'⟩
  · rintro ⟨h,h'⟩
    exact ⟨fun _ => h, h'⟩

theorem carried_mono {N N' : Finset ℕ} (h : M ⊆ N) (h' : M' ⊆ N') :
    carried M D I M' ⊆ carried N D I N' := by
  intro k hk
  rw [carried, Finset.mem_union, mem_image_shift, mem_erased] at hk ⊢
  exact hk.imp (And.imp_right (fun hm => h hm)) (fun hm => h' hm)

/-- The place of the middle sequence through which an item that stays twice passes. -/
theorem shift_middle (i : ℕ) :
    shift I (shift (erased D' I) i) = shift D' (shift (erased I D') i) := by
  rw [← shift_inserted, ← shift_inserted, inserted_erased, inserted_erased, Finset.union_comm]

/-- Two descriptions in a row are one: what the second closes is read in the old positions,
and what the first made is read in the new ones. -/
theorem Transforms.comp (h : Transforms D I M xs ys) (h' : Transforms D' I' M' ys zs) :
    Transforms (inserted (erased D' I) D) (inserted (erased I D') I') (carried M D' I' M')
      xs zs := by
  intro i hi
  rw [shift_inserted, not_mem_carried] at hi
  have hmid : shift I (shift (erased D' I) i) ∉ M := by
    rw [shift_middle]
    exact hi.1
  calc xs[shift (inserted (erased D' I) D) i]?
      = xs[shift D (shift (erased D' I) i)]? := by rw [shift_inserted]
    _ = ys[shift I (shift (erased D' I) i)]? := h _ hmid
    _ = ys[shift D' (shift (erased I D') i)]? := by rw [shift_middle]
    _ = zs[shift I' (shift (erased I D') i)]? := h' _ hi.2
    _ = zs[shift (inserted (erased I D') I') i]? := by rw [shift_inserted]

/-- Closing the same ranks on both sides asks for agreement at the other ranks only. -/
theorem transforms_inserted_iff : Transforms (inserted S D) (inserted S I) M xs ys ↔
    ∀ i, i ∉ S → shift I i ∉ M → xs[shift D i]? = ys[shift I i]? := by
  constructor
  · intro h i hi hM
    have hs := h (unshift S i)
    rw [shift_inserted, shift_inserted, shift_unshift hi] at hs
    exact hs hM
  · intro h i hM
    rw [shift_inserted] at hM
    rw [shift_inserted, shift_inserted]
    exact h _ (shift_not_mem S i) hM

theorem unshift_erase {f : ℕ} : unshift (D.erase f) f = unshift D f := by
  have h := unshift_add_card (S := D) f
  have h' := unshift_add_card (S := D.erase f) f
  have hset : (D.erase f).filter (fun k => k < f) = D.filter (fun k => k < f) := by
    ext k
    simp only [Finset.mem_filter, Finset.mem_erase]
    constructor
    · rintro ⟨⟨_,hk⟩,hlt⟩
      exact ⟨hk, hlt⟩
    · rintro ⟨hk,hlt⟩
      exact ⟨⟨by omega, hk⟩, hlt⟩
  rw [hset] at h'
  omega

/-- Without `f` one more position stays before every later one. -/
theorem unshift_erase_of_mem {f : ℕ} (hf : f ∈ D) (j : ℕ) :
    unshift (D.erase f) j = unshift D j+if f < j then 1 else 0 := by
  have h := unshift_add_card (S := D) j
  have h' := unshift_add_card (S := D.erase f) j
  have hset : (D.erase f).filter (fun k => k < j) = (D.filter (fun k => k < j)).erase f := by
    ext k
    simp only [Finset.mem_filter, Finset.mem_erase, and_assoc]
  rw [hset] at h'
  by_cases hlt : f < j
  · have hmem : f ∈ D.filter (fun k => k < j) := Finset.mem_filter.mpr ⟨hf, hlt⟩
    have hcard := Finset.card_erase_add_one hmem
    rw [if_pos hlt]
    omega
  · have hnot : f ∉ D.filter (fun k => k < j) := fun hmem => hlt (Finset.mem_filter.mp hmem).2
    rw [Finset.erase_eq_of_notMem hnot] at h'
    rw [if_neg hlt]
    omega

/-- Taking a pair of equal ranks out keeps apart the ranks of other pairs. -/
theorem unshift_erase_ne {f t i j : ℕ} (hf : f ∈ D) (ht : t ∈ I)
    (hrank : unshift D f = unshift I t) (h : unshift D i ≠ unshift I j) :
    unshift (D.erase f) i ≠ unshift (I.erase t) j := by
  rw [unshift_erase_of_mem hf, unshift_erase_of_mem ht]
  have hmono {S : Finset ℕ} {a b : ℕ} (hab : a ≤ b) : unshift S a ≤ unshift S b := unshift_mono hab
  by_cases hfi : f < i
  · have h1 : unshift D f ≤ unshift D i := hmono (Nat.le_of_lt hfi)
    rw [if_pos hfi]
    by_cases htj : t < j
    · rw [if_pos htj]
      omega
    · have h2 : unshift I j ≤ unshift I t := hmono (Nat.le_of_not_lt htj)
      rw [if_neg htj]
      omega
  · have h1 : unshift D i ≤ unshift D f := hmono (Nat.le_of_not_lt hfi)
    rw [if_neg hfi]
    by_cases htj : t < j
    · have h2 : unshift I t ≤ unshift I j := hmono (Nat.le_of_lt htj)
      rw [if_pos htj]
      omega
    · rw [if_neg htj]
      omega

theorem inserted_erase {f : ℕ} (hf : f ∈ D) : inserted {unshift D f} (D.erase f) = D := by
  have hshift : shift (D.erase f) (unshift D f) = f :=
    shift_eq (Finset.notMem_erase f D) unshift_erase
  ext k
  simp only [mem_inserted, Finset.mem_singleton, exists_eq_left, hshift, Finset.mem_erase]
  constructor
  · rintro (h | rfl)
    · exact h.2
    · exact hf
  · intro hk
    by_cases he : f = k
    · exact Or.inr he
    · exact Or.inl ⟨fun h => he h.symm, hk⟩

/-- An item taken out and put back at the same rank need not be mentioned. -/
theorem Transforms.restore (h : Transforms D I M xs ys) {f t : ℕ} (hf : f ∈ D) (ht : t ∈ I)
    (hrank : unshift D f = unshift I t) (hitem : t ∉ M → xs[f]? = ys[t]?) :
    Transforms (D.erase f) (I.erase t) M xs ys := by
  rw [← inserted_erase hf, ← inserted_erase ht, hrank, transforms_inserted_iff] at h
  intro i hM
  by_cases hi : i = unshift I t
  · have hold : shift (D.erase f) i = f :=
      shift_eq (Finset.notMem_erase f D) (by rw [unshift_erase, hrank, hi])
    have hnew : shift (I.erase t) i = t :=
      shift_eq (Finset.notMem_erase t I) (by rw [unshift_erase, hi])
    rw [hnew] at hM
    rw [hold, hnew, hitem hM]
  · exact h i (by simpa using hi) hM

theorem shift_lt_iff {n i : ℕ} : shift D i < n ↔ i < unshift D n :=
  (Nat.lt_nth_iff_count_lt (outside_infinite D)).symm

/-- An item that went out at `f` and came in again at `t`. -/
structure Carries (D I M : Finset ℕ) (xs ys : List α) (f t : ℕ) : Prop where
  old : f ∈ D
  new : t ∈ I
  item : t ∉ M → xs[f]? = ys[t]?

variable {f t u : ℕ}

theorem Carries.mono (h : Carries D I M xs ys f t) (hM : M ⊆ M') : Carries D I M' xs ys f t :=
  ⟨h.old, h.new, fun ht => h.item (fun hm => ht (hM hm))⟩

/-- What moves twice has moved once. -/
theorem Carries.trans (h : Carries D I M xs ys f t) (h' : Carries D' I' M' ys zs t u)
    (hcarry : t ∈ M → u ∈ M') :
    Carries (inserted (erased D' I) D) (inserted (erased I D') I') (carried M D' I' M')
      xs zs f u := by
  refine ⟨mem_inserted.mpr (Or.inl h.old), mem_inserted.mpr (Or.inl h'.new), ?_⟩
  intro hu
  have hM' : u ∉ M' := fun hu' => hu (Finset.mem_union_right _ hu')
  rw [h.item (fun ht => hM' (hcarry ht)), h'.item hM']

/-- What moved before and stays after that. -/
theorem Carries.stay (h : Carries D I M xs ys f t) (h' : Transforms D' I' M' ys zs)
    (ht : t ∉ D') :
    Carries (inserted (erased D' I) D) (inserted (erased I D') I') (carried M D' I' M')
      xs zs f (shift I' (unshift D' t)) := by
  refine ⟨mem_inserted.mpr (Or.inl h.old), mem_inserted.mpr (Or.inr ⟨unshift D' t, ?_, rfl⟩), ?_⟩
  · exact (unshift_mem_erased ht).mpr h.new
  · intro hu
    rw [not_mem_carried, shift_unshift ht] at hu
    rw [h.item hu.1, h'.kept_old ht hu.2]

/-- What stays and moves after that. -/
theorem Transforms.carries (h : Transforms D I M xs ys) (h' : Carries D' I' M' ys zs f t)
    (hf : f ∉ I) (hcarry : f ∈ M → t ∈ M') :
    Carries (inserted (erased D' I) D) (inserted (erased I D') I') (carried M D' I' M')
      xs zs (shift D (unshift I f)) t := by
  refine ⟨mem_inserted.mpr (Or.inr ⟨unshift I f, ?_, rfl⟩), mem_inserted.mpr (Or.inl h'.new), ?_⟩
  · exact (unshift_mem_erased hf).mpr h'.old
  · intro ht
    have hM' : t ∉ M' := fun ht' => ht (Finset.mem_union_right _ ht')
    rw [← h.kept_new hf (fun hfM => hM' (hcarry hfM)), h'.item hM']

/-- Moves apart from one that is taken out stay moves. -/
theorem Carries.erase (h : Carries D I M xs ys f t) {f' t' : ℕ} (hf : f ≠ f') (ht : t ≠ t') :
    Carries (D.erase f') (I.erase t') M xs ys f t :=
  ⟨Finset.mem_erase.mpr ⟨hf, h.old⟩, Finset.mem_erase.mpr ⟨ht, h.new⟩, h.item⟩

/-! Other items at the same positions -/

variable {β : Type*} {us vs : List β}

theorem getElem?_relabel {i j : ℕ} (h : xs[i]? = ys[j]?) (hold : us.length = xs.length)
    (hnew : vs.length = ys.length)
    (hsame : ∀ x : α, xs[i]? = some x → ys[j]? = some x → us[i]? = vs[j]?) : us[i]? = vs[j]? := by
  cases hx : xs[i]? with
  | none =>
    -- neither sequence has an item there
    rw [hx] at h
    have hx := List.getElem?_eq_none_iff.mp hx
    have hy := List.getElem?_eq_none_iff.mp h.symm
    rw [List.getElem?_eq_none (hold ▸ hx), List.getElem?_eq_none (hnew ▸ hy)]
  | some x => exact hsame x hx (h ▸ hx)

/-- Where items that are the same stand for rows that are the same, the description is one of
the rows as well. -/
theorem Transforms.relabel (h : Transforms D I ∅ xs ys) (hold : us.length = xs.length)
    (hnew : vs.length = ys.length)
    (hsame : ∀ (i j : ℕ) (x : α), xs[i]? = some x → ys[j]? = some x → j ∉ I → j ∉ M →
      us[i]? = vs[j]?) : Transforms D I M us vs := by
  intro i hM
  apply getElem?_relabel (h i (Finset.notMem_empty _)) hold hnew
  intro x hx hy
  exact hsame _ _ x hx hy (shift_not_mem I i) hM

theorem Carries.relabel (h : Carries D I ∅ xs ys f t) (hold : us.length = xs.length)
    (hnew : vs.length = ys.length)
    (hsame : ∀ x : α, xs[f]? = some x → ys[t]? = some x → t ∉ M → us[f]? = vs[t]?) :
    Carries D I M us vs f t := by
  refine ⟨h.old, h.new, ?_⟩
  intro hM
  apply getElem?_relabel (h.item (Finset.notMem_empty _)) hold hnew
  exact fun x hx hy => hsame x hx hy hM

/-! Sizes -/

/-- The positions are positions of the two sequences, whose lengths `n` and `m` differ by as
many items as came in and went out. -/
structure Fits (D I : Finset ℕ) (n m : ℕ) : Prop where
  old : D ⊆ Finset.range n
  new : I ⊆ Finset.range m
  size : n+I.card = m+D.card

variable {n m k : ℕ}

theorem unshift_of_subset (h : S ⊆ Finset.range n) : unshift S n+S.card = n := by
  have hcard := unshift_add_card (S := S) n
  have hall : S.filter (fun i => i < n) = S :=
    Finset.filter_true_of_mem (fun i hi => Finset.mem_range.mp (h hi))
  rwa [hall] at hcard

theorem Fits.rank_eq (h : Fits D I n m) : unshift D n = unshift I m := by
  have hD := unshift_of_subset h.old
  have hI := unshift_of_subset h.new
  have hsize := h.size
  omega

/-- What stays has a place in the new sequence. -/
theorem Fits.place_lt (h : Fits D I n m) {i : ℕ} (hi : i < n) (hD : i ∉ D) :
    shift I (unshift D i) < m := by
  rw [shift_lt_iff, ← h.rank_eq]
  exact unshift_lt_unshift hD hi

theorem Fits.symm (h : Fits D I n m) : Fits I D m n := ⟨h.new, h.old, h.size.symm⟩

theorem card_erased : (erased S D).card = (S \ D).card := by
  apply Finset.card_image_of_injOn
  intro i hi j hj hij
  exact unshift_inj (Finset.mem_sdiff.mp hi).2 (Finset.mem_sdiff.mp hj).2 hij

theorem card_inserted : (inserted S D).card = D.card+S.card := by
  rw [inserted, Finset.card_union_of_disjoint, Finset.card_image_of_injective _ shift_injective]
  rw [Finset.disjoint_right]
  intro i hi hD
  exact (mem_image_shift.mp hi).1 hD

theorem Fits.inserted_subset (h : Fits D I n m) (hS : S ⊆ Finset.range m) :
    inserted (erased S I) D ⊆ Finset.range n := by
  intro i hi
  rcases mem_inserted.mp hi with hi | ⟨j,hj,rfl⟩
  · exact h.old hi
  · obtain ⟨s,hs,rfl⟩ := Finset.mem_image.mp hj
    obtain ⟨hs,hI⟩ := Finset.mem_sdiff.mp hs
    exact Finset.mem_range.mpr (h.symm.place_lt (Finset.mem_range.mp (hS hs)) hI)

theorem Fits.comp (h : Fits D I n m) (h' : Fits D' I' m k) :
    Fits (inserted (erased D' I) D) (inserted (erased I D') I') n k := by
  refine ⟨h.inserted_subset h'.old, h'.symm.inserted_subset h.new, ?_⟩
  have hI := Finset.card_sdiff_add_card_inter I D'
  have hD := Finset.card_sdiff_add_card_inter D' I
  rw [Finset.inter_comm] at hD
  have h1 := h.size
  have h2 := h'.size
  rw [card_inserted, card_inserted, card_erased, card_erased]
  omega

theorem Fits.restore (h : Fits D I n m) (hf : f ∈ D) (ht : t ∈ I) :
    Fits (D.erase f) (I.erase t) n m := by
  refine ⟨(Finset.erase_subset f D).trans h.old, (Finset.erase_subset t I).trans h.new, ?_⟩
  have h1 := Finset.card_erase_add_one hf
  have h2 := Finset.card_erase_add_one ht
  have h3 := h.size
  omega

theorem Fits.carried_subset (h : Fits D I n m) (hM : M ⊆ Finset.range n)
    (hM' : M' ⊆ Finset.range m) : carried M D I M' ⊆ Finset.range m := by
  intro i hi
  rcases Finset.mem_union.mp hi with hi | hi
  · exact h.symm.inserted_subset hM (mem_inserted.mpr (Or.inr (Finset.mem_image.mp hi)))
  · exact hM' hi

theorem fits_refl (n : ℕ) : Fits ∅ ∅ n n :=
  ⟨Finset.empty_subset _, Finset.empty_subset _, rfl⟩

/-! Single edits -/

theorem transforms_insertIdx {i : ℕ} (x : α) :
    Transforms ∅ {i} ∅ xs (xs.insertIdx i x) := by
  intro k _
  rw [shift_empty, shift_singleton]
  by_cases hk : k < i
  · rw [if_pos hk, List.getElem?_insertIdx_of_lt hk]
  · rw [if_neg hk, List.getElem?_insertIdx_of_gt (by omega), Nat.add_sub_cancel]

theorem transforms_eraseIdx (i : ℕ) : Transforms {i} ∅ ∅ xs (xs.eraseIdx i) := by
  intro k _
  rw [shift_empty, shift_singleton]
  by_cases hk : k < i
  · rw [if_pos hk, List.getElem?_eraseIdx_of_lt hk]
  · rw [if_neg hk, List.getElem?_eraseIdx_of_ge (by omega)]

theorem Transforms.set (h : Transforms D I M xs ys) (i : ℕ) (x : α) :
    Transforms D I (insert i M) xs (ys.set i x) := by
  intro k hk
  rw [Finset.mem_insert, not_or] at hk
  rw [List.getElem?_set_ne (fun he => hk.1 he.symm)]
  exact h k hk.2

theorem Carries.set (h : Carries D I M xs ys f t) (i : ℕ) (x : α) :
    Carries D I (insert i M) xs (ys.set i x) f t := by
  refine ⟨h.old, h.new, ?_⟩
  intro ht
  rw [Finset.mem_insert, not_or] at ht
  rw [List.getElem?_set_ne (fun he => ht.1 he.symm)]
  exact h.item ht.2

theorem transforms_clear {n : ℕ} (hn : xs.length ≤ n) :
    Transforms (Finset.range n) ∅ M xs [] := by
  intro k _
  have hk : n ≤ shift (Finset.range n) k := by
    have h := shift_not_mem (Finset.range n) k
    rw [Finset.mem_range] at h
    omega
  rw [List.getElem?_eq_none (by omega)]
  rfl

/-- An item taken out and put in again elsewhere. -/
theorem transforms_move {i j : ℕ} {x : α} (hi : xs[i]? = some x) (hj : j < xs.length) :
    Transforms {i} {j} ∅ xs ((xs.eraseIdx i).insertIdx j x) ∧
      Carries {i} {j} ∅ xs ((xs.eraseIdx i).insertIdx j x) i j := by
  obtain ⟨hlt,_⟩ := List.getElem?_eq_some_iff.mp hi
  have hlen : j ≤ (xs.eraseIdx i).length := by
    rw [List.length_eraseIdx_of_lt hlt]
    omega
  constructor
  · have herase : Transforms {i} ∅ ∅ xs (xs.eraseIdx i) := transforms_eraseIdx i
    have h := herase.comp (transforms_insertIdx (i := j) x)
    simpa [carried] using h
  · refine ⟨Finset.mem_singleton_self i, Finset.mem_singleton_self j, ?_⟩
    intro _
    rw [hi, List.getElem?_insertIdx_self, if_pos (by omega)]

/-! Items that stay where they are -/

/-- What stays has the same position before and after. -/
structure InPlace (D I : Finset ℕ) (n m : ℕ) : Prop where
  new : I ⊆ Finset.range m
  kept : ∀ i, (i < n ∧ i ∉ D) ↔ (i < m ∧ i ∉ I)

theorem unshift_eq_of_agree {j : ℕ} (h : ∀ i, i < j → (i ∈ D ↔ i ∈ I)) :
    unshift D j = unshift I j := by
  have hset : D.filter (fun i => i < j) = I.filter (fun i => i < j) := by
    ext i
    rw [Finset.mem_filter, Finset.mem_filter]
    constructor
    · rintro ⟨hi,hlt⟩
      exact ⟨(h i hlt).mp hi, hlt⟩
    · rintro ⟨hi,hlt⟩
      exact ⟨(h i hlt).mpr hi, hlt⟩
  have hD := unshift_add_card (S := D) j
  have hI := unshift_add_card (S := I) j
  rw [hset] at hD
  omega

theorem InPlace.agree (h : InPlace D I n m) {i : ℕ} (hn : i < n) (hm : i < m) :
    i ∈ D ↔ i ∈ I := by
  have hkept := h.kept i
  constructor
  · intro hD
    by_contra hI
    exact (hkept.mpr ⟨hm, hI⟩).2 hD
  · intro hI
    by_contra hD
    exact (hkept.mp ⟨hn, hD⟩).2 hI

/-- The rank of a position among what stays. -/
theorem InPlace.unshift_eq (h : InPlace D I n m) {i : ℕ} (hn : i ≤ n) (hm : i ≤ m) :
    unshift D i = unshift I i :=
  unshift_eq_of_agree (fun _ hj => h.agree (by omega) (by omega))

theorem InPlace.place (h : InPlace D I n m) {i : ℕ} (hm : i < m) (hI : i ∉ I) :
    shift D (unshift I i) = i := by
  obtain ⟨hn,hD⟩ := (h.kept i).mpr ⟨hm, hI⟩
  rw [← h.unshift_eq (Nat.le_of_lt hn) (Nat.le_of_lt hm)]
  exact shift_unshift hD

/-- An item that stayed is given up at both ends. -/
theorem InPlace.mark {i : ℕ} (h : InPlace D I n m) (hi : i < m) :
    InPlace (if i ∈ I then D else insert i D) (insert i I) n m := by
  constructor
  · exact Finset.insert_subset (Finset.mem_range.mpr hi) h.new
  · intro j
    by_cases hin : i ∈ I
    · rw [if_pos hin, Finset.insert_eq_of_mem hin]
      exact h.kept j
    · rw [if_neg hin, Finset.mem_insert, Finset.mem_insert, not_or, not_or]
      have hkept := h.kept j
      constructor
      · rintro ⟨hj,hne,hD⟩
        obtain ⟨hm,hI⟩ := hkept.mp ⟨hj, hD⟩
        exact ⟨hm, hne, hI⟩
      · rintro ⟨hj,hne,hI⟩
        obtain ⟨hn,hD⟩ := hkept.mpr ⟨hj, hI⟩
        exact ⟨hn, hne, hD⟩

/-- The last item is given up and nothing takes its position. -/
theorem InPlace.drop (h : InPlace D I n (m+1)) :
    InPlace (if m ∈ I then D else insert m D) (I.erase m) n m := by
  constructor
  · intro i hi
    rw [Finset.mem_erase] at hi
    have hlt := Finset.mem_range.mp (h.new hi.2)
    rw [Finset.mem_range]
    omega
  · intro i
    have hkept := h.kept i
    have hlast := h.kept m
    by_cases hin : m ∈ I
    · rw [if_pos hin, hkept, Finset.mem_erase, not_and]
      constructor
      · rintro ⟨hlt,hI⟩
        have hne : i ≠ m := fun he => hI (he ▸ hin)
        exact ⟨by omega, fun _ => hI⟩
      · rintro ⟨hlt,hI⟩
        exact ⟨by omega, hI (by omega)⟩
    · rw [if_neg hin, Finset.mem_insert, not_or, Finset.mem_erase, not_and]
      constructor
      · rintro ⟨hi,hne,hD⟩
        obtain ⟨hlt,hI⟩ := hkept.mp ⟨hi, hD⟩
        exact ⟨by omega, fun _ => hI⟩
      · rintro ⟨hlt,hI⟩
        obtain ⟨hi,hD⟩ := hkept.mpr ⟨by omega, hI (by omega)⟩
        exact ⟨hi, by omega, hD⟩

/-- Rows that come in behind the others leave them where they are. -/
theorem InPlace.grow {count : ℕ} (h : InPlace D I n m) :
    InPlace D (I ∪ Finset.Ico m (m+count)) n (m+count) := by
  constructor
  · intro i hi
    rw [Finset.mem_union, Finset.mem_Ico] at hi
    rw [Finset.mem_range]
    rcases hi with hi | hi
    · have := Finset.mem_range.mp (h.new hi)
      omega
    · omega
  · intro i
    rw [h.kept i, Finset.mem_union, Finset.mem_Ico, not_or]
    constructor
    · rintro ⟨hlt,hI⟩
      exact ⟨by omega, hI, by omega⟩
    · rintro ⟨hlt,hI,hout⟩
      exact ⟨by omega, hI⟩

theorem InPlace.symm (h : InPlace D I n m) (hD : D ⊆ Finset.range n) : InPlace I D m n :=
  ⟨hD, fun i => (h.kept i).symm⟩

theorem InPlace.transforms (h : InPlace D I xs.length ys.length)
    (hsame : ∀ i, i < xs.length → i ∉ D → i ∉ M → xs[i]? = ys[i]?) : Transforms D I M xs ys := by
  intro k hM
  by_cases hlt : shift D k < xs.length
  · have hD := shift_not_mem D k
    obtain ⟨hm,hI⟩ := (h.kept _).mp ⟨hlt, hD⟩
    have hplace : shift I k = shift D k := by
      apply shift_eq hI
      rw [← h.unshift_eq (Nat.le_of_lt hlt) (Nat.le_of_lt hm), unshift_shift]
    rw [hplace] at hM ⊢
    exact hsame _ hlt hD hM
  · have hge : ys.length ≤ shift I k := by
      by_contra hm
      have hI := shift_not_mem I k
      obtain ⟨hn,_⟩ := (h.kept _).mpr ⟨Nat.lt_of_not_le hm, hI⟩
      have hplace := h.place (Nat.lt_of_not_le hm) hI
      rw [unshift_shift] at hplace
      omega
    rw [List.getElem?_eq_none (Nat.le_of_not_lt hlt), List.getElem?_eq_none hge]

theorem InPlace.fits (h : InPlace D I n m) (hD : D ⊆ Finset.range n) : Fits D I n m := by
  refine ⟨hD, h.new, ?_⟩
  have hkept : Finset.range n \ D = Finset.range m \ I := by
    ext i
    rw [Finset.mem_sdiff, Finset.mem_sdiff, Finset.mem_range, Finset.mem_range]
    exact h.kept i
  have hn := Finset.card_sdiff_add_card_eq_card hD
  have hm := Finset.card_sdiff_add_card_eq_card h.new
  rw [hkept, Finset.card_range] at hn
  rw [Finset.card_range] at hm
  omega

end SequenceDiff
