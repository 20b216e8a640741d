import CurrencyConverter.ObjectStore.ListChanges

/-! From the change sets that come in one after the other to the one that is delivered. -/
namespace ObjectStore

open SequenceDiff

namespace CollectionChangeBuilder

variable {b : Build} {c other : CollectionChangeBuilder} {α β : Type*} {view : Aspect → α → β}
  {xs ys zs : List α} {a : Aspect}

/-- A change set between two versions of rows: it is in order and right about every aspect of
the rows. -/
structure Between (b : Build) (view : Aspect → α → β) (c : CollectionChangeBuilder)
    (xs ys : List α) : Prop where
  wellFormed : WellFormed b c
  describes : ∀ a, Describes c (c.changed a) (xs.map (view a)) (ys.map (view a))

theorem between_empty (xs : List α) : Between b view {} xs xs := by
  have h (a : Aspect) := tracks_empty (b := b) (xs.map (view a))
  refine ⟨(h Aspect.identity).wellFormed, ?_⟩
  intro a
  have hnone : ({} : CollectionChangeBuilder).changed a = ∅ := by
    cases a with
    | identity => rfl
    | contents => rfl
    | column k => rfl
  rw [hnone]
  exact (h a).describes

theorem Between.merge (h : Between b view c xs ys) (h' : Between b view other ys zs)
    (hroom : IndexSet.HasRoom b c.deletions other.deletions) :
    Between b view (c.merge b other) xs zs where
  wellFormed := merge_wellFormed h.wellFormed h'.wellFormed hroom
  describes := fun a =>
    merge_describes h.wellFormed h'.wellFormed hroom a (h.describes a) (h'.describes a)

/-- Change sets that lead from version to version. -/
inductive Chain (b : Build) (view : Aspect → α → β) :
    List CollectionChangeBuilder → List α → List α → Prop
  | nil (xs : List α) : Chain b view [] xs xs
  | cons {c : CollectionChangeBuilder} {cs : List CollectionChangeBuilder} {xs ys zs : List α} :
    Between b view c xs ys → Chain b view cs ys zs → Chain b view (c :: cs) xs zs

/-- Each merge of a run has room for its deletions. -/
def RoomForAll (b : Build) : CollectionChangeBuilder → List CollectionChangeBuilder → Prop
  | _, [] => True
  | c, other :: cs => IndexSet.HasRoom b c.deletions other.deletions ∧
      RoomForAll b (c.merge b other) cs

def mergeAll (b : Build) (c : CollectionChangeBuilder) (cs : List CollectionChangeBuilder) :
    CollectionChangeBuilder :=
  cs.foldl (fun c other => c.merge b other) c

theorem Between.mergeAll {cs : List CollectionChangeBuilder} (h : Between b view c xs ys)
    (hchain : Chain b view cs ys zs) (hroom : RoomForAll b c cs) :
    Between b view (mergeAll b c cs) xs zs := by
  induction hchain generalizing c with
  | nil ys => exact h
  | cons h' _ ih => exact ih (h.merge h' hroom.1) hroom.2

/-! The set that is delivered -/

theorem finalize_modificationsNew (hc : WellFormed b c) :
    IndexSet.Represents b (c.finalize b).modificationsNew
      (c.changed Aspect.contents \ c.added) :=
  IndexSet.removeAll_represents (represents_self (hc.tracked Aspect.contents))
    (represents_self hc.insertions)

theorem finalize_modifications (hc : WellFormed b c) :
    IndexSet.Represents b (c.finalize b).modifications
      ((IndexShift.erased (c.changed Aspect.contents) c.added).image
        (IndexShift.shift c.deleted)) :=
  IndexSet.shiftForInsertAtAll_represents (IndexSet.eraseAtAll_represents
    (represents_self (hc.tracked Aspect.contents)) (represents_self hc.insertions))
    (represents_self hc.deletions)

/-- Where the row at a new position stood before. -/
noncomputable def oldPlace (c : CollectionChangeBuilder) (t : ℕ) : ℕ :=
  IndexShift.shift c.deleted (IndexShift.unshift c.added t)

theorem sorted_unique {l l' : List ℕ} (hl : l.Pairwise (· < ·)) (hl' : l'.Pairwise (· < ·))
    (h : l.toFinset = l'.toFinset) : l = l' := by
  have hperm : l.Perm l' := by
    apply (List.perm_ext_iff_of_nodup (hl.imp Nat.ne_of_lt) (hl'.imp Nat.ne_of_lt)).mpr
    intro i
    rw [← List.mem_toFinset, h, List.mem_toFinset]
  exact hperm.eq_of_pairwise (fun _ _ _ _ h h' => absurd h (Nat.lt_asymm h')) hl hl'

/-- Both lists of modifications name the same rows, in the same order. -/
theorem modifications_eq_map (hc : WellFormed b c) : (c.finalize b).modifications.asIndexes =
    (c.finalize b).modificationsNew.asIndexes.map c.oldPlace := by
  have hold := finalize_modifications hc
  have hnew := finalize_modificationsNew hc
  have hkept (t : ℕ) (ht : t ∈ (c.finalize b).modificationsNew.asIndexes) : t ∉ c.added := by
    rw [hnew.mem_asIndexes] at ht
    exact (Finset.mem_sdiff.mp ht).2
  apply sorted_unique hold.asIndexes_sorted
  · rw [List.pairwise_map]
    apply hnew.asIndexes_sorted.imp_of_mem
    intro s t hs _ hst
    exact IndexShift.shift_lt_shift.mpr (IndexShift.unshift_lt_unshift (hkept s hs) hst)
  · rw [IndexSet.toFinset_asIndexes hold]
    ext i
    rw [List.mem_toFinset, List.mem_map]
    constructor
    · intro hi
      obtain ⟨j,hj,rfl⟩ := Finset.mem_image.mp hi
      obtain ⟨t,ht,rfl⟩ := Finset.mem_image.mp hj
      exact ⟨t, (hnew.mem_asIndexes t).mpr ht, rfl⟩
    · rintro ⟨t,ht,rfl⟩
      exact Finset.mem_image_of_mem _ (Finset.mem_image_of_mem _ ((hnew.mem_asIndexes t).mp ht))

/-- A row that is not new and does not differ from the one at its old place is the only kind
that is not delivered as modified. -/
theorem Describes.delivered (h : Describes c (c.changed Aspect.contents) xs ys)
    (hc : WellFormed b c) {t : ℕ} (ht : t < ys.length) (hadded : t ∉ c.added) :
    c.oldPlace t < xs.length ∧ c.oldPlace t ∉ c.deleted ∧
      (ys[t]? ≠ xs[c.oldPlace t]? → t ∈ (c.finalize b).modificationsNew.asIndexes ∧
        c.oldPlace t ∈ (c.finalize b).modifications.asIndexes) := by
  refine ⟨h.fits.symm.place_lt ht hadded, IndexShift.shift_not_mem _ _, ?_⟩
  intro hne
  have hmark : t ∈ c.changed Aspect.contents := by
    by_contra hnot
    exact hne (h.transforms.kept_new hadded hnot)
  have hnew : t ∈ (c.finalize b).modificationsNew.asIndexes := by
    rw [(finalize_modificationsNew hc).mem_asIndexes]
    exact Finset.mem_sdiff.mpr ⟨hmark, hadded⟩
  refine ⟨hnew, ?_⟩
  rw [modifications_eq_map hc]
  exact List.mem_map_of_mem hnew

end CollectionChangeBuilder

end ObjectStore
