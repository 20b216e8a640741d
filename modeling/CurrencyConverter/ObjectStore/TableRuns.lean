import CurrencyConverter.ObjectStore.TableChanges

/-! Whole logs for a table: what the builder says of every row at their end. -/
namespace ObjectStore

open SeparatedRanges SequenceDiff CollectionChangeBuilder

variable {α β : Type*}

namespace CollectionChangeBuilder

variable {b : Build} {view : Aspect → α → β} {c c' : CollectionChangeBuilder} {xs : List α}
  {table table' : List (Option ℕ × α)}

/-! Deleting rows -/

theorem getElem?_removeSwap {l : List β} {row i : ℕ} (hi : i < l.length-1) :
    (removeSwap l row)[i]? = l[if i = row then l.length-1 else i]? := by
  have hlast : l.length-1 < l.length := by omega
  rw [removeSwap, List.getLast?_eq_getElem?, List.getElem?_eq_getElem hlast]
  change ((l.set row l[l.length-1]).dropLast)[i]? = _
  rw [List.getElem?_dropLast, List.length_set, if_pos hi, List.getElem?_set]
  by_cases hrow : i = row
  · rw [if_pos hrow.symm, if_pos (by omega), if_pos hrow, List.getElem?_eq_getElem hlast]
  · rw [if_neg (fun he => hrow he.symm), if_neg hrow]

theorem length_removeSwap (l : List β) (row : ℕ) : (removeSwap l row).length = l.length-1 := by
  rw [removeSwap]
  split
  · rename_i h
    rw [List.getLast?_eq_none_iff.mp h]
    rfl
  · rw [List.length_dropLast, List.length_set]

/-- The last range tells whether the last row is new. -/
theorem insertionsEnd_iff {last : ℕ} (hI : c.insertions.Verified b)
    (hadded : c.added ⊆ Finset.range (last+1)) :
    c.insertionsEnd = some (last+1) ↔ last ∈ c.added := by
  have hrep := represents_self hI
  have hsep := hrep.separated
  rw [insertionsEnd, show last ∈ c.added ↔ Covers c.insertions.ranges last from
    (hrep.covers_iff last).symm]
  have hbound : ∀ x, Covers c.insertions.ranges x → x < last+1 :=
    fun x hx => Finset.mem_range.mp (hadded ((hrep.covers_iff x).mp hx))
  cases hr : c.insertions.ranges using List.reverseRecOn with
  | nil => simp
  | append_singleton l r =>
    rw [hr] at hsep hbound
    have hne := hsep.nonempty r (by simp)
    have hend := hbound (r.2-1) ⟨r, by simp, by omega, by omega⟩
    rw [List.getLast?_concat, Option.map_some, Option.some_inj]
    constructor
    · intro he
      exact ⟨r, by simp, by omega, by omega⟩
    · rintro ⟨s,hs,_,hlt⟩
      have hle := ChunkedRangeVector.le_lastOf hsep hs
      rw [lastOf_concat] at hle
      omega

/-- What a row that takes the place of another one does to the deletions, the insertions and
the mapping. -/
structure MovedOver (b : Build) (c c' : CollectionChangeBuilder) (n last row : ℕ) : Prop where
  deletions : c'.deletions.Verified b
  insertions : c'.insertions.Verified b
  inPlace : InPlace c'.deleted c'.added n last
  added_eq : c'.added = insert row (c.added.erase last)
  moves_eq : c'.moves = c.moves
  modifications_eq : c'.modifications = c.modifications
  columns_eq : c'.columns = c.columns
  moved : c'.moveMapping.lookup row =
    if last ∈ c.added then c.moveMapping.lookup last else some last
  gone : c'.moveMapping.lookup last = none
  others : ∀ k, k ≠ row → k ≠ last → c'.moveMapping.lookup k = c.moveMapping.lookup k

/-- The last row leaves its place: the part of `moveOver` that all rows but the last one
share, up to the deletion of the row itself. -/
def leaveLast (b : Build) (c : CollectionChangeBuilder) (rowNdx lastRow : ℕ) :
    CollectionChangeBuilder :=
  let lastIsInsertion := c.insertionsEnd = some (lastRow+1)
  let alreadyMoved := if lastIsInsertion then c.moveMapping.lookup lastRow else none
  let mapping := match alreadyMoved with
    | some source => (c.moveMapping.insert rowNdx source).erase lastRow
    | none =>
      if c.insertions.contains rowNdx then c.moveMapping.erase rowNdx else c.moveMapping
  let c := { c with moveMapping := mapping }
  if lastIsInsertion then { c with insertions := c.insertions.remove b lastRow 1 }
  else
    let shifted := c.deletions.addShifted b (c.insertions.unshift lastRow)
    { c with deletions := shifted.1, moveMapping := c.moveMapping.insert rowNdx shifted.2 }

def takePlace (b : Build) (c : CollectionChangeBuilder) (rowNdx : ℕ) :
    CollectionChangeBuilder :=
  let c := c.addShiftedDeletion b (c.insertions.unshift rowNdx)
  { c with insertions := c.insertions.add b rowNdx }

theorem moveOver_eq {row last : ℕ} (h : row ≠ last) : c.moveOver b row last true =
    let c := c.forEachCol (fun col =>
      if col.contains last then (col.remove b last 1).add b row else col.remove b row 1)
    if c.insertions.contains row then leaveLast b c row last
    else takePlace b (leaveLast b c row last) row := by
  rw [moveOver, if_neg h]
  rfl

theorem leaveLast_spec {n last row : ℕ} (hD : c.deletions.Verified b)
    (hI : c.insertions.Verified b) (hplace : InPlace c.deleted c.added n (last+1))
    (hrow : row < last) (hunmapped : ∀ k, k ∉ c.added → c.moveMapping.lookup k = none) :
    IndexSet.Represents b (leaveLast b c row last).deletions
      (if last ∈ c.added then c.deleted else insert last c.deleted) ∧
    IndexSet.Represents b (leaveLast b c row last).insertions (c.added.erase last) ∧
    (leaveLast b c row last).moveMapping.lookup row =
      (if last ∈ c.added then c.moveMapping.lookup last else some last) ∧
    (leaveLast b c row last).moveMapping.lookup last = none ∧
    (∀ k, k ≠ row → k ≠ last →
      (leaveLast b c row last).moveMapping.lookup k = c.moveMapping.lookup k) ∧
    (leaveLast b c row last).moves = c.moves ∧
    (leaveLast b c row last).modifications = c.modifications ∧
    (leaveLast b c row last).columns = c.columns := by
  have hend := insertionsEnd_iff hI hplace.new
  have hcontains : c.insertions.contains row = true ↔ row ∈ c.added :=
    IndexSet.contains_iff (represents_self hI) row
  have hne : last ≠ row := by omega
  by_cases hin : last ∈ c.added
  · have hremove := remove_one (represents_self hI) last
    simp only [leaveLast, if_pos (hend.mpr hin), if_pos hin]
    cases hlookup : c.moveMapping.lookup last with
    | some source =>
      refine ⟨represents_self hD, hremove, ?_, AList.lookup_erase _ _, ?_, trivial, trivial, trivial⟩
      · rw [AList.lookup_erase_ne hne.symm, AList.lookup_insert]
      · intro k hkr hkl
        rw [AList.lookup_erase_ne hkl, AList.lookup_insert_ne hkr]
    | none =>
      have hmapping (k : ℕ) : (if c.insertions.contains row = true then
          c.moveMapping.erase row else c.moveMapping).lookup k =
            if k = row then none else c.moveMapping.lookup k := by
        by_cases hr : row ∈ c.added
        · rw [if_pos (hcontains.mpr hr)]
          by_cases hk : k = row
          · rw [if_pos hk, hk, AList.lookup_erase]
          · rw [if_neg hk, AList.lookup_erase_ne hk]
        · rw [if_neg (fun h => hr (hcontains.mp h))]
          by_cases hk : k = row
          · rw [if_pos hk, hk, hunmapped row hr]
          · rw [if_neg hk]
      refine ⟨represents_self hD, hremove, ?_, ?_, ?_, trivial, trivial, trivial⟩
      · rw [hmapping, if_pos rfl]
      · rw [hmapping, if_neg hne, hlookup]
      · intro k hkr _
        rw [hmapping, if_neg hkr]
  · have hadd := IndexSet.addShifted_spec (represents_self hD) (c.insertions.unshift last)
    have hback : IndexShift.shift c.deletions.indices (c.insertions.unshift last) = last := by
      rw [IndexSet.unshift_eq (represents_self hI)]
      exact hplace.place (Nat.lt_succ_self last) hin
    rw [hback] at hadd
    simp only [leaveLast, if_neg (fun h => hin (hend.mp h)), if_neg hin, hadd.2]
    refine ⟨hadd.1, ?_, AList.lookup_insert _, ?_, ?_, trivial, trivial, trivial⟩
    · rw [Finset.erase_eq_of_notMem hin]
      exact represents_self hI
    · rw [AList.lookup_insert_ne hne]
      split_ifs
      · rw [AList.lookup_erase_ne hne]
        exact hunmapped last hin
      · exact hunmapped last hin
    · intro k hkr _
      rw [AList.lookup_insert_ne hkr]
      split_ifs
      · rw [AList.lookup_erase_ne hkr]
      · rfl

theorem moveOver_movedOver {n last row : ℕ} (hD : c.deletions.Verified b)
    (hI : c.insertions.Verified b) (hplace : InPlace c.deleted c.added n (last+1))
    (hrow : row < last) (hunmapped : ∀ k, k ∉ c.added → c.moveMapping.lookup k = none) :
    MovedOver b c (if c.insertions.contains row then leaveLast b c row last
      else takePlace b (leaveLast b c row last) row) n last row := by
  obtain ⟨hdel,hins,hmoved,hgone,hothers,hmoves,hmod,hcol⟩ :=
    leaveLast_spec hD hI hplace hrow hunmapped
  have hcontains : c.insertions.contains row = true ↔ row ∈ c.added :=
    IndexSet.contains_iff (represents_self hI) row
  have hdrop := hplace.drop
  have hmark := hdrop.mark hrow
  have hmem : row ∈ c.added.erase last ↔ row ∈ c.added := by
    rw [Finset.mem_erase]
    exact and_iff_right (Nat.ne_of_lt hrow)
  by_cases hr : row ∈ c.added
  · rw [if_pos (hcontains.mpr hr)]
    have hinsert : insert row (c.added.erase last) = c.added.erase last :=
      Finset.insert_eq_of_mem (hmem.mpr hr)
    refine ⟨hdel.verified, hins.verified, ?_, ?_, hmoves, hmod, hcol, hmoved, hgone, hothers⟩
    · rw [deleted, added, hdel.indices_eq, hins.indices_eq]
      exact hdrop
    · rw [added, hins.indices_eq, hinsert]
  · rw [if_neg (fun h => hr (hcontains.mp h))]
    rw [if_neg (fun h => hr (hmem.mp h))] at hmark
    have hadd := (IndexSet.addShifted_spec hdel
      ((leaveLast b c row last).insertions.unshift row)).1
    have hback : IndexShift.shift (if last ∈ c.added then c.deleted else insert last c.deleted)
        ((leaveLast b c row last).insertions.unshift row) = row := by
      rw [IndexSet.unshift_eq hins]
      exact hdrop.place hrow (fun h => hr (hmem.mp h))
    rw [hback] at hadd
    have hadd' := IndexSet.add_represents hins row
    refine ⟨hadd.verified, hadd'.verified, ?_, hadd'.indices_eq, hmoves, hmod, hcol, hmoved,
      hgone, hothers⟩
    rw [show (takePlace b (leaveLast b c row last) row).deleted = _ from hadd.indices_eq,
      show (takePlace b (leaveLast b c row last) row).added = _ from hadd'.indices_eq]
    exact hmark

/-- The marks when the last row takes the place of another one. -/
def movedOverMarks (last row : ℕ) (S : Finset ℕ) : Finset ℕ :=
  if last ∈ S then insert row (S.erase last) else S.erase row

theorem mem_movedOverMarks {last row k : ℕ} (hrow : row < last) {S : Finset ℕ} :
    k ∈ movedOverMarks last row S ↔ k ≠ last ∧ (if k = row then last else k) ∈ S := by
  rw [movedOverMarks]
  by_cases hk : k = row
  · rw [if_pos hk, hk]
    by_cases hin : last ∈ S
    · rw [if_pos hin]
      exact iff_of_true (Finset.mem_insert_self _ _) ⟨by omega, hin⟩
    · rw [if_neg hin]
      exact iff_of_false (Finset.notMem_erase _ _) (fun h => hin h.2)
  · rw [if_neg hk]
    split_ifs with hin
    · rw [Finset.mem_insert, Finset.mem_erase]
      exact or_iff_right hk
    · rw [Finset.mem_erase]
      refine and_congr_left ?_
      intro hS
      exact iff_of_true hk (fun he => hin (he ▸ hS))

theorem represents_movedOver {v : IndexSet} {S : Finset ℕ} (hv : IndexSet.Represents b v S)
    (last row : ℕ) : IndexSet.Represents b
      (if v.contains last then (v.remove b last 1).add b row else v.remove b row 1)
      (movedOverMarks last row S) := by
  have hcontains := IndexSet.contains_iff hv last
  rw [movedOverMarks]
  by_cases hin : last ∈ S
  · rw [if_pos (hcontains.mpr hin), if_pos hin]
    exact IndexSet.add_represents (remove_one hv last) row
  · rw [if_neg (fun h => hin (hcontains.mp h)), if_neg hin]
    exact remove_one hv row

theorem Follows.movedOver {last row : ℕ} (h : Follows b view c xs table)
    (hlen : table.length = last+1) (hrow : row < last)
    (hx : MovedOver b (c.forEachCol (fun col =>
      if col.contains last then (col.remove b last 1).add b row else col.remove b row 1)) c'
      xs.length last row) : Follows b view c' xs (removeSwap table row) := by
  have hcols (a : Aspect) : IndexSet.Represents b (c'.tracked a)
      (movedOverMarks last row (c.changed a)) := by
    rw [tracked_congr hx.modifications_eq hx.columns_eq]
    exact represents_forEachCol (F := movedOverMarks last row) (by simp [movedOverMarks])
      (fun v S hv => represents_movedOver hv last row)
      (fun a => represents_self (h.tracked a)) a
  have hchanged (a : Aspect) : c'.changed a = movedOverMarks last row (c.changed a) :=
    (hcols a).indices_eq
  have hlen' : (removeSwap table row).length = last := by
    rw [length_removeSwap, hlen]
    rfl
  have hlast {i : ℕ} (hi : i < (removeSwap table row).length) : i < last := by
    rwa [hlen'] at hi
  refine h.rearrange (fun k => if k = row then last else k) ?_ ?_ hx.deletions hx.insertions
    (fun a => (hcols a).verified) ?_ ?_ (hx.moves_eq.trans h.no_moves) ?_ ?_ ?_ ?_ ?_
  · intro i hi
    have hi' := hlast hi
    rw [getElem?_removeSwap (by omega), hlen]
    rfl
  · intro i j hi hj he
    have hi' := hlast hi
    have hj' := hlast hj
    split_ifs at he <;> omega
  · intro a k hk
    rw [hchanged, mem_movedOverMarks hrow] at hk ⊢
    exact ⟨hk.1, h.within a hk.2⟩
  · intro a k hk
    rw [hchanged, mem_movedOverMarks hrow] at hk
    have hin := Finset.mem_range.mp (h.marks a hk.2)
    rw [hlen', Finset.mem_range]
    split_ifs at hin <;> omega
  · rw [hlen']
    exact hx.inPlace
  · intro k hk
    rw [hx.added_eq, Finset.mem_insert, not_or, Finset.mem_erase, not_and] at hk
    by_cases hkl : k = last
    · rw [hkl]
      exact hx.gone
    · rw [hx.others k hk.1 hkl]
      exact h.unmapped k (hk.2 hkl)
  · intro k hklt hk
    have hklt' := hlast hklt
    rw [hx.added_eq, Finset.mem_insert, not_or, Finset.mem_erase, not_and] at hk
    exact ⟨hk.2 (by omega), if_neg hk.1⟩
  · intro k hklt hk
    have hklt' := hlast hklt
    by_cases hkr : k = row
    · rw [if_pos hkr, hkr]
      exact hx.moved
    rw [hx.added_eq, Finset.mem_insert, Finset.mem_erase] at hk
    have hin : k ∈ c.added := (hk.resolve_left hkr).2
    rw [if_neg hkr, if_pos hin]
    exact hx.others k hkr (by omega)
  · intro a k hklt hk
    have hklt' := hlast hklt
    rw [hchanged, mem_movedOverMarks hrow]
    exact ⟨by omega, hk⟩

theorem erased_last {last : ℕ} {S : Finset ℕ} (hS : S ⊆ Finset.range (last+1)) :
    IndexShift.erased S {last} = S.erase last := by
  ext k
  rw [IndexShift.mem_erased, IndexShift.shift_singleton, Finset.mem_erase]
  split_ifs with hk
  · exact (and_iff_right (Nat.ne_of_lt hk)).symm
  · have hout {i : ℕ} (hi : i ∈ S) : i < last+1 := Finset.mem_range.mp (hS hi)
    constructor
    · intro h
      have := hout h
      omega
    · rintro ⟨hne,h⟩
      have := hout h
      omega

/-- The deletions after the last row has gone. -/
def lastDeletion (b : Build) (c : CollectionChangeBuilder) (last : ℕ) : IndexSet :=
  match (c.insertions.eraseOrUnshift last).2 with
  | some unshifted => (c.deletions.addShifted b unshifted).1
  | none => c.deletions

theorem moveOver_last_eq (last : ℕ) : c.moveOver b last last true =
    { c.forEachCol (fun col => col.remove b last 1) with
      deletions := lastDeletion b c last
      insertions := (c.insertions.eraseOrUnshift last).1
      moveMapping := c.moveMapping.erase last } := by
  simp only [moveOver, if_pos, lastDeletion]
  cases (c.insertions.eraseOrUnshift last).2 with
  | none => rfl
  | some unshifted => rfl

theorem lastDeletion_represents {n last : ℕ} (hD : c.deletions.Verified b)
    (hI : c.insertions.Verified b) (hplace : InPlace c.deleted c.added n (last+1)) :
    IndexSet.Represents b (lastDeletion b c last)
      (if last ∈ c.added then c.deleted else insert last c.deleted) := by
  have hunshift : (c.insertions.eraseOrUnshift last).2 =
      if last ∈ c.added then none else some (IndexShift.unshift c.added last) :=
    (IndexSet.eraseOrUnshift_spec (represents_self hI) last).2
  rw [lastDeletion, hunshift]
  by_cases hin : last ∈ c.added
  · rw [if_pos hin, if_pos hin]
    exact represents_self hD
  · have hadd := (IndexSet.addShifted_spec (represents_self hD)
      (IndexShift.unshift c.added last)).1
    have hback : IndexShift.shift c.deletions.indices (IndexShift.unshift c.added last) = last :=
      hplace.place (Nat.lt_succ_self last) hin
    rw [hback] at hadd
    rw [if_neg hin, if_neg hin]
    exact hadd

/-- The last row goes and no other row takes its place. -/
theorem moveOver_last {last : ℕ} (h : Follows b view c xs table)
    (hlen : table.length = last+1) :
    Follows b view (c.moveOver b last last true) xs (removeSwap table last) := by
  have hcols := represents_forEachCol (b := b) (c := c) (f := fun col => col.remove b last 1)
    (F := fun S => S.erase last) (by simp) (fun v S hv => remove_one hv last)
    (fun a => represents_self (h.tracked a))
  have hplace : InPlace c.deleted c.added xs.length (last+1) := hlen ▸ h.inPlace
  have hdel := lastDeletion_represents h.deletions h.insertions hplace
  have hins := (IndexSet.eraseOrUnshift_spec (represents_self h.insertions) last).1
  rw [show c.insertions.indices = c.added from rfl, erased_last hplace.new] at hins
  have hlen' : (removeSwap table last).length = last := by
    rw [length_removeSwap, hlen]
    rfl
  have hlast {i : ℕ} (hi : i < (removeSwap table last).length) : i ≠ last := by
    rw [hlen'] at hi
    exact Nat.ne_of_lt hi
  have hchanged (a : Aspect) : (c.moveOver b last last true).changed a =
      (c.changed a).erase last := by
    rw [moveOver_last_eq]
    exact (hcols a).indices_eq
  have hadded : (c.moveOver b last last true).added = c.added.erase last := by
    rw [moveOver_last_eq]
    exact hins.indices_eq
  have hdeleted : (c.moveOver b last last true).deleted =
      if last ∈ c.added then c.deleted else insert last c.deleted := by
    rw [moveOver_last_eq]
    exact hdel.indices_eq
  have hmapping : (c.moveOver b last last true).moveMapping = c.moveMapping.erase last := by
    rw [moveOver_last_eq]
  apply h.rearrange id
  · intro i hi
    have hne := hlast hi
    rw [hlen'] at hi
    rw [getElem?_removeSwap (by omega), if_neg hne]
    rfl
  · exact fun i j _ _ he => he
  · rw [moveOver_last_eq]
    exact hdel.verified
  · rw [moveOver_last_eq]
    exact hins.verified
  · intro a
    rw [moveOver_last_eq]
    exact (hcols a).verified
  · intro a
    rw [hchanged, hchanged]
    exact Finset.erase_subset_erase last (h.within a)
  · intro a k hk
    rw [hchanged, Finset.mem_erase] at hk
    have hlt := Finset.mem_range.mp (h.marks a hk.2)
    rw [hlen', Finset.mem_range]
    omega
  · rw [moveOver_last_eq]
    exact h.no_moves
  · rw [hdeleted, hadded, hlen']
    exact hplace.drop
  · intro i hi
    rw [hadded, Finset.mem_erase, not_and] at hi
    rw [hmapping]
    by_cases hil : i = last
    · rw [hil, AList.lookup_erase]
    · rw [AList.lookup_erase_ne hil]
      exact h.unmapped i (hi hil)
  · intro i hi hin
    rw [hadded, Finset.mem_erase, not_and] at hin
    exact ⟨hin (hlast hi), rfl⟩
  · intro i hi hin
    rw [hadded, Finset.mem_erase] at hin
    rw [hmapping, AList.lookup_erase_ne hin.1, id, if_pos hin.2]
  · intro a i hi hin
    rw [hchanged, Finset.mem_erase]
    exact ⟨hlast hi, hin⟩

theorem eraseRow_follows {row : ℕ} (h : Follows b view c xs table) (hrow : row < table.length) :
    Follows b view (c.moveOver b row (table.length-1) true) xs (removeSwap table row) := by
  obtain ⟨last,hlen⟩ : ∃ last, table.length = last+1 := ⟨table.length-1, by omega⟩
  have hlast : table.length-1 = last := by omega
  rw [hlast]
  by_cases hr : row = last
  · rw [hr]
    exact moveOver_last h hlen
  · rw [moveOver_eq hr]
    apply h.movedOver hlen (by omega)
    have hplace : InPlace c.deleted c.added xs.length (last+1) := hlen ▸ h.inPlace
    exact moveOver_movedOver h.deletions h.insertions hplace (by omega) h.unmapped

/-! New rows, changed rows and empty tables -/

theorem image_shift_end {m count : ℕ} {S : Finset ℕ} (hS : S ⊆ Finset.range m) :
    S.image (IndexShift.shift (Finset.Ico m (m+count))) = S := by
  have hsame : ∀ i ∈ S, IndexShift.shift (Finset.Ico m (m+count)) i = id i := by
    intro i hi
    rw [IndexShift.shift_Ico, if_pos (Finset.mem_range.mp (hS hi))]
    rfl
  rw [Finset.image_congr hsame, Finset.image_id]

theorem shiftMapping_end {mapping : AList (fun _ : ℕ => ℕ)} {m : ℕ}
    (hm : ∀ k, m ≤ k → mapping.lookup k = none) (count : ℕ) :
    shiftMapping mapping m count = mapping := by
  have hnone : mapping.entries.filter (fun e => e.1 ≥ m) = [] := by
    rw [List.filter_eq_nil_iff]
    rintro ⟨k,o⟩ he hk
    have hlookup := AList.mem_lookup_iff.mpr he
    rw [hm k (of_decide_eq_true hk)] at hlookup
    exact absurd hlookup (by simp)
  rw [shiftMapping]
  simp only [hnone]
  rfl

theorem insert_follows {rows : List α} (h : Follows b view c xs table) (hrows : rows ≠ []) :
    Follows b view (c.insert b table.length rows.length true) xs
      (table ++ rows.map (fun value => (none,value))) := by
  have hcount : 0 < rows.length := List.length_pos_iff.mpr hrows
  have hcols := represents_forEachCol (b := b) (c := c)
    (f := fun col => col.shiftForInsertAt b table.length rows.length)
    (F := fun S => S.image
      (IndexShift.shift (Finset.Ico table.length (table.length+rows.length)))) (by simp)
    (fun v S hv => IndexSet.shiftForInsertAt_represents hv table.length hcount)
    (fun a => represents_self (h.tracked a))
  have hchanged (a : Aspect) :
      (c.insert b table.length rows.length true).changed a = c.changed a :=
    (hcols a).indices_eq.trans (image_shift_end (h.marks a))
  have hins := IndexSet.insertAt_represents (represents_self h.insertions)
    table.length rows.length
  have hadded : (c.insert b table.length rows.length true).added =
      c.added ∪ Finset.Ico table.length (table.length+rows.length) := by
    refine hins.indices_eq.trans ?_
    rw [IndexShift.inserted, show c.insertions.indices = c.added from rfl,
      image_shift_end h.inPlace.new, Finset.union_comm]
  have hmapping : (c.insert b table.length rows.length true).moveMapping = c.moveMapping := by
    apply shiftMapping_end
    intro k hk
    apply h.unmapped
    intro hin
    have := Finset.mem_range.mp (h.inPlace.new hin)
    omega
  have hold {i : ℕ} {r : Option ℕ × α} {o : ℕ}
      (hr : (table ++ rows.map (fun value => (none,value)))[i]? = some r) (hro : r.1 = some o) :
      table[i]? = some r := by
    by_cases hi : i < table.length
    · rwa [List.getElem?_append_left hi] at hr
    · rw [List.getElem?_append_right (Nat.le_of_not_lt hi), List.getElem?_map] at hr
      obtain ⟨value,_,rfl⟩ := Option.map_eq_some_iff.mp hr
      exact absurd hro (by simp)
  have hlen : (table ++ rows.map (fun value => ((none : Option ℕ),value))).length =
      table.length+rows.length := by
    rw [List.length_append, List.length_map]
  refine ⟨h.deletions, hins.verified, fun a => (hcols a).verified, ?_, ?_, ?_, ?_, ?_, ?_, ?_,
    ?_, ?_⟩
  · intro a
    rw [hchanged, hchanged]
    exact h.within a
  · intro a
    rw [hchanged, hlen]
    exact (h.marks a).trans (Finset.range_subset_range.mpr (Nat.le_add_right _ _))
  · change c.moves.map _ = []
    rw [h.no_moves]
    rfl
  · rw [hadded, hlen]
    exact h.inPlace.grow
  · intro i hi
    rw [hadded, Finset.mem_union, not_or] at hi
    rw [hmapping]
    exact h.unmapped i hi.1
  · intro i r hr
    rw [hadded, hmapping]
    by_cases hi : i < table.length
    · rw [List.getElem?_append_left hi] at hr
      have hout : i ∉ Finset.Ico table.length (table.length+rows.length) := by
        rw [Finset.mem_Ico]
        omega
      have hiff : i ∈ c.added ∪ Finset.Ico table.length (table.length+rows.length) ↔
          i ∈ c.added := by
        rw [Finset.mem_union]
        exact or_iff_left hout
      rw [h.origin i r hr]
      simp only [hiff]
    · have hlt := (List.getElem?_eq_some_iff.mp hr).1
      rw [hlen] at hlt
      rw [List.getElem?_append_right (Nat.le_of_not_lt hi), List.getElem?_map] at hr
      obtain ⟨value,_,rfl⟩ := Option.map_eq_some_iff.mp hr
      have hin : i ∈ c.added ∪ Finset.Ico table.length (table.length+rows.length) := by
        rw [Finset.mem_union, Finset.mem_Ico]
        exact Or.inr ⟨Nat.le_of_not_lt hi, hlt⟩
      rw [if_pos hin]
      refine (h.unmapped i ?_).symm
      intro hin'
      exact hi (Finset.mem_range.mp (h.inPlace.new hin'))
  · exact fun i j r s o hr hs hro hso => h.distinct i j r s o (hold hr hro) (hold hs hso) hro hso
  · exact fun i r o hr hro => h.old i r o (hold hr hro) hro
  · intro a i r o hr hro hnot
    rw [hchanged] at hnot
    exact h.same a i r o (hold hr hro) hro hnot

/-- The sets of a row that is changed in a column. -/
theorem modify_tracked (h : ∀ a, (c.tracked a).Verified b) (row col : ℕ) (a : Aspect) :
    IndexSet.Represents b ((c.modify b row (some col)).tracked a)
      (if a = Aspect.contents ∨ a = Aspect.column col then Insert.insert row (c.changed a)
        else c.changed a) := by
  cases a with
  | identity =>
    rw [if_neg (by simp)]
    exact represents_self (h Aspect.identity)
  | contents =>
    rw [if_pos (Or.inl rfl)]
    exact IndexSet.add_represents (represents_self (h Aspect.contents)) row
  | column k =>
    have hk := getD_grow c.columns (col+1) k
    change IndexSet.Represents b
      (((grow c.columns (col+1)).modify col (fun set => set.add b row))[k]?.getD { data := [] }) _
    rw [List.getElem?_modify]
    by_cases he : col = k
    · have hlt : k < (grow c.columns (col+1)).length := by
        rw [length_grow]
        omega
      rw [if_pos (Or.inr (congrArg Aspect.column he.symm)), List.getElem?_eq_getElem hlt]
      simp only [if_pos he]
      rw [List.getElem?_eq_getElem hlt] at hk
      have hset : (grow c.columns (col+1))[k] = c.tracked (Aspect.column k) := hk
      change IndexSet.Represents b ((grow c.columns (col+1))[k].add b row) _
      rw [hset]
      exact IndexSet.add_represents (represents_self (h (Aspect.column k))) row
    · have hne : ¬ (Aspect.column k = Aspect.contents ∨ Aspect.column k = Aspect.column col) := by
        rintro (hc | hc)
        · exact absurd hc (by simp)
        · exact he (Aspect.column.inj hc).symm
      simp only [if_neg hne, if_neg he, Option.map_eq_map, Option.map_id_fun', id, hk]
      exact represents_self (h (Aspect.column k))

theorem set_follows {row col : ℕ} {r : Option ℕ × α} {value : α}
    (h : Follows b view c xs table) (hr : table[row]? = some r)
    (hview : ∀ a, a ≠ Aspect.contents → a ≠ Aspect.column col → view a value = view a r.2) :
    Follows b view (c.modify b row (some col)) xs
      (table.modify row (fun r => (r.1,value))) := by
  have hcols := modify_tracked h.tracked row col
  have hrow : row < table.length := (List.getElem?_eq_some_iff.mp hr).1
  have hchanged (a : Aspect) : (c.modify b row (some col)).changed a =
      if a = Aspect.contents ∨ a = Aspect.column col then Insert.insert row (c.changed a)
      else c.changed a := (hcols a).indices_eq
  have hsub (a : Aspect) : c.changed a ⊆ (c.modify b row (some col)).changed a := by
    rw [hchanged]
    split_ifs
    · exact Finset.subset_insert _ _
    · exact Finset.Subset.refl _
  have hget {i : ℕ} {s : Option ℕ × α}
      (hs : (table.modify row (fun r => (r.1,value)))[i]? = some s) :
      ∃ s', table[i]? = some s' ∧ s.1 = s'.1 ∧ s.2 = if row = i then value else s'.2 := by
    rw [List.getElem?_modify] at hs
    obtain ⟨s',hs',rfl⟩ := Option.map_eq_some_iff.mp hs
    refine ⟨s', hs', ?_, ?_⟩
    · split_ifs
      · rfl
      · rfl
    · split_ifs
      · rfl
      · rfl
  have hlen : (table.modify row (fun r => (r.1,value))).length = table.length :=
    List.length_modify _ _ _
  refine ⟨h.deletions, h.insertions, fun a => (hcols a).verified, ?_, ?_, h.no_moves, ?_,
    h.unmapped, ?_, ?_, ?_, ?_⟩
  · intro a
    rw [hchanged Aspect.contents, if_pos (Or.inl rfl), hchanged]
    split_ifs
    · exact Finset.insert_subset_insert row (h.within a)
    · exact (h.within a).trans (Finset.subset_insert _ _)
  · intro a
    rw [hchanged, hlen]
    split_ifs
    · exact Finset.insert_subset (Finset.mem_range.mpr hrow) (h.marks a)
    · exact h.marks a
  · rw [hlen]
    exact h.inPlace
  · intro i s hs
    obtain ⟨s',hs',hkey,_⟩ := hget hs
    rw [hkey]
    exact h.origin i s' hs'
  · intro i j s t o hs ht hso hto
    obtain ⟨s',hs',hks,_⟩ := hget hs
    obtain ⟨t',ht',hkt,_⟩ := hget ht
    exact h.distinct i j s' t' o hs' ht' (hks ▸ hso) (hkt ▸ hto)
  · intro i s o hs hso
    obtain ⟨s',hs',hkey,_⟩ := hget hs
    exact h.old i s' o hs' (hkey ▸ hso)
  · intro a i s o hs hso hnot
    obtain ⟨s',hs',hkey,hval⟩ := hget hs
    rw [h.same a i s' o hs' (hkey ▸ hso) (fun hin => hnot (hsub a hin)), hval]
    by_cases hi : row = i
    · rw [hchanged] at hnot
      have hother : ¬ (a = Aspect.contents ∨ a = Aspect.column col) := by
        intro ha
        rw [if_pos ha, hi] at hnot
        exact hnot (Finset.mem_insert_self _ _)
      rw [not_or] at hother
      have hsr : s' = r := Option.some.inj (hs'.symm.trans (hi ▸ hr))
      rw [if_pos hi, hsr, hview a hother.1 hother.2]
    · rw [if_neg hi]

/-- No size is known of a table that is cleared: every number is deleted then. -/
theorem clear_follows (hsize : xs.length ≤ npos b) :
    Follows b view (c.clear b (npos b)) xs [] := by
  have hval : c.clear b (npos b) = { deletions := c.deletions.set b (npos b) } := by
    rw [clear, if_neg (by simp)]
  have hset := IndexSet.set_represents (b := b) (v := c.deletions) (npos b)
  have hnone (a : Aspect) : ({ deletions := c.deletions.set b (npos b) } :
      CollectionChangeBuilder).tracked a = { data := [] } := by
    cases a with
    | identity => rfl
    | contents => rfl
    | column k => rfl
  have hchanged (a : Aspect) : ({ deletions := c.deletions.set b (npos b) } :
      CollectionChangeBuilder).changed a = ∅ := by
    rw [changed, hnone]
    rfl
  rw [hval]
  refine ⟨hset.verified, IndexSet.represents_empty.verified, ?_, ?_, ?_, rfl, ?_,
    fun _ _ => rfl, by simp, by simp, by simp, by simp⟩
  · intro a
    rw [hnone]
    exact IndexSet.represents_empty.verified
  · intro a
    rw [hchanged]
    exact Finset.empty_subset _
  · intro a
    rw [hchanged]
    exact Finset.empty_subset _
  · have hdeleted : ({ deletions := c.deletions.set b (npos b) } :
        CollectionChangeBuilder).deleted = Finset.range (npos b) := hset.indices_eq
    rw [hdeleted]
    refine ⟨Finset.empty_subset _, ?_⟩
    intro i
    rw [Finset.mem_range, List.length_nil]
    omega

/-! Whole logs -/

/-- One instruction keeps the builder on the table. -/
theorem observe_follows (h : Follows b view c xs table) (hsize : xs.length ≤ npos b)
    (i : TableInstruction α) (hi : i.Fits view table) :
    Follows b view (i.observe b table.length c) xs (i.apply table) := by
  cases i with
  | set row col value =>
    obtain ⟨r,hr,hview⟩ := hi
    exact set_follows h hr hview
  | insertEmptyRows rows => exact insert_follows h hi
  | eraseRow row => exact eraseRow_follows h hi
  | swapRows row1 row2 => exact swap_follows h hi.1 hi.2
  | clear => exact clear_follows hsize

end CollectionChangeBuilder

namespace TableInstruction

/-- Each instruction can stand where it does. -/
def FitAll (view : Aspect → α → β) :
    List (TableInstruction α) → List (Option ℕ × α) → Prop
  | [], _ => True
  | i :: log, table => i.Fits view table ∧ FitAll view log (i.apply table)

def applyAll (log : List (TableInstruction α)) (table : List (Option ℕ × α)) :
    List (Option ℕ × α) := log.foldl (fun table i => i.apply table) table

/-- The observer reads each instruction beside the number of rows the log notes with it. -/
def observeAll (b : Build) : List (TableInstruction α) → List (Option ℕ × α) →
    CollectionChangeBuilder → CollectionChangeBuilder
  | [], _, c => c
  | i :: log, table, c => observeAll b log (i.apply table) (i.observe b table.length c)

end TableInstruction

namespace CollectionChangeBuilder

variable {b : Build} {view : Aspect → α → β} {c c' : CollectionChangeBuilder} {xs : List α}
  {table table' : List (Option ℕ × α)}

theorem observeAll_follows (log : List (TableInstruction α)) (h : Follows b view c xs table)
    (hsize : xs.length ≤ npos b) (hlog : TableInstruction.FitAll view log table) :
    Follows b view (TableInstruction.observeAll b log table c) xs
      (TableInstruction.applyAll log table) := by
  induction log generalizing c table with
  | nil => exact h
  | cons i log ih => exact ih (observe_follows h hsize i hlog.1) hlog.2

/-! The end of the log -/

/-- What the observer leaves behind: the rows that are not where they were, each with the way
it went. -/
structure Reports (b : Build) (view : Aspect → α → β) (c : CollectionChangeBuilder)
    (xs : List α) (table : List (Option ℕ × α)) : Prop where
  wellFormed : WellFormed b c
  added_iff : ∀ (j : ℕ) (r : Option ℕ × α), table[j]? = some r → (j ∈ c.added ↔ r.1 ≠ some j)
  added_lt : ∀ j ∈ c.added, j < table.length
  deleted_iff : ∀ o, o < xs.length →
    (o ∈ c.deleted ↔ ∀ r : Option ℕ × α, table[o]? = some r → r.1 ≠ some o)
  moves_iff : ∀ o j, (⟨o,j⟩ : Move) ∈ c.moves ↔
    o ≠ j ∧ ∃ r : Option ℕ × α, table[j]? = some r ∧ r.1 = some o
  sorted : c.moves.Pairwise (fun m n => m.from < n.from)
  old : ∀ (i : ℕ) (r : Option ℕ × α) (o : ℕ), table[i]? = some r → r.1 = some o → o < xs.length
  same : ∀ a (i : ℕ) (r : Option ℕ × α) (o : ℕ), table[i]? = some r → r.1 = some o →
    i ∉ c.changed a → xs[o]?.map (view a) = some (view a r.2)

/-- The rows of the mapping that are back where they were. -/
def returned (entries : List (Sigma (fun _ : ℕ => ℕ))) : Finset ℕ :=
  ((entries.filter (fun e => e.1 = e.2)).map Sigma.fst).toFinset

/-- The moves of the other rows. -/
def movesOf (entries : List (Sigma (fun _ : ℕ => ℕ))) : List Move :=
  (entries.filter (fun e => e.1 ≠ e.2)).map (fun e => ⟨e.2,e.1⟩)

structure Parsed (b : Build) (c c' : CollectionChangeBuilder) (B : Finset ℕ)
    (moves : List Move) : Prop where
  deletions : IndexSet.Represents b c'.deletions (c.deleted \ B)
  insertions : IndexSet.Represents b c'.insertions (c.added \ B)
  moves_eq : c'.moves = c.moves ++ moves
  modifications_eq : c'.modifications = c.modifications
  columns_eq : c'.columns = c.columns

theorem Parsed.trans {c₁ c₂ : CollectionChangeBuilder} {B B' : Finset ℕ} {l l' : List Move}
    (h : Parsed b c c₁ B l) (h' : Parsed b c₁ c₂ B' l') : Parsed b c c₂ (B ∪ B') (l ++ l') := by
  have hD := h'.deletions
  have hI := h'.insertions
  rw [deleted, h.deletions.indices_eq, sdiff_sdiff] at hD
  rw [added, h.insertions.indices_eq, sdiff_sdiff] at hI
  refine ⟨hD, hI, ?_, h'.modifications_eq.trans h.modifications_eq,
    h'.columns_eq.trans h.columns_eq⟩
  rw [h'.moves_eq, h.moves_eq, List.append_assoc]

theorem parseMove_parsed (hD : c.deletions.Verified b) (hI : c.insertions.Verified b)
    (e : Sigma (fun _ : ℕ => ℕ)) :
    Parsed b c (c.parseMove b (e.1,e.2)) (returned [e]) (movesOf [e]) := by
  by_cases he : e.1 = e.2
  · have hval : c.parseMove b (e.1,e.2) = { c with
        deletions := c.deletions.remove b e.2 1
        insertions := c.insertions.remove b e.1 1 } := by
      rw [parseMove, if_pos he]
    have hback : returned [e] = {e.1} := by
      simp [returned, he]
    have hmoves : movesOf [e] = [] := by
      simp [movesOf, he]
    rw [hval, hback, hmoves]
    refine ⟨?_, ?_, (List.append_nil _).symm, rfl, rfl⟩
    · rw [Finset.sdiff_singleton_eq_erase, he]
      exact remove_one (represents_self hD) e.2
    · rw [Finset.sdiff_singleton_eq_erase]
      exact remove_one (represents_self hI) e.1
  · have hval : c.parseMove b (e.1,e.2) = { c with moves := c.moves ++ [⟨e.2,e.1⟩] } := by
      rw [parseMove, if_neg he]
    have hback : returned [e] = ∅ := by
      simp [returned, he]
    have hmoves : movesOf [e] = [⟨e.2,e.1⟩] := by
      simp [movesOf, he]
    rw [hval, hback, hmoves]
    refine ⟨?_, ?_, rfl, rfl, rfl⟩
    · rw [Finset.sdiff_empty]
      exact represents_self hD
    · rw [Finset.sdiff_empty]
      exact represents_self hI

theorem parseMoves_parsed (entries : List (Sigma (fun _ : ℕ => ℕ)))
    (hD : c.deletions.Verified b) (hI : c.insertions.Verified b) :
    Parsed b c (entries.foldl (fun c move => c.parseMove b (move.1,move.2)) c)
      (returned entries) (movesOf entries) := by
  induction entries generalizing c with
  | nil =>
    refine ⟨?_, ?_, (List.append_nil _).symm, rfl, rfl⟩
    · rw [show returned [] = ∅ from rfl, Finset.sdiff_empty]
      exact represents_self hD
    · rw [show returned [] = ∅ from rfl, Finset.sdiff_empty]
      exact represents_self hI
  | cons e entries ih =>
    have hfirst := parseMove_parsed hD hI e
    have hrest := hfirst.trans (ih hfirst.deletions.verified hfirst.insertions.verified)
    have hback : returned (e :: entries) = returned [e] ∪ returned entries := by
      rw [returned, ← List.singleton_append, List.filter_append, List.map_append,
        List.toFinset_append]
      rfl
    have hmoves : movesOf (e :: entries) = movesOf [e] ++ movesOf entries := by
      rw [movesOf, ← List.singleton_append, List.filter_append, List.map_append]
      rfl
    rw [hback, hmoves]
    exact hrest

theorem mem_returned {mapping : AList (fun _ : ℕ => ℕ)} {i : ℕ} :
    i ∈ returned mapping.entries ↔ mapping.lookup i = some i := by
  rw [returned, List.mem_toFinset, List.mem_map]
  constructor
  · rintro ⟨⟨k,o⟩,he,rfl⟩
    rw [List.mem_filter, decide_eq_true_iff] at he
    have hlookup := AList.mem_lookup_iff.mpr he.1
    have hsame : k = o := he.2
    rwa [← hsame] at hlookup
  · intro hlookup
    refine ⟨⟨i,i⟩, ?_, rfl⟩
    rw [List.mem_filter, decide_eq_true_iff]
    exact ⟨AList.mem_lookup_iff.mp hlookup, rfl⟩

theorem mem_movesOf {mapping : AList (fun _ : ℕ => ℕ)} {o j : ℕ} :
    (⟨o,j⟩ : Move) ∈ movesOf mapping.entries ↔ o ≠ j ∧ mapping.lookup j = some o := by
  rw [movesOf, List.mem_map]
  constructor
  · rintro ⟨⟨k,o'⟩,he,heq⟩
    obtain ⟨rfl,rfl⟩ := Move.mk.inj heq
    rw [List.mem_filter, decide_eq_true_iff] at he
    exact ⟨Ne.symm he.2, AList.mem_lookup_iff.mpr he.1⟩
  · rintro ⟨hne,hlookup⟩
    refine ⟨⟨j,o⟩, ?_, rfl⟩
    rw [List.mem_filter, decide_eq_true_iff]
    exact ⟨AList.mem_lookup_iff.mp hlookup, Ne.symm hne⟩

/-- Two rows do not come from the same place, so the moves go different ways. -/
theorem movesOf_nodup {mapping : AList (fun _ : ℕ => ℕ)}
    (h : ∀ i j o, mapping.lookup i = some o → mapping.lookup j = some o → i = j) :
    ((movesOf mapping.entries).map Move.from).Nodup ∧
      ((movesOf mapping.entries).map Move.to).Nodup := by
  have hkeys := List.nodupKeys_iff_pairwise.mp mapping.nodupKeys
  have hsources : mapping.entries.Pairwise (fun e e' => e.2 ≠ e'.2) := by
    refine hkeys.imp_of_mem ?_
    rintro ⟨i,o⟩ ⟨j,o'⟩ he he' hne hsame
    have hsame' : o = o' := hsame
    apply hne
    apply h i j o (AList.mem_lookup_iff.mpr he)
    rw [hsame']
    exact AList.mem_lookup_iff.mpr he'
  constructor
  · rw [movesOf, List.map_map]
    exact List.pairwise_map.mpr (hsources.filter _)
  · rw [movesOf, List.map_map]
    exact List.pairwise_map.mpr (hkeys.filter _)

/-- The order of the moves after the sort, which is strict as no two leave from one place. -/
theorem sorted_moves {l : List Move} (h : (l.map Move.from).Nodup) :
    (l.mergeSort (fun lft rgt => lft.from ≤ rgt.from)).Pairwise (fun m n => m.from < n.from) := by
  have hperm := List.mergeSort_perm l (fun lft rgt => lft.from ≤ rgt.from)
  have hle := @List.pairwise_mergeSort Move (fun lft rgt => decide (lft.from ≤ rgt.from))
    (by simp only [decide_eq_true_iff]; intro x y z; omega)
    (by intro x y; simp only [Bool.or_eq_true, decide_eq_true_iff]; omega) l
  have hne := List.pairwise_map.mp ((hperm.map Move.from).nodup_iff.mpr h)
  refine (hle.and hne).imp ?_
  rintro m n ⟨hmn,hne⟩
  have := of_decide_eq_true hmn
  omega

/-- Where an old row is: the mapping knows the rows that have moved, the other ones have
stayed. -/
theorem Follows.lookup_some (h : Follows b view c xs table) {i o : ℕ}
    (hlookup : c.moveMapping.lookup i = some o) :
    i ∈ c.added ∧ ∃ r : Option ℕ × α, table[i]? = some r ∧ r.1 = some o := by
  have hin : i ∈ c.added := by
    by_contra hnot
    rw [h.unmapped i hnot] at hlookup
    exact absurd hlookup (by simp)
  have hlt := Finset.mem_range.mp (h.inPlace.new hin)
  refine ⟨hin, table[i], List.getElem?_eq_getElem hlt, ?_⟩
  rw [h.origin i _ (List.getElem?_eq_getElem hlt), if_pos hin, hlookup]

/-- A row that is where it was is one that has stayed or has come back. -/
theorem Follows.in_place_iff (h : Follows b view c xs table) {i : ℕ} {r : Option ℕ × α}
    (hr : table[i]? = some r) :
    r.1 = some i ↔ i ∉ c.added ∨ c.moveMapping.lookup i = some i := by
  rw [h.origin i r hr]
  by_cases hin : i ∈ c.added
  · rw [if_pos hin]
    exact (or_iff_right (not_not_intro hin)).symm
  · rw [if_neg hin]
    exact iff_of_true rfl (Or.inl hin)

theorem Follows.reports (h : Follows b view c xs table) :
    Reports b view (c.parseComplete b) xs table := by
  have hparsed := parseMoves_parsed c.moveMapping.entries h.deletions h.insertions
  have hdeleted : (c.parseComplete b).deleted = c.deleted \ returned c.moveMapping.entries :=
    hparsed.deletions.indices_eq
  have hadded : (c.parseComplete b).added = c.added \ returned c.moveMapping.entries :=
    hparsed.insertions.indices_eq
  have hmoves : (c.parseComplete b).moves = (movesOf c.moveMapping.entries).mergeSort
      (fun lft rgt => lft.from ≤ rgt.from) := by
    change List.mergeSort _ _ = _
    rw [hparsed.moves_eq, h.no_moves, List.nil_append]
  have htracked (a : Aspect) : (c.parseComplete b).tracked a = c.tracked a :=
    tracked_congr hparsed.modifications_eq hparsed.columns_eq a
  have hchanged (a : Aspect) : (c.parseComplete b).changed a = c.changed a := by
    rw [changed, htracked]
    rfl
  have hdistinct : ∀ i j o, c.moveMapping.lookup i = some o → c.moveMapping.lookup j = some o →
      i = j := by
    intro i j o hi hj
    obtain ⟨_,r,hr,hro⟩ := h.lookup_some hi
    obtain ⟨_,s,hs,hso⟩ := h.lookup_some hj
    exact h.distinct i j r s o hr hs hro hso
  have hnodup := movesOf_nodup hdistinct
  have hperm := (List.mergeSort_perm (movesOf c.moveMapping.entries)
    (fun lft rgt => lft.from ≤ rgt.from))
  have hmem (o j : ℕ) : (⟨o,j⟩ : Move) ∈ (c.parseComplete b).moves ↔
      o ≠ j ∧ c.moveMapping.lookup j = some o := by
    rw [hmoves, List.mem_mergeSort, mem_movesOf]
  have hadded_iff (j : ℕ) (r : Option ℕ × α) (hr : table[j]? = some r) :
      j ∈ (c.parseComplete b).added ↔ r.1 ≠ some j := by
    rw [hadded, Finset.mem_sdiff, mem_returned, Ne, h.in_place_iff hr, not_or, not_not]
  have hdeleted_iff (o : ℕ) (ho : o < xs.length) : o ∈ (c.parseComplete b).deleted ↔
      ∀ r : Option ℕ × α, table[o]? = some r → r.1 ≠ some o := by
    rw [hdeleted, Finset.mem_sdiff, mem_returned]
    by_cases hlt : o < table.length
    · have hr := List.getElem?_eq_getElem hlt
      have hplace := h.in_place_iff hr
      rw [hr, h.inPlace.agree ho hlt]
      constructor
      · rintro ⟨hin,hback⟩ r he
        obtain rfl := Option.some.inj he
        exact fun he => (hplace.mp he).elim (fun hnot => hnot hin) hback
      · intro hall
        have hne : ¬ (o ∉ c.added ∨ c.moveMapping.lookup o = some o) :=
          fun he => hall _ rfl (hplace.mpr he)
        rwa [not_or, not_not] at hne
    · have hD : o ∈ c.deleted := by
        by_contra hnot
        exact hlt ((h.inPlace.kept o).mp ⟨ho, hnot⟩).1
      rw [List.getElem?_eq_none (Nat.le_of_not_lt hlt)]
      refine iff_of_true ⟨hD, ?_⟩ (by simp)
      intro hlookup
      obtain ⟨hin,_⟩ := h.lookup_some hlookup
      exact hlt (Finset.mem_range.mp (h.inPlace.new hin))
  refine ⟨⟨hparsed.deletions.verified, hparsed.insertions.verified, ?_, ?_, ?_, ?_, ?_, ?_⟩,
    hadded_iff, ?_, hdeleted_iff, ?_, ?_, h.old, ?_⟩
  · intro a
    rw [htracked]
    exact h.tracked a
  · intro a
    rw [hchanged, hchanged]
    exact h.within a
  · rintro ⟨o,j⟩ hm
    obtain ⟨hne,hlookup⟩ := (hmem o j).mp hm
    obtain ⟨_,r,hr,hro⟩ := h.lookup_some hlookup
    refine (hdeleted_iff o (h.old j r o hr hro)).mpr ?_
    intro s hs hso
    exact hne (h.distinct o j s r o hs hr hso hro)
  · rintro ⟨o,j⟩ hm
    obtain ⟨hne,hlookup⟩ := (hmem o j).mp hm
    obtain ⟨_,r,hr,hro⟩ := h.lookup_some hlookup
    refine (hadded_iff j r hr).mpr ?_
    rw [hro]
    exact fun he => hne (Option.some.inj he)
  · rw [hmoves]
    exact (hperm.map Move.from).nodup_iff.mpr hnodup.1
  · rw [hmoves]
    exact (hperm.map Move.to).nodup_iff.mpr hnodup.2
  · intro j hj
    rw [hadded, Finset.mem_sdiff] at hj
    exact Finset.mem_range.mp (h.inPlace.new hj.1)
  · intro o j
    rw [hmem]
    refine and_congr_right ?_
    intro hne
    constructor
    · exact fun hlookup => (h.lookup_some hlookup).2
    · rintro ⟨r,hr,hro⟩
      have horigin := h.origin j r hr
      rw [hro] at horigin
      by_cases hin : j ∈ c.added
      · rw [if_pos hin] at horigin
        exact horigin.symm
      · rw [if_neg hin] at horigin
        exact absurd (Option.some.inj horigin) hne
  · rw [hmoves]
    exact sorted_moves hnodup.1
  · intro a i r o hr hro hnot
    rw [hchanged] at hnot
    exact h.same a i r o hr hro hnot

end CollectionChangeBuilder

end ObjectStore
