import CurrencyConverter.ObjectStore.ChangeMerge

/-! The instructions of a transaction log for one list of links, and what the change builder
makes of them. -/
namespace ObjectStore

open SequenceDiff CollectionChangeBuilder

variable {α : Type*}

inductive LinkListInstruction (α : Type*)
  | set (index : ℕ) (link : α)
  | insert (index : ℕ) (link : α)
  | erase (index : ℕ)
  | nullify (index : ℕ)
  | swap (index1 index2 : ℕ)
  | clear (oldSize : ℕ)
  | move («from» «to» : ℕ)

def swapAt (list : List α) (index1 index2 : ℕ) : List α :=
  match list[index1]?, list[index2]? with
  | some item1, some item2 => (list.set index1 item2).set index2 item1
  | _, _ => list

namespace LinkListInstruction

/-- What the instruction does to the list. -/
def apply : LinkListInstruction α → List α → List α
  | set index link, list => list.set index link
  | insert index link, list => list.insertIdx index link
  | erase index, list => list.eraseIdx index
  | nullify index, list => list.eraseIdx index
  | swap index1 index2, list => swapAt list index1 index2
  | clear _, _ => []
  | move «from» «to», list =>
    match list[«from»]? with
    | some link => (list.eraseIdx «from»).insertIdx «to» link
    | none => list

/-- The instruction is one that can stand in a log where the list is `list`. -/
def Fits (b : Build) : LinkListInstruction α → List α → Prop
  | set index _, list => index < list.length
  | insert index _, list => index ≤ list.length
  | erase index, list => index < list.length
  | nullify index, list => index < list.length
  | swap index1 index2, list => index1 < list.length ∧ index2 < list.length
  | clear oldSize, list => oldSize = list.length ∧ list.length < npos b
  | move «from» «to», list => «from» ≠ «to» ∧ «from» < list.length ∧ «to» < list.length

/-- The part of `TransactLogObserver` that handles the list it has selected. -/
def observe (b : Build) : LinkListInstruction α → CollectionChangeBuilder →
    CollectionChangeBuilder
  | set index _, active => active.modify b index none
  | insert index _, active => active.insert b index 1 true
  | erase index, active => active.erase b index
  | nullify index, active => active.erase b index
  | swap index1 index2, active => (active.modify b index1 none).modify b index2 none
  | clear oldSize, active => active.clear b oldSize
  | move «from» «to», active => active.move b «from» «to»

end LinkListInstruction

namespace CollectionChangeBuilder

variable {b : Build} {c c' : CollectionChangeBuilder} {xs ys zs : List α} {index : ℕ}

/-- The builder is in order and describes the way from `xs` to `ys`. -/
structure Tracks (b : Build) (c : CollectionChangeBuilder) (xs ys : List α) : Prop where
  wellFormed : WellFormed b c
  describes : Describes c (c.changed Aspect.contents) xs ys

theorem tracked_congr (hmod : c'.modifications = c.modifications) (hcol : c'.columns = c.columns)
    (a : Aspect) : c'.tracked a = c.tracked a := by
  cases a with
  | identity => rfl
  | contents => exact hmod
  | column k => rw [tracked, tracked, hcol]

/-- What an operation has to do for the builder to keep track: its sets follow the rows that
go and come, and its moves come from the old ones. -/
theorem Tracks.extend {D' I' : Finset ℕ} {M' : Aspect → Finset ℕ}
    {sets : CollectionChangeBuilder} (h : Tracks b c xs ys)
    (hM : ∀ a, IndexSet.Represents b (sets.tracked a) (carried (c.changed a) D' I' (M' a)))
    (hmod : c'.modifications = sets.modifications) (hcol : c'.columns = sets.columns)
    (htrans : Transforms D' I' (M' Aspect.contents) ys zs)
    (hfits : SequenceDiff.Fits D' I' ys.length zs.length)
    (hmarks : M' Aspect.contents ⊆ Finset.range zs.length)
    (hwithin : ∀ a, M' a ⊆ M' Aspect.contents)
    (hD : IndexSet.Represents b c'.deletions
      (IndexShift.inserted (IndexShift.erased D' c.added) c.deleted))
    (hI : IndexSet.Represents b c'.insertions
      (IndexShift.inserted (IndexShift.erased c.added D') I'))
    (hfrom : (c'.moves.map Move.from).Nodup) (hto : (c'.moves.map Move.to).Nodup)
    (hmoves : ∀ n ∈ c'.moves, ComesFrom c D' I' (c.changed Aspect.contents)
      (M' Aspect.contents) ys zs n) : Tracks b c' xs zs := by
  replace hM (a : Aspect) : IndexSet.Represents b (c'.tracked a)
      (carried (c.changed a) D' I' (M' a)) := tracked_congr hmod hcol a ▸ hM a
  have hdesc := h.describes.extend htrans hfits hmarks hD.indices_eq hI.indices_eq hmoves
  constructor
  · refine ⟨hD.verified, hI.verified, fun a => (hM a).verified, ?_, ?_, ?_, hfrom, hto⟩
    · intro a
      rw [changed, changed, (hM a).indices_eq, (hM Aspect.contents).indices_eq]
      exact carried_mono (h.wellFormed.within a) (hwithin a)
    · exact fun m hm => (hdesc.carries m hm).old
    · exact fun m hm => (hdesc.carries m hm).new
  · rw [changed, (hM Aspect.contents).indices_eq]
    exact hdesc

theorem nodup_map_to {l : List Move} {f : ℕ → ℕ} (h : (l.map Move.to).Nodup)
    (hf : ∀ i ∈ l.map Move.to, ∀ j ∈ l.map Move.to, f i = f j → i = j) :
    ((l.map (fun m => { m with «to» := f m.to })).map Move.to).Nodup := by
  have hmap : (l.map (fun m => { m with «to» := f m.to })).map Move.to =
      (l.map Move.to).map f := by
    rw [List.map_map, List.map_map]
    rfl
  rw [hmap]
  exact List.Nodup.map_on hf h

theorem map_from_withTo (l : List Move) (f : ℕ → ℕ) :
    (l.map (fun m => { m with «to» := f m.to })).map Move.from = l.map Move.from := by
  rw [List.map_map]
  rfl

theorem image_shift_room (S : Finset ℕ) (i : ℕ) :
    S.image (IndexShift.shift (Finset.Ico i (i+1))) = carried S ∅ {i} ∅ := by
  rw [Nat.Ico_succ_singleton, carried, IndexShift.erased_empty, Finset.union_empty]

theorem insert_tracks (h : Tracks b c xs ys) (hindex : index ≤ ys.length) (x : α) :
    Tracks b (c.insert b index 1 true) xs (ys.insertIdx index x) := by
  have hmap : (c.insert b index 1 true).moves =
      c.moves.map (fun m => { m with «to» := IndexShift.shift {index} m.to }) := by
    apply List.map_congr_left
    intro m _
    rw [IndexShift.shift_singleton]
    by_cases hm : m.to ≥ index
    · rw [if_pos hm, if_neg (by omega)]
    · rw [if_neg hm, if_pos (by omega)]
  have hcols := represents_forEachCol (b := b) (c := c)
    (f := fun col => col.shiftForInsertAt b index 1)
    (F := fun S => carried S ∅ {index} ∅) (by simp [carried])
    (fun v S hv => image_shift_room S index ▸
      IndexSet.shiftForInsertAt_represents hv index Nat.one_pos)
    (fun a => represents_self (h.wellFormed.tracked a))
  refine h.extend hcols rfl rfl (transforms_insertIdx x) ?_ ?_ ?_ ?_ ?_ ?_ ?_ ?_
  · refine ⟨Finset.empty_subset _, ?_, ?_⟩
    · rw [Finset.singleton_subset_iff, Finset.mem_range, List.length_insertIdx_of_le_length hindex]
      omega
    · rw [List.length_insertIdx_of_le_length hindex]
      rfl
  · exact Finset.empty_subset _
  · exact fun _ => Finset.Subset.refl _
  · rw [IndexShift.empty_erased, IndexShift.empty_inserted]
    exact represents_self h.wellFormed.deletions
  · rw [IndexShift.erased_empty, ← Nat.Ico_succ_singleton]
    exact IndexSet.insertAt_represents (represents_self h.wellFormed.insertions) index 1
  · rw [hmap, map_from_withTo]
    exact h.wellFormed.from_nodup
  · rw [hmap]
    exact nodup_map_to h.wellFormed.to_nodup (fun _ _ _ _ he => IndexShift.shift_injective he)
  · intro n hn
    rw [hmap] at hn
    obtain ⟨old,hold,rfl⟩ := List.mem_map.mp hn
    refine Or.inl ⟨old, hold, rfl, Or.inr ⟨Finset.notMem_empty _, ?_⟩⟩
    rw [IndexShift.unshift_empty]

/-- Deletions take up the row at `index` at its old position, unless the row is new. -/
theorem deletions_extend {D I : Finset ℕ} (index : ℕ) :
    IndexShift.inserted (IndexShift.erased {index} I) D =
      if index ∈ I then D
      else insert (IndexShift.shift D (IndexShift.unshift I index)) D := by
  by_cases hindex : index ∈ I
  · rw [if_pos hindex, IndexShift.erased,
      Finset.sdiff_eq_empty_iff_subset.mpr (Finset.singleton_subset_iff.mpr hindex),
      Finset.image_empty, IndexShift.empty_inserted]
  · have hself : ({index} : Finset ℕ) \ I = {index} :=
      Finset.sdiff_eq_self_of_disjoint (Finset.disjoint_singleton_left.mpr hindex)
    rw [if_neg hindex, IndexShift.erased, hself, Finset.image_singleton, IndexShift.inserted,
      Finset.image_singleton, Finset.union_comm, Finset.insert_eq]

/-- The step of several operations that reports a row as deleted. -/
theorem addShiftedDeletion_represents (hc : WellFormed b c) (index : ℕ) :
    IndexSet.Represents b (c.deletions.addShifted b index).1
      (insert (IndexShift.shift c.deleted index) c.deleted) :=
  (IndexSet.addShifted_spec (represents_self hc.deletions) index).1

theorem eraseOrUnshift_eq (hc : WellFormed b c) (index : ℕ) :
    (c.insertions.eraseOrUnshift index).2 =
      if index ∈ c.added then none else some (IndexShift.unshift c.added index) :=
  (IndexSet.eraseOrUnshift_spec (represents_self hc.insertions) index).2

theorem erased_carried (S : Finset ℕ) (i : ℕ) :
    IndexShift.erased S {i} = carried S {i} ∅ ∅ := by
  have hid : IndexShift.shift (∅ : Finset ℕ) = id := funext IndexShift.shift_empty
  rw [carried, hid, Finset.image_id, Finset.union_empty]

theorem filterMap_from_sublist {g : Move → Option Move}
    (hg : ∀ m n, g m = some n → n.from = m.from) (l : List Move) :
    ((l.filterMap g).map Move.from).Sublist (l.map Move.from) := by
  induction l with
  | nil => exact List.Sublist.refl _
  | cons m l ih =>
    cases hm : g m with
    | none =>
      rw [List.filterMap_cons_none hm]
      exact ih.cons _
    | some n =>
      rw [List.filterMap_cons_some hm, List.map_cons, List.map_cons, hg m n hm]
      exact ih.cons_cons _

theorem filterMap_to_nodup {g : Move → Option Move} {f : ℕ → ℕ} {l : List Move}
    (hg : ∀ m n, g m = some n → n.to = f m.to)
    (hf : ∀ m m' n n', g m = some n → g m' = some n' → f m.to = f m'.to → m.to = m'.to)
    (h : (l.map Move.to).Nodup) : ((l.filterMap g).map Move.to).Nodup := by
  induction l with
  | nil => exact List.nodup_nil
  | cons m l ih =>
    obtain ⟨hfresh,hl⟩ := List.nodup_cons.mp h
    cases hm : g m with
    | none =>
      rw [List.filterMap_cons_none hm]
      exact ih hl
    | some n =>
      rw [List.filterMap_cons_some hm, List.map_cons, List.nodup_cons]
      refine ⟨?_, ih hl⟩
      intro hmem
      obtain ⟨n',hn',hto⟩ := List.mem_map.mp hmem
      obtain ⟨m',hm',hgm'⟩ := List.mem_filterMap.mp hn'
      rw [hg m n hm, hg m' n' hgm'] at hto
      exact hfresh (List.mem_map.mpr ⟨m', hm', hf m' m n' n hgm' hm hto⟩)

/-- What an erased row does to a move. -/
def eraseMove (index : ℕ) (m : Move) : Option Move :=
  if m.to = index then none
  else if m.to > index then some { m with «to» := m.to-1 } else some m

theorem eraseMove_eq_some {m n : Move} (h : eraseMove index m = some n) :
    m.to ≠ index ∧ n.from = m.from ∧ n.to = IndexShift.unshift {index} m.to := by
  rw [eraseMove] at h
  rw [IndexShift.unshift_singleton]
  by_cases hm : m.to = index
  · rw [if_pos hm] at h
    exact absurd h (by simp)
  rw [if_neg hm] at h
  refine ⟨hm, ?_⟩
  by_cases hgt : m.to > index
  · rw [if_pos hgt] at h
    rw [← Option.some.inj h, if_neg (by omega)]
    exact ⟨rfl, rfl⟩
  · rw [if_neg hgt] at h
    rw [← Option.some.inj h, if_pos (by omega)]
    exact ⟨rfl, rfl⟩

/-- The four fields that an erased row changes. -/
theorem erase_eq (c : CollectionChangeBuilder) (index : ℕ) : c.erase b index =
    { c.forEachCol (fun col => col.eraseAt index) with
      insertions := (c.insertions.eraseOrUnshift index).1
      deletions := match (c.insertions.eraseOrUnshift index).2 with
        | some unshifted => (c.deletions.addShifted b unshifted).1
        | none => c.deletions
      moves := c.moves.filterMap (eraseMove index) } := by
  simp only [CollectionChangeBuilder.erase, forEachCol]
  cases (c.insertions.eraseOrUnshift index).2 with
  | none => rfl
  | some i => rfl

theorem erase_tracks (h : Tracks b c xs ys) (hindex : index < ys.length) :
    Tracks b (c.erase b index) xs (ys.eraseIdx index) := by
  have hwf := h.wellFormed
  have hcols := represents_forEachCol (b := b) (c := c) (f := fun col => col.eraseAt index)
    (F := fun S => carried S {index} ∅ ∅) (by simp [carried])
    (fun v S hv => erased_carried S index ▸ IndexSet.eraseAt_represents hv index)
    (fun a => represents_self (hwf.tracked a))
  rw [erase_eq]
  refine h.extend hcols rfl rfl (transforms_eraseIdx index) ?_ ?_ ?_ ?_ ?_ ?_ ?_ ?_
  · refine ⟨?_, Finset.empty_subset _, ?_⟩
    · rwa [Finset.singleton_subset_iff, Finset.mem_range]
    · rw [List.length_eraseIdx_of_lt hindex, Finset.card_empty, Finset.card_singleton]
      omega
  · exact Finset.empty_subset _
  · exact fun _ => Finset.Subset.refl _
  · rw [deletions_extend]
    rw [eraseOrUnshift_eq hwf]
    by_cases hin : index ∈ c.added
    · rw [if_pos hin, if_pos hin]
      exact represents_self hwf.deletions
    · rw [if_neg hin, if_neg hin]
      exact addShiftedDeletion_represents hwf _
  · rw [IndexShift.inserted_empty]
    exact (IndexSet.eraseOrUnshift_spec (represents_self hwf.insertions) index).1
  · exact (filterMap_from_sublist (fun m n hn => (eraseMove_eq_some hn).2.1) _).nodup
      hwf.from_nodup
  · apply filterMap_to_nodup (f := IndexShift.unshift {index})
      (fun m n hn => (eraseMove_eq_some hn).2.2) _ hwf.to_nodup
    intro m m' n n' hn hn' he
    apply IndexShift.unshift_inj _ _ he
    · exact fun hm => (eraseMove_eq_some hn).1 (Finset.mem_singleton.mp hm)
    · exact fun hm => (eraseMove_eq_some hn').1 (Finset.mem_singleton.mp hm)
  · intro n hn
    obtain ⟨old,hold,hn⟩ := List.mem_filterMap.mp hn
    obtain ⟨hne,hfrom,hto⟩ := eraseMove_eq_some hn
    refine Or.inl ⟨old, hold, hfrom, Or.inr ⟨?_, ?_⟩⟩
    · exact fun hm => hne (Finset.mem_singleton.mp hm)
    · rw [IndexShift.shift_empty, hto]

theorem adjust_from («from» «to» : ℕ) (m : Move) : (m.adjust «from» «to»).from = m.from := by
  rw [Move.adjust]
  split_ifs
  · rfl
  · rfl
  · rfl
  · rfl

/-- A row that does not move itself makes way like any row does. -/
theorem adjust_to («from» «to» : ℕ) (m : Move) : (m.adjust «from» «to»).to =
    if m.to = «from» then «to»
    else IndexShift.shift {«to»} (IndexShift.unshift {«from»} m.to) := by
  rw [Move.adjust, IndexShift.shift_singleton, IndexShift.unshift_singleton]
  by_cases hm : m.to = «from»
  · rw [if_neg (not_not_intro hm), if_pos hm]
  · rw [if_pos hm, if_neg hm]
    simp only [apply_ite Move.to]
    split_ifs <;> omega

/-- What a moved row does to a set of marks. -/
noncomputable def movedMarks («from» «to» : ℕ) (S : Finset ℕ) : Finset ℕ :=
  if «from» ∈ S then {«to»} else ∅

theorem movedMarks_subset («from» «to» : ℕ) (S : Finset ℕ) :
    movedMarks «from» «to» S ⊆ {«to»} := by
  rw [movedMarks]
  split_ifs
  · exact Finset.Subset.refl _
  · exact Finset.empty_subset _

theorem movedMarks_mono {«from» «to» : ℕ} {S T : Finset ℕ} (h : S ⊆ T) :
    movedMarks «from» «to» S ⊆ movedMarks «from» «to» T := by
  by_cases hin : «from» ∈ S
  · rw [movedMarks, movedMarks, if_pos hin, if_pos (h hin)]
  · rw [movedMarks, if_neg hin]
    exact Finset.empty_subset _

theorem represents_moved {v : IndexSet} {S : Finset ℕ} (hv : IndexSet.Represents b v S)
    («from» «to» : ℕ) : IndexSet.Represents b
      (if v.contains «from» then (v.eraseAt «from»).insertAt b «to» 1
        else (v.eraseAt «from»).shiftForInsertAt b «to» 1)
      (carried S {«from»} {«to»} (movedMarks «from» «to» S)) := by
  have herased := IndexSet.eraseAt_represents hv «from»
  rw [movedMarks, carried]
  by_cases hin : «from» ∈ S
  · rw [if_pos ((IndexSet.contains_iff hv _).mpr hin), if_pos hin, Finset.union_comm,
      ← Nat.Ico_succ_singleton «to»]
    exact IndexSet.insertAt_represents herased «to» 1
  · rw [if_neg (fun h => hin ((IndexSet.contains_iff hv _).mp h)), if_neg hin, Finset.union_empty,
      ← Nat.Ico_succ_singleton «to»]
    exact IndexSet.shiftForInsertAt_represents herased «to» Nat.one_pos

/-- Where moves end after a row has moved. -/
theorem adjust_to_injective {«from» «to» i j : ℕ}
    (h : (if i = «from» then «to» else IndexShift.shift {«to»} (IndexShift.unshift {«from»} i)) =
      if j = «from» then «to» else IndexShift.shift {«to»} (IndexShift.unshift {«from»} j)) :
    i = j := by
  have hne (k : ℕ) : IndexShift.shift {«to»} k ≠ «to» :=
    fun he => IndexShift.shift_not_mem (S := {«to»}) k (Finset.mem_singleton.mpr he)
  by_cases hi : i = «from»
  · by_cases hj : j = «from»
    · rw [hi, hj]
    · rw [if_pos hi, if_neg hj] at h
      exact absurd h.symm (hne _)
  · by_cases hj : j = «from»
    · rw [if_neg hi, if_pos hj] at h
      exact absurd h (hne _)
    · rw [if_neg hi, if_neg hj] at h
      exact IndexShift.unshift_inj (fun hm => hi (Finset.mem_singleton.mp hm))
        (fun hm => hj (Finset.mem_singleton.mp hm)) (IndexShift.shift_injective h)

theorem adjusted_to_nodup {l : List Move} («from» «to» : ℕ) (h : (l.map Move.to).Nodup) :
    ((l.map (Move.adjust «from» «to»)).map Move.to).Nodup := by
  have hmap : (l.map (Move.adjust «from» «to»)).map Move.to = (l.map Move.to).map
      (fun i => if i = «from» then «to»
        else IndexShift.shift {«to»} (IndexShift.unshift {«from»} i)) := by
    rw [List.map_map, List.map_map]
    exact List.map_congr_left (fun m _ => adjust_to «from» «to» m)
  rw [hmap]
  exact List.Nodup.map_on (fun _ _ _ _ he => adjust_to_injective he) h

theorem adjusted_from (l : List Move) («from» «to» : ℕ) :
    (l.map (Move.adjust «from» «to»)).map Move.from = l.map Move.from := by
  rw [List.map_map]
  exact List.map_congr_left (fun m _ => adjust_from «from» «to» m)

/-- The moves after one more: the row itself is one of them if it was there before and did not
move yet. -/
theorem Tracks.moved {«from» «to» : ℕ} {link : α} {pushed : List Move} (h : Tracks b c xs ys)
    (hfrom : ys[«from»]? = some link) (hto : «to» < ys.length)
    (hmod : c'.modifications = (c.forEachCol (fun col =>
      if col.contains «from» then (col.eraseAt «from»).insertAt b «to» 1
      else (col.eraseAt «from»).shiftForInsertAt b «to» 1)).modifications)
    (hcol : c'.columns = (c.forEachCol (fun col =>
      if col.contains «from» then (col.eraseAt «from»).insertAt b «to» 1
      else (col.eraseAt «from»).shiftForInsertAt b «to» 1)).columns)
    (hD : IndexSet.Represents b c'.deletions
      (if «from» ∈ c.added then c.deleted
        else insert (IndexShift.shift c.deleted (IndexShift.unshift c.added «from»)) c.deleted))
    (hI : IndexSet.Represents b c'.insertions
      (IndexShift.inserted (IndexShift.erased c.added {«from»}) (Finset.Ico «to» («to»+1))))
    (hmoves : c'.moves = c.moves.map (Move.adjust «from» «to») ++ pushed)
    (hpushed : pushed = [] ∨ «from» ∉ c.added ∧ (∀ m ∈ c.moves, m.to ≠ «from») ∧
      pushed = [⟨IndexShift.shift c.deleted (IndexShift.unshift c.added «from»), «to»⟩]) :
    Tracks b c' xs ((ys.eraseIdx «from»).insertIdx «to» link) := by
  have hwf := h.wellFormed
  obtain ⟨htrans,hcarry⟩ := transforms_move hfrom hto
  have hlt : «from» < ys.length := (List.getElem?_eq_some_iff.mp hfrom).1
  have hlen : ((ys.eraseIdx «from»).insertIdx «to» link).length = ys.length := by
    rw [List.length_insertIdx_of_le_length, List.length_eraseIdx_of_lt hlt]
    · omega
    · rw [List.length_eraseIdx_of_lt hlt]
      omega
  have hcols := represents_forEachCol (b := b) (c := c) (f := fun col =>
      if col.contains «from» then (col.eraseAt «from»).insertAt b «to» 1
      else (col.eraseAt «from»).shiftForInsertAt b «to» 1)
    (F := fun S => carried S {«from»} {«to»} (movedMarks «from» «to» S))
    (by simp [carried, movedMarks]) (fun v S hv => represents_moved hv «from» «to»)
    (fun a => represents_self (hwf.tracked a))
  have hempty : ∅ ⊆ movedMarks «from» «to» (c.changed Aspect.contents) := Finset.empty_subset _
  have hmarked : «from» ∈ c.changed Aspect.contents →
      «to» ∈ movedMarks «from» «to» (c.changed Aspect.contents) := by
    intro hin
    rw [movedMarks, if_pos hin]
    exact Finset.mem_singleton_self _
  have hcarry' := hcarry.mono hempty
  refine h.extend hcols hmod hcol (htrans.mono hempty) ?_ ?_ ?_ ?_ ?_ ?_ ?_ ?_
  · refine ⟨?_, ?_, ?_⟩
    · rwa [Finset.singleton_subset_iff, Finset.mem_range]
    · rwa [Finset.singleton_subset_iff, Finset.mem_range, hlen]
    · rw [hlen, Finset.card_singleton, Finset.card_singleton]
  · have hin : {«to»} ⊆ Finset.range ((ys.eraseIdx «from»).insertIdx «to» link).length := by
      rwa [Finset.singleton_subset_iff, Finset.mem_range, hlen]
    exact (movedMarks_subset _ _ _).trans hin
  · exact fun a => movedMarks_mono (hwf.within a)
  · rwa [deletions_extend]
  · rwa [← Nat.Ico_succ_singleton «to»]
  · rw [hmoves, List.map_append, adjusted_from]
    rcases hpushed with rfl | ⟨hadded,_,rfl⟩
    · rw [List.map_nil, List.append_nil]
      exact hwf.from_nodup
    · rw [List.map_singleton, List.nodup_append]
      refine ⟨hwf.from_nodup, List.nodup_singleton _, ?_⟩
      intro i hi j hj he
      obtain ⟨m,hm,rfl⟩ := List.mem_map.mp hi
      have hdel := hwf.from_mem m hm
      rw [he, List.mem_singleton.mp hj] at hdel
      exact IndexShift.shift_not_mem _ _ hdel
  · rw [hmoves, List.map_append]
    rcases hpushed with rfl | ⟨hadded,hnone,rfl⟩
    · rw [List.map_nil, List.append_nil]
      exact adjusted_to_nodup «from» «to» hwf.to_nodup
    · rw [List.map_singleton, List.nodup_append]
      refine ⟨adjusted_to_nodup «from» «to» hwf.to_nodup, List.nodup_singleton _, ?_⟩
      intro i hi j hj he
      obtain ⟨n,hn,rfl⟩ := List.mem_map.mp hi
      obtain ⟨m,hm,rfl⟩ := List.mem_map.mp hn
      rw [adjust_to, if_neg (hnone m hm), List.mem_singleton.mp hj] at he
      exact IndexShift.shift_not_mem (S := {«to»}) _ (Finset.mem_singleton.mpr he)
  · intro n hn
    rw [hmoves] at hn
    rcases List.mem_append.mp hn with hn | hn
    · obtain ⟨old,hold,rfl⟩ := List.mem_map.mp hn
      refine Or.inl ⟨old, hold, adjust_from _ _ old, ?_⟩
      rw [adjust_to]
      by_cases hm : old.to = «from»
      · rw [if_pos hm, hm]
        exact Or.inl ⟨hcarry', hmarked⟩
      · rw [if_neg hm]
        exact Or.inr ⟨fun hin => hm (Finset.mem_singleton.mp hin), rfl⟩
    · rcases hpushed with rfl | ⟨hadded,_,rfl⟩
      · exact absurd hn List.not_mem_nil
      · rw [List.mem_singleton.mp hn]
        exact Or.inr ⟨«from», hadded, hcarry', hmarked, rfl⟩

theorem move_tracks {«from» «to» : ℕ} {link : α} (h : Tracks b c xs ys)
    (hfrom : ys[«from»]? = some link) (hto : «to» < ys.length) :
    Tracks b (c.move b «from» «to») xs ((ys.eraseIdx «from»).insertIdx «to» link) := by
  have hwf := h.wellFormed
  have hunshift := eraseOrUnshift_eq hwf «from»
  have hdel := IndexSet.addShifted_spec (represents_self hwf.deletions)
    (IndexShift.unshift c.added «from»)
  by_cases hany : c.moves.any (fun m => m.to = «from») = true
  · -- the row is the destination of a move, which is prolonged
    have hin : «from» ∈ c.added := by
      obtain ⟨m,hm,hmto⟩ := List.any_eq_true.mp hany
      exact of_decide_eq_true hmto ▸ hwf.to_mem m hm
    have hval : c.move b «from» «to» = { c.forEachCol (fun col =>
        if col.contains «from» then (col.eraseAt «from»).insertAt b «to» 1
        else (col.eraseAt «from»).shiftForInsertAt b «to» 1) with
        moves := c.moves.map (Move.adjust «from» «to»)
        insertions := (c.insertions.eraseAt «from»).insertAt b «to» 1 } := by
      rw [move, if_pos hany]
      rfl
    rw [hval]
    refine h.moved hfrom hto rfl rfl ?_ ?_ (List.append_nil _).symm (Or.inl rfl)
    · rw [if_pos hin]
      exact represents_self hwf.deletions
    · exact IndexSet.insertAt_represents
        (IndexSet.eraseAt_represents (represents_self hwf.insertions) _) _ _
  have hins := IndexSet.insertAt_represents
    (IndexSet.eraseOrUnshift_spec (represents_self hwf.insertions) «from»).1 «to» 1
  by_cases hin : «from» ∈ c.added
  · rw [if_pos hin] at hunshift
    have hval : c.move b «from» «to» = { c.forEachCol (fun col =>
        if col.contains «from» then (col.eraseAt «from»).insertAt b «to» 1
        else (col.eraseAt «from»).shiftForInsertAt b «to» 1) with
        moves := c.moves.map (Move.adjust «from» «to»)
        insertions := (c.insertions.eraseOrUnshift «from»).1.insertAt b «to» 1 } := by
      rw [move, if_neg hany]
      simp only [hunshift]
      rfl
    rw [hval]
    refine h.moved hfrom hto rfl rfl ?_ hins (List.append_nil _).symm (Or.inl rfl)
    rw [if_pos hin]
    exact represents_self hwf.deletions
  · rw [if_neg hin] at hunshift
    have hval : c.move b «from» «to» = { c.forEachCol (fun col =>
        if col.contains «from» then (col.eraseAt «from»).insertAt b «to» 1
        else (col.eraseAt «from»).shiftForInsertAt b «to» 1) with
        moves := c.moves.map (Move.adjust «from» «to») ++
          [⟨IndexShift.shift c.deleted (IndexShift.unshift c.added «from»), «to»⟩]
        insertions := (c.insertions.eraseOrUnshift «from»).1.insertAt b «to» 1
        deletions :=
          (c.deletions.addShifted b (IndexShift.unshift c.added «from»)).1 } := by
      rw [move, if_neg hany]
      simp only [hunshift, hdel.2]
      rfl
    rw [hval]
    refine h.moved hfrom hto rfl rfl ?_ hins rfl (Or.inr ⟨hin, ?_, rfl⟩)
    · rw [if_neg hin]
      exact hdel.1
    · intro m hm he
      exact hany (List.any_eq_true.mpr ⟨m, hm, decide_eq_true he⟩)

theorem modify_tracks (h : Tracks b c xs ys) (hindex : index < ys.length) (x : α) :
    Tracks b (c.modify b index none) xs (ys.set index x) := by
  have hwf := h.wellFormed
  have hM := IndexSet.add_represents (represents_self (hwf.tracked Aspect.contents)) index
  have hmarks : (c.modify b index none).changed Aspect.contents =
      Insert.insert index (c.changed Aspect.contents) := hM.indices_eq
  constructor
  · refine { hwf with tracked := ?_, within := ?_ }
    · intro a
      cases a with
      | identity => exact hwf.tracked Aspect.identity
      | contents => exact hM.verified
      | column k => exact hwf.tracked (Aspect.column k)
    · intro a
      rw [hmarks]
      cases a with
      | identity => exact Finset.empty_subset _
      | contents => rw [hmarks]
      | column k => exact (hwf.within (Aspect.column k)).trans (Finset.subset_insert _ _)
  · rw [hmarks]
    refine ⟨h.describes.transforms.set index x, fun m hm => (h.describes.carries m hm).set index x,
      ?_, ?_⟩
    · rw [List.length_set]
      exact h.describes.fits
    · rw [List.length_set, Finset.insert_subset_iff]
      exact ⟨Finset.mem_range.mpr hindex, h.describes.marks⟩

theorem card_indices {v : IndexSet} (h : v.Verified b) :
    v.indices.card = SeparatedRanges.width v.ranges :=
  SeparatedRanges.card_members (represents_self h).separated

theorem clear_tracks (h : Tracks b c xs ys) (hsize : ys.length < npos b) :
    Tracks b (c.clear b ys.length) xs [] := by
  have hwf := h.wellFormed
  have hfits := h.describes.fits
  have hD := card_indices hwf.deletions
  have hI := card_indices hwf.insertions
  have hlen : ys.length+SeparatedRanges.width c.deletions.ranges-
      SeparatedRanges.width c.insertions.ranges = xs.length := by
    have := hfits.size
    rw [deleted, added, hD, hI] at this
    omega
  have hset := IndexSet.set_represents (b := b) (v := c.deletions) xs.length
  have hval : c.clear b ys.length = { deletions := c.deletions.set b xs.length } := by
    rw [clear, if_pos (by omega), hlen]
  rw [hval]
  have hnone (a : Aspect) : ({ deletions := c.deletions.set b xs.length } :
      CollectionChangeBuilder).tracked a = { data := [] } := by
    cases a with
    | identity => rfl
    | contents => rfl
    | column k => rfl
  have hchanged (a : Aspect) : ({ deletions := c.deletions.set b xs.length } :
      CollectionChangeBuilder).changed a = ∅ := by
    rw [changed, hnone]
    rfl
  have hdeleted : ({ deletions := c.deletions.set b xs.length } :
      CollectionChangeBuilder).deleted = Finset.range xs.length := hset.indices_eq
  have hadded : ({ deletions := c.deletions.set b xs.length } :
      CollectionChangeBuilder).added = ∅ := rfl
  constructor
  · refine ⟨hset.verified, IndexSet.represents_empty.verified, ?_, ?_, by simp, by simp, by simp,
      by simp⟩
    · intro a
      rw [hnone]
      exact IndexSet.represents_empty.verified
    · intro a
      rw [hchanged]
      exact Finset.empty_subset _
  · rw [hchanged]
    refine ⟨?_, by simp, ?_, Finset.empty_subset _⟩
    · rw [hdeleted, hadded]
      exact transforms_clear le_rfl
    · rw [hdeleted, hadded]
      refine ⟨Finset.Subset.refl _, Finset.empty_subset _, ?_⟩
      rw [Finset.card_range, Finset.card_empty, List.length_nil]
      omega

theorem tracks_empty (xs : List α) : Tracks b {} xs xs := by
  have hnone (a : Aspect) : ({} : CollectionChangeBuilder).tracked a = { data := [] } := by
    cases a with
    | identity => rfl
    | contents => rfl
    | column k => rfl
  constructor
  · refine ⟨IndexSet.represents_empty.verified, IndexSet.represents_empty.verified, ?_, ?_,
      by simp, by simp, by simp, by simp⟩
    · intro a
      rw [hnone]
      exact IndexSet.represents_empty.verified
    · intro a
      rw [changed, hnone]
      exact Finset.empty_subset _
  · exact ⟨Transforms.refl _ xs, by simp, fits_refl _, Finset.empty_subset _⟩

end CollectionChangeBuilder

namespace LinkListInstruction

open CollectionChangeBuilder

variable {b : Build} {c : CollectionChangeBuilder} {xs ys : List α}

/-- One instruction of the log. -/
theorem observe_tracks (h : Tracks b c xs ys) (i : LinkListInstruction α) (hi : i.Fits b ys) :
    Tracks b (i.observe b c) xs (i.apply ys) := by
  cases i with
  | set index link => exact modify_tracks h hi link
  | insert index link => exact insert_tracks h hi link
  | erase index => exact erase_tracks h hi
  | nullify index => exact erase_tracks h hi
  | swap index1 index2 =>
    obtain ⟨h1,h2⟩ := hi
    rw [apply, swapAt, List.getElem?_eq_getElem h1, List.getElem?_eq_getElem h2]
    apply modify_tracks (modify_tracks h h1 _)
    rwa [List.length_set]
  | clear oldSize =>
    obtain ⟨rfl,hsize⟩ := hi
    exact clear_tracks h hsize
  | move «from» «to» =>
    obtain ⟨_,hfrom,hto⟩ := hi
    rw [apply, List.getElem?_eq_getElem hfrom]
    exact move_tracks h (List.getElem?_eq_getElem hfrom) hto

/-- Each instruction of the log fits the list as the ones before it leave it. -/
def FitAll (b : Build) : List (LinkListInstruction α) → List α → Prop
  | [], _ => True
  | i :: rest, list => i.Fits b list ∧ FitAll b rest (i.apply list)

def applyAll (log : List (LinkListInstruction α)) (list : List α) : List α :=
  log.foldl (fun list i => i.apply list) list

def observeAll (b : Build) (log : List (LinkListInstruction α)) (c : CollectionChangeBuilder) :
    CollectionChangeBuilder :=
  log.foldl (fun c i => i.observe b c) c

/-- The whole log. -/
theorem observeAll_tracks (log : List (LinkListInstruction α)) {ys : List α}
    {c : CollectionChangeBuilder} (h : Tracks b c xs ys) (hlog : FitAll b log ys) :
    Tracks b (observeAll b log c) xs (applyAll log ys) := by
  induction log generalizing ys c with
  | nil => exact h
  | cons i log ih =>
    obtain ⟨hi,hrest⟩ := hlog
    exact ih (observe_tracks h i hi) hrest

end LinkListInstruction

end ObjectStore
