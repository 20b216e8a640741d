import CurrencyConverter.ObjectStore.ListChanges

/-! The instructions of a transaction log for the rows of a table. Rows have no order of their
own: new rows come last and the last row fills the gap of a deleted one. -/
namespace ObjectStore

open SequenceDiff CollectionChangeBuilder

variable {α β : Type*}

/-- The rows that come in, one by one or several at once, are empty rows of the table. -/
inductive TableInstruction (α : Type*)
  | set (row col : ℕ) (value : α)
  | insertEmptyRows (rows : List α)
  | eraseRow (row : ℕ)
  | swapRows (row1 row2 : ℕ)
  | clear

namespace TableInstruction

/-- What the instruction does to the table, where each row has a note of its position at the
beginning if it was there. -/
def apply : TableInstruction α → List (Option ℕ × α) → List (Option ℕ × α)
  | set row _ value, table => table.modify row (fun r => (r.1,value))
  | insertEmptyRows rows, table => table ++ rows.map (fun value => (none,value))
  | eraseRow row, table => removeSwap table row
  | swapRows row1 row2, table => swapAt table row1 row2
  | clear, _ => []

/-- The instruction is one that can stand in a log where the table is `table`. -/
def Fits (view : Aspect → α → β) : TableInstruction α → List (Option ℕ × α) → Prop
  | set row col value, table => ∃ r, table[row]? = some r ∧
      ∀ a, a ≠ Aspect.contents → a ≠ Aspect.column col → view a value = view a r.2
  | insertEmptyRows rows, _ => rows ≠ []
  | eraseRow row, table => row < table.length
  | swapRows row1 row2, table => row1 < row2 ∧ row2 < table.length
  | clear, _ => True

/-- The part of `TransactLogObserver` that handles the table it has selected, when the moves
in the table are needed. `priorRows` is the number of rows before the instruction. -/
def observe (b : Build) (priorRows : ℕ) : TableInstruction α → CollectionChangeBuilder →
    CollectionChangeBuilder
  | set row col _, change => change.modify b row (some col)
  | insertEmptyRows rows, change => change.insert b priorRows rows.length true
  | eraseRow row, change => change.moveOver b row (priorRows-1) true
  | swapRows row1 row2, change => change.swap b row1 row2 true
  | clear, change => change.clear b (npos b)

end TableInstruction

namespace CollectionChangeBuilder

variable {b : Build} {view : Aspect → α → β} {c c' : CollectionChangeBuilder} {xs : List α}
  {table table' : List (Option ℕ × α)}

/-- The builder follows the table from the rows `xs` on: it knows of each row where it was, and
marks those that differ from what they were. -/
structure Follows (b : Build) (view : Aspect → α → β) (c : CollectionChangeBuilder)
    (xs : List α) (table : List (Option ℕ × α)) : Prop where
  deletions : c.deletions.Verified b
  insertions : c.insertions.Verified b
  tracked : ∀ a, (c.tracked a).Verified b
  within : ∀ a, c.changed a ⊆ c.changed Aspect.contents
  marks : ∀ a, c.changed a ⊆ Finset.range table.length
  no_moves : c.moves = []
  inPlace : InPlace c.deleted c.added xs.length table.length
  unmapped : ∀ i, i ∉ c.added → c.moveMapping.lookup i = none
  origin : ∀ (i : ℕ) (r : Option ℕ × α), table[i]? = some r →
    r.1 = if i ∈ c.added then c.moveMapping.lookup i else some i
  distinct : ∀ (i j : ℕ) (r s : Option ℕ × α) (o : ℕ), table[i]? = some r → table[j]? = some s → r.1 = some o →
    s.1 = some o → i = j
  old : ∀ (i : ℕ) (r : Option ℕ × α) (o : ℕ), table[i]? = some r → r.1 = some o → o < xs.length
  same : ∀ a (i : ℕ) (r : Option ℕ × α) (o : ℕ), table[i]? = some r → r.1 = some o →
    i ∉ c.changed a → xs[o]?.map (view a) = some (view a r.2)

/-- The rows of the new table are rows of the old one, each from its place `σ i`. -/
theorem Follows.rearrange (h : Follows b view c xs table) (σ : ℕ → ℕ)
    (hrows : ∀ i, i < table'.length → table'[i]? = table[σ i]?)
    (hinj : ∀ i j, i < table'.length → j < table'.length → σ i = σ j → i = j)
    (hD : c'.deletions.Verified b) (hI : c'.insertions.Verified b)
    (hM : ∀ a, (c'.tracked a).Verified b)
    (hwithin : ∀ a, c'.changed a ⊆ c'.changed Aspect.contents)
    (hmarks : ∀ a, c'.changed a ⊆ Finset.range table'.length) (hmoves : c'.moves = [])
    (hplace : InPlace c'.deleted c'.added xs.length table'.length)
    (hunmapped : ∀ i, i ∉ c'.added → c'.moveMapping.lookup i = none)
    (hkept : ∀ i, i < table'.length → i ∉ c'.added → i ∉ c.added ∧ σ i = i)
    (hmapped : ∀ i, i < table'.length → i ∈ c'.added → c'.moveMapping.lookup i =
      if σ i ∈ c.added then c.moveMapping.lookup (σ i) else some (σ i))
    (hchanged : ∀ a i, i < table'.length → σ i ∈ c.changed a → i ∈ c'.changed a) :
    Follows b view c' xs table' := by
  have hlt {i : ℕ} {r : Option ℕ × α} (hr : table'[i]? = some r) : i < table'.length :=
    (List.getElem?_eq_some_iff.mp hr).1
  have hrow {i : ℕ} {r : Option ℕ × α} (hr : table'[i]? = some r) : table[σ i]? = some r := by
    rw [← hrows i (hlt hr), hr]
  refine ⟨hD, hI, hM, hwithin, hmarks, hmoves, hplace, hunmapped, ?_, ?_, ?_, ?_⟩
  · intro i r hr
    have horigin := h.origin (σ i) r (hrow hr)
    by_cases hin : i ∈ c'.added
    · rw [if_pos hin, hmapped i (hlt hr) hin, horigin]
    · obtain ⟨hnot,hσ⟩ := hkept i (hlt hr) hin
      rw [if_neg hin, horigin, hσ, if_neg hnot]
  · intro i j r s o hr hs hro hso
    exact hinj i j (hlt hr) (hlt hs) (h.distinct _ _ r s o (hrow hr) (hrow hs) hro hso)
  · exact fun i r o hr hro => h.old _ r o (hrow hr) hro
  · intro a i r o hr hro hnot
    exact h.same a _ r o (hrow hr) hro (fun hin => hnot (hchanged a i (hlt hr) hin))

theorem follows_start (xs : List α) :
    Follows b view {} xs (xs.mapIdx (fun i x => (some i,x))) := by
  have hnone (a : Aspect) : ({} : CollectionChangeBuilder).tracked a = { data := [] } := by
    cases a with
    | identity => rfl
    | contents => rfl
    | column k => rfl
  have hchanged (a : Aspect) : ({} : CollectionChangeBuilder).changed a = ∅ := by
    rw [changed, hnone]
    rfl
  have hrow (i : ℕ) (r : Option ℕ × α) (hr : (xs.mapIdx (fun i x => (some i,x)))[i]? = some r) :
      r.1 = some i ∧ xs[i]? = some r.2 := by
    rw [List.getElem?_mapIdx] at hr
    obtain ⟨x,hx,rfl⟩ := Option.map_eq_some_iff.mp hr
    exact ⟨rfl, hx⟩
  refine ⟨IndexSet.represents_empty.verified, IndexSet.represents_empty.verified, ?_, ?_, ?_, rfl,
    ⟨Finset.empty_subset _, ?_⟩, fun _ _ => rfl, ?_, ?_, ?_, ?_⟩
  · intro a
    rw [hnone]
    exact IndexSet.represents_empty.verified
  · intro a
    rw [hchanged]
    exact Finset.empty_subset _
  · intro a
    rw [hchanged]
    exact Finset.empty_subset _
  · intro i
    rw [List.length_mapIdx]
    exact Iff.rfl
  · intro i r hr
    rw [(hrow i r hr).1]
    rfl
  · intro i j r s o hr hs hro hso
    rw [(hrow i r hr).1] at hro
    rw [(hrow j s hs).1] at hso
    exact (Option.some.inj hro).trans (Option.some.inj hso).symm
  · intro i r o hr hro
    obtain ⟨hi,hx⟩ := hrow i r hr
    rw [hi] at hro
    rw [← Option.some.inj hro]
    exact (List.getElem?_eq_some_iff.mp hx).1
  · intro a i r o hr hro _
    obtain ⟨hi,hx⟩ := hrow i r hr
    rw [hi] at hro
    rw [← Option.some.inj hro, hx]
    rfl

/-! Swapping rows -/

/-- A row that was not moved before is marked at its own place. -/
theorem addMove_spec {n m source : ℕ} (hD : c.deletions.Verified b)
    (hI : c.insertions.Verified b) (hplace : InPlace c.deleted c.added n m) (hm : source < m)
    (target : ℕ) :
    IndexSet.Represents b (c.addMove b source target).deletions
      (if source ∈ c.added then c.deleted else insert source c.deleted) ∧
    IndexSet.Represents b (c.addMove b source target).insertions (insert source c.added) ∧
    (c.addMove b source target).moveMapping =
      (if source ∈ c.added then c.moveMapping else c.moveMapping.insert target source) ∧
    (c.addMove b source target).moves = c.moves ∧
    (c.addMove b source target).modifications = c.modifications ∧
    (c.addMove b source target).columns = c.columns := by
  have hcontains : c.insertions.contains source = true ↔ source ∈ c.added :=
    IndexSet.contains_iff (represents_self hI) source
  by_cases hin : source ∈ c.added
  · have hval : c.addMove b source target = c := by
      rw [addMove, if_pos (hcontains.mpr hin)]
    rw [hval, if_pos hin, if_pos hin, Finset.insert_eq_of_mem hin]
    exact ⟨represents_self hD, represents_self hI, rfl, rfl, rfl, rfl⟩
  · have hadd := IndexSet.addShifted_spec (represents_self hD) (c.insertions.unshift source)
    have hback : IndexShift.shift c.deletions.indices (c.insertions.unshift source) = source := by
      rw [IndexSet.unshift_eq (represents_self hI)]
      exact hplace.place hm hin
    rw [hback] at hadd
    have hval : c.addMove b source target = { c with
        deletions := (c.deletions.addShifted b (c.insertions.unshift source)).1
        moveMapping := c.moveMapping.insert target source
        insertions := c.insertions.add b source } := by
      rw [addMove, if_neg (fun h => hin (hcontains.mp h))]
      simp only [hadd.2]
    rw [hval, if_neg hin, if_neg hin]
    exact ⟨hadd.1, IndexSet.add_represents (represents_self hI) source, rfl, rfl, rfl, rfl⟩

/-- The marks of two rows that are swapped. -/
def swappedMarks (i j : ℕ) (S : Finset ℕ) : Finset ℕ :=
  if i ∈ S ↔ j ∈ S then S else if i ∈ S then insert j (S.erase i) else insert i (S.erase j)

theorem mem_swappedMarks {i j k : ℕ} {S : Finset ℕ} :
    k ∈ swappedMarks i j S ↔ Equiv.swap i j k ∈ S := by
  rw [swappedMarks, Equiv.swap_apply_def]
  split_ifs <;> grind

theorem represents_swapped {v : IndexSet} {S : Finset ℕ} (hv : IndexSet.Represents b v S)
    (i j : ℕ) : IndexSet.Represents b
      (if v.contains i = v.contains j then v
        else if v.contains i then (v.remove b i 1).add b j else (v.remove b j 1).add b i)
      (swappedMarks i j S) := by
  have hi := IndexSet.contains_iff hv i
  have hj := IndexSet.contains_iff hv j
  have hiff : v.contains i = v.contains j ↔ (i ∈ S ↔ j ∈ S) := by
    rw [← hi, ← hj, Bool.eq_iff_iff]
  rw [swappedMarks]
  by_cases hboth : i ∈ S ↔ j ∈ S
  · rw [if_pos (hiff.mpr hboth), if_pos hboth]
    exact hv
  rw [if_neg (fun h => hboth (hiff.mp h)), if_neg hboth]
  by_cases hin : i ∈ S
  · rw [if_pos (hi.mpr hin), if_pos hin]
    exact IndexSet.add_represents (remove_one hv i) j
  · rw [if_neg (fun h => hin (hi.mp h)), if_neg hin]
    exact IndexSet.add_represents (remove_one hv j) i

theorem swapped_subset {i j m : ℕ} {S : Finset ℕ} (hi : i < m) (hj : j < m)
    (hS : S ⊆ Finset.range m) : swappedMarks i j S ⊆ Finset.range m := by
  intro k hk
  have hin := Finset.mem_range.mp (hS (mem_swappedMarks.mp hk))
  rw [Equiv.swap_apply_def] at hin
  rw [Finset.mem_range]
  split_ifs at hin with hki hkj
  · omega
  · omega
  · exact hin

theorem getElem?_swapAt {l : List β} {i j : ℕ} (hi : i < l.length) (hj : j < l.length) (k : ℕ) :
    (swapAt l i j)[k]? = l[Equiv.swap i j k]? := by
  rw [swapAt, List.getElem?_eq_getElem hi, List.getElem?_eq_getElem hj, Equiv.swap_apply_def]
  simp only [List.getElem?_set, List.length_set]
  split_ifs <;> grind

theorem length_swapAt (l : List β) (i j : ℕ) : (swapAt l i j).length = l.length := by
  rw [swapAt]
  split
  · rw [List.length_set, List.length_set]
  · rfl

/-- What rows that change places do to the deletions, the insertions and the mapping. -/
structure Exchanged (b : Build) (c c' : CollectionChangeBuilder) (n m i j : ℕ) : Prop where
  deletions : c'.deletions.Verified b
  insertions : c'.insertions.Verified b
  inPlace : InPlace c'.deleted c'.added n m
  added_eq : c'.added = insert i (insert j c.added)
  moves_eq : c'.moves = c.moves
  modifications_eq : c'.modifications = c.modifications
  columns_eq : c'.columns = c.columns
  first : c'.moveMapping.lookup i =
    if j ∈ c.added then c.moveMapping.lookup j else some j
  second : c'.moveMapping.lookup j =
    if i ∈ c.added then c.moveMapping.lookup i else some i
  others : ∀ k, k ≠ i → k ≠ j → c'.moveMapping.lookup k = c.moveMapping.lookup k

theorem Exchanged.swap {n m i j : ℕ} (h : Exchanged b c c' n m i j) : Exchanged b c c' n m j i :=
  { h with
    added_eq := by rw [h.added_eq, Finset.insert_comm]
    first := h.second
    second := h.first
    others := fun k hi hj => h.others k hj hi }

/-- One of the two rows was moved before. -/
theorem updateMove_exchanged {n m i j original : ℕ} (hD : c.deletions.Verified b)
    (hI : c.insertions.Verified b) (hplace : InPlace c.deleted c.added n m) (hj : j < m)
    (hij : i ≠ j) (hi : i ∈ c.added) (hli : c.moveMapping.lookup i = some original)
    (hlj : c.moveMapping.lookup j = none) :
    Exchanged b c (c.updateMove b original j i) n m i j := by
  obtain ⟨hdel,hins,hmap,hmoves,hmod,hcol⟩ := addMove_spec
    (c := { c with moveMapping := (c.moveMapping.erase i).insert j original }) hD hI hplace hj i
  have hdeleted : (c.updateMove b original j i).deleted =
      if j ∈ c.added then c.deleted else insert j c.deleted := hdel.indices_eq
  have hadded : (c.updateMove b original j i).added = insert j c.added := hins.indices_eq
  change (c.updateMove b original j i).moveMapping = if j ∈ c.added then
    (c.moveMapping.erase i).insert j original
    else ((c.moveMapping.erase i).insert j original).insert i j at hmap
  refine ⟨hdel.verified, hins.verified, ?_, ?_, hmoves, hmod, hcol, ?_, ?_, ?_⟩
  · rw [hdeleted, hadded]
    exact hplace.mark hj
  · rw [hadded, Finset.insert_eq_of_mem (Finset.mem_insert_of_mem hi)]
  · by_cases hin : j ∈ c.added
    · rw [hmap, if_pos hin, if_pos hin, AList.lookup_insert_ne hij, AList.lookup_erase, hlj]
    · rw [hmap, if_neg hin, if_neg hin, AList.lookup_insert]
  · rw [if_pos hi, hli, hmap]
    by_cases hin : j ∈ c.added
    · rw [if_pos hin, AList.lookup_insert]
    · rw [if_neg hin, AList.lookup_insert_ne hij.symm, AList.lookup_insert]
  · intro k hki hkj
    rw [hmap]
    by_cases hin : j ∈ c.added
    · rw [if_pos hin, AList.lookup_insert_ne hkj, AList.lookup_erase_ne hki]
    · rw [if_neg hin, AList.lookup_insert_ne hki, AList.lookup_insert_ne hkj,
        AList.lookup_erase_ne hki]

/-- Neither row was moved before. -/
theorem addMoves_exchanged {n m i j : ℕ} (hD : c.deletions.Verified b)
    (hI : c.insertions.Verified b) (hplace : InPlace c.deleted c.added n m) (hi : i < m)
    (hj : j < m) (hij : i ≠ j) (hli : c.moveMapping.lookup i = none)
    (hlj : c.moveMapping.lookup j = none) :
    Exchanged b c ((c.addMove b j i).addMove b i j) n m i j := by
  obtain ⟨hdel,hins,hmap,hmoves,hmod,hcol⟩ := addMove_spec hD hI hplace hj i
  have hdeleted : (c.addMove b j i).deleted =
      if j ∈ c.added then c.deleted else insert j c.deleted := hdel.indices_eq
  have hadded : (c.addMove b j i).added = insert j c.added := hins.indices_eq
  have hplace' : InPlace (c.addMove b j i).deleted (c.addMove b j i).added n m := by
    rw [hdeleted, hadded]
    exact hplace.mark hj
  obtain ⟨hdel',hins',hmap',hmoves',hmod',hcol'⟩ :=
    addMove_spec hdel.verified hins.verified hplace' hi j
  have hdeleted' : ((c.addMove b j i).addMove b i j).deleted =
      if i ∈ (c.addMove b j i).added then (c.addMove b j i).deleted
      else insert i (c.addMove b j i).deleted := hdel'.indices_eq
  have hadded' : ((c.addMove b j i).addMove b i j).added =
      insert i (c.addMove b j i).added := hins'.indices_eq
  have hsame : i ∈ (c.addMove b j i).added ↔ i ∈ c.added := by
    rw [hadded, Finset.mem_insert]
    exact or_iff_right hij
  refine ⟨hdel'.verified, hins'.verified, ?_, ?_, hmoves'.trans hmoves, hmod'.trans hmod,
    hcol'.trans hcol, ?_, ?_, ?_⟩
  · rw [hdeleted', hadded']
    exact hplace'.mark hi
  · rw [hadded', hadded]
  · have hfirst : ((c.addMove b j i).addMove b i j).moveMapping.lookup i =
        (c.addMove b j i).moveMapping.lookup i := by
      rw [hmap']
      split_ifs
      · rfl
      · rw [AList.lookup_insert_ne hij]
    rw [hfirst, hmap]
    by_cases hin : j ∈ c.added
    · rw [if_pos hin, if_pos hin, hli, hlj]
    · rw [if_neg hin, if_neg hin, AList.lookup_insert]
  · rw [hmap']
    by_cases hin : i ∈ c.added
    · rw [if_pos (hsame.mpr hin), if_pos hin, hmap, hli]
      split_ifs
      · exact hlj
      · rw [AList.lookup_insert_ne hij.symm, hlj]
    · rw [if_neg (fun h => hin (hsame.mp h)), if_neg hin, AList.lookup_insert]
  · intro k hki hkj
    have hsecond : ((c.addMove b j i).addMove b i j).moveMapping.lookup k =
        (c.addMove b j i).moveMapping.lookup k := by
      rw [hmap']
      split_ifs
      · rfl
      · rw [AList.lookup_insert_ne hkj]
    rw [hsecond, hmap]
    split_ifs
    · rfl
    · rw [AList.lookup_insert_ne hki]

/-- All four cases of a swap. -/
theorem swap_exchanged {n m i j : ℕ} (hD : c.deletions.Verified b)
    (hI : c.insertions.Verified b) (hplace : InPlace c.deleted c.added n m) (hi : i < m)
    (hj : j < m) (hij : i ≠ j)
    (hunmapped : ∀ k, k ∉ c.added → c.moveMapping.lookup k = none) :
    Exchanged b c
      (match c.moveMapping.lookup i, c.moveMapping.lookup j with
      | some original1, some original2 =>
        { c with moveMapping := (c.moveMapping.insert i original2).insert j original1 }
      | some original1, none => c.updateMove b original1 j i
      | none, some original2 => c.updateMove b original2 i j
      | none, none => (c.addMove b j i).addMove b i j) n m i j := by
  have hmem {k o : ℕ} (hk : c.moveMapping.lookup k = some o) : k ∈ c.added := by
    by_contra hnot
    rw [hunmapped k hnot] at hk
    exact absurd hk (by simp)
  cases hli : c.moveMapping.lookup i with
  | none =>
    cases hlj : c.moveMapping.lookup j with
    | none => exact addMoves_exchanged hD hI hplace hi hj hij hli hlj
    | some o => exact (updateMove_exchanged hD hI hplace hi hij.symm (hmem hlj) hlj hli).swap
  | some o =>
    cases hlj : c.moveMapping.lookup j with
    | none => exact updateMove_exchanged hD hI hplace hj hij (hmem hli) hli hlj
    | some o' =>
      have hboth : insert i (insert j c.added) = c.added := by
        rw [Finset.insert_eq_of_mem (hmem hlj), Finset.insert_eq_of_mem (hmem hli)]
      refine ⟨hD, hI, hplace, hboth.symm, rfl, rfl, rfl, ?_, ?_, ?_⟩
      · rw [if_pos (hmem hlj), hlj]
        exact (AList.lookup_insert_ne hij).trans (AList.lookup_insert _)
      · rw [if_pos (hmem hli), hli]
        exact AList.lookup_insert _
      · intro k hki hkj
        exact (AList.lookup_insert_ne hkj).trans (AList.lookup_insert_ne hki)

theorem Follows.exchanged {i j : ℕ} (h : Follows b view c xs table) (hi : i < table.length)
    (hj : j < table.length)
    (hx : Exchanged b (c.forEachCol (fun col =>
      if col.contains i = col.contains j then col
      else if col.contains i then (col.remove b i 1).add b j
      else (col.remove b j 1).add b i)) c' xs.length table.length i j) :
    Follows b view c' xs (swapAt table i j) := by
  have hcols (a : Aspect) : IndexSet.Represents b (c'.tracked a)
      (swappedMarks i j (c.changed a)) := by
    rw [tracked_congr hx.modifications_eq hx.columns_eq]
    exact represents_forEachCol (F := swappedMarks i j) (by simp [swappedMarks])
      (fun v S hv => represents_swapped hv i j) (fun a => represents_self (h.tracked a)) a
  have hchanged (a : Aspect) : c'.changed a = swappedMarks i j (c.changed a) :=
    (hcols a).indices_eq
  have hlen := length_swapAt table i j
  refine h.rearrange (Equiv.swap i j) ?_ ?_ hx.deletions hx.insertions
    (fun a => (hcols a).verified) ?_ ?_ (hx.moves_eq.trans h.no_moves) ?_ ?_ ?_ ?_ ?_
  · exact fun k _ => getElem?_swapAt hi hj k
  · exact fun k l _ _ he => (Equiv.swap i j).injective he
  · intro a k hk
    rw [hchanged, mem_swappedMarks] at hk ⊢
    exact h.within a hk
  · intro a
    rw [hchanged, hlen]
    exact swapped_subset hi hj (h.marks a)
  · rw [hlen]
    exact hx.inPlace
  · intro k hk
    rw [hx.added_eq, Finset.mem_insert, Finset.mem_insert, not_or, not_or] at hk
    rw [hx.others k hk.1 hk.2.1]
    exact h.unmapped k hk.2.2
  · intro k _ hk
    rw [hx.added_eq, Finset.mem_insert, Finset.mem_insert, not_or, not_or] at hk
    exact ⟨hk.2.2, Equiv.swap_apply_of_ne_of_ne hk.1 hk.2.1⟩
  · intro k _ hk
    by_cases hki : k = i
    · rw [hki, Equiv.swap_apply_left]
      exact hx.first
    by_cases hkj : k = j
    · rw [hkj, Equiv.swap_apply_right]
      exact hx.second
    rw [hx.added_eq, Finset.mem_insert, Finset.mem_insert] at hk
    have hin : k ∈ c.added := (hk.resolve_left hki).resolve_left hkj
    rw [Equiv.swap_apply_of_ne_of_ne hki hkj, if_pos hin]
    exact hx.others k hki hkj
  · intro a k _ hk
    rw [hchanged, mem_swappedMarks]
    exact hk

theorem swap_follows {i j : ℕ} (h : Follows b view c xs table) (hij : i < j)
    (hj : j < table.length) : Follows b view (c.swap b i j true) xs (swapAt table i j) := by
  have hi : i < table.length := by omega
  have hval : c.swap b i j true = swap.go b c true i j := by
    rw [CollectionChangeBuilder.swap, min_eq_left (Nat.le_of_lt hij),
      max_eq_right (Nat.le_of_lt hij)]
  rw [hval, swap.go, if_neg (by simp)]
  apply h.exchanged hi hj
  exact swap_exchanged h.deletions h.insertions h.inPlace hi hj (Nat.ne_of_lt hij) h.unmapped

end CollectionChangeBuilder

end ObjectStore
