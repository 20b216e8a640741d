import CurrencyConverter.ObjectStore.ChangeTracking

/-! Merging two change sets in a row into one that leads from the first version of the
collection to the last one. -/
namespace ObjectStore

open SequenceDiff

namespace CollectionChangeBuilder

variable {b : Build} {c other other₀ : CollectionChangeBuilder} {α : Type*} {xs ys zs : List α}
  {a : Aspect} {m : Move}

theorem removeSwap_perm {β : Type*} {l : List β} {i : ℕ} {x : β} (h : l[i]? = some x) :
    l.Perm (x :: removeSwap l i) := by
  obtain ⟨A,B,rfl,rfl⟩ : ∃ A B, l = A ++ x :: B ∧ A.length = i := by
    obtain ⟨hi,hx⟩ := List.getElem?_eq_some_iff.mp h
    refine ⟨l.take i, l.drop (i+1), ?_, ?_⟩
    · rw [← hx, ← List.drop_eq_getElem_cons hi, List.take_append_drop]
    · rw [List.length_take]
      omega
  rcases List.eq_nil_or_concat B with rfl | ⟨B,last,rfl⟩
  · have hswap : removeSwap (A ++ [x]) A.length = A := by simp [removeSwap]
    rw [hswap]
    exact List.perm_append_singleton x A
  · have hlast : (A ++ x :: (B ++ [last])).getLast? = some last := by
      rw [← List.cons_append, ← List.append_assoc, List.getLast?_concat]
    have hswap : removeSwap (A ++ x :: (B ++ [last])) A.length = A ++ last :: B := by
      rw [removeSwap, hlast]
      have hset : (A ++ x :: (B ++ [last])).set A.length last =
          (A ++ last :: B) ++ [last] := by simp
      simp only [hset, List.dropLast_concat]
    rw [List.concat_eq_append, hswap]
    apply List.perm_middle.trans
    apply List.Perm.cons
    calc (A ++ (B ++ [last])).Perm (A ++ ([last] ++ B)) :=
          (List.perm_append_comm).append_left A
      _ = A ++ last :: B := rfl

theorem carryModified_tracked (hc : ∀ a, (c.tracked a).Verified b)
    (ho : ∀ a, (other.tracked a).Verified b) (m : Move) (a : Aspect) :
    ((c.carryModified b m other).tracked a).Verified b ∧
      (c.carryModified b m other).changed a =
        if m.from ∈ c.changed a then insert m.to (other.changed a) else other.changed a := by
  have h := represents_forEachPair (c := c)
    (f := fun col other => if col.contains m.from then other.add b m.to else other)
    (F := fun S S' => if m.from ∈ S then insert m.to S' else S') (by simp)
    (by
      intro v v' S S' hv hv'
      by_cases hm : m.from ∈ S
      · rw [if_pos ((IndexSet.contains_iff hv _).mpr hm), if_pos hm]
        exact IndexSet.add_represents hv' _
      · rw [if_neg (fun h => hm ((IndexSet.contains_iff hv _).mp h)), if_neg hm]
        exact hv')
    (fun a => represents_self (hc a)) (fun a => represents_self (ho a)) a
  exact ⟨h.verified, h.indices_eq⟩

/-- What the merge makes of the newer change set before it is put in: the same rows come and
go, and moved rows that were modified before are marked as well. -/
structure Carrying (b : Build) (c other₀ other : CollectionChangeBuilder) : Prop where
  deletions_eq : other.deletions = other₀.deletions
  insertions_eq : other.insertions = other₀.insertions
  tracked : ∀ a, (other.tracked a).Verified b
  within : ∀ a, other.changed a ⊆ other.changed Aspect.contents
  grows : ∀ a, other₀.changed a ⊆ other.changed a
  origin : ∀ a, ∀ t ∈ other.changed a, t ∈ other₀.changed a ∨
    ∃ m ∈ other₀.moves, m.from ∈ c.changed a ∧ m.to = t
  moves : ∀ m ∈ other.moves, m ∈ other₀.moves

theorem carrying_start (h : WellFormed b other) : Carrying b c other other where
  deletions_eq := rfl
  insertions_eq := rfl
  tracked := h.tracked
  within := h.within
  grows := fun _ _ ht => ht
  origin := fun _ _ ht => Or.inl ht
  moves := fun _ hm => hm

/-- Fewer moves are carried as well. -/
theorem Carrying.withMoves (h : Carrying b c other₀ other) {l : List Move}
    (hl : ∀ m ∈ l, m ∈ other.moves) : Carrying b c other₀ { other with moves := l } :=
  { h with moves := fun m hm => h.moves m (hl m hm) }

theorem Carrying.carry (h : Carrying b c other₀ other) (hc : WellFormed b c)
    (hm : m ∈ other₀.moves) : Carrying b c other₀ (c.carryModified b m other) ∧
      (∀ a, other.changed a ⊆ (c.carryModified b m other).changed a) ∧
      ∀ a, m.from ∈ c.changed a → m.to ∈ (c.carryModified b m other).changed a := by
  have hval := carryModified_tracked hc.tracked h.tracked m
  have hsub (a : Aspect) : other.changed a ⊆ (c.carryModified b m other).changed a := by
    rw [(hval a).2]
    split
    · exact Finset.subset_insert _ _
    · exact Finset.Subset.refl _
  refine ⟨?_, hsub, ?_⟩
  · refine ⟨h.deletions_eq, h.insertions_eq, fun a => (hval a).1, ?_,
      fun a => (h.grows a).trans (hsub a), ?_, h.moves⟩
    · intro a t ht
      rw [(hval a).2] at ht
      by_cases hin : m.from ∈ c.changed a
      · rw [if_pos hin, Finset.mem_insert] at ht
        rcases ht with rfl | ht
        · rw [(hval _).2, if_pos (hc.within a hin)]
          exact Finset.mem_insert_self _ _
        · exact hsub _ (h.within a ht)
      · rw [if_neg hin] at ht
        exact hsub _ (h.within a ht)
    · intro a t ht
      rw [(hval a).2] at ht
      by_cases hin : m.from ∈ c.changed a
      · rw [if_pos hin, Finset.mem_insert] at ht
        rcases ht with rfl | ht
        · exact Or.inr ⟨m, hm, hin, rfl⟩
        · exact h.origin a t ht
      · rw [if_neg hin] at ht
        exact h.origin a t ht
  · intro a hin
    rw [(hval a).2, if_pos hin]
    exact Finset.mem_insert_self _ _

/-- Carrying one move after the other. -/
theorem Carrying.foldl (hc : WellFormed b c) (l : List Move) (h : Carrying b c other₀ other)
    (hl : ∀ m ∈ l, m ∈ other₀.moves) :
    Carrying b c other₀ (l.foldl (fun other m => c.carryModified b m other) other) ∧
      (∀ a, other.changed a ⊆
        (l.foldl (fun other m => c.carryModified b m other) other).changed a) ∧
      ∀ a, ∀ m ∈ l, m.from ∈ c.changed a →
        m.to ∈ (l.foldl (fun other m => c.carryModified b m other) other).changed a := by
  induction l generalizing other with
  | nil => exact ⟨h, fun _ => Finset.Subset.refl _, by simp⟩
  | cons m l ih =>
    obtain ⟨h',hsub,hin⟩ := h.carry hc (hl m List.mem_cons_self)
    obtain ⟨h'',hsub',hin'⟩ := ih h' (fun m' hm' => hl m' (List.mem_cons_of_mem m hm'))
    refine ⟨h'', fun a => (hsub a).trans (hsub' a), ?_⟩
    intro a m' hm' hfrom
    rcases List.mem_cons.mp hm' with rfl | hm'
    · exact hsub' a (hin a hfrom)
    · exact hin' a m' hm' hfrom

/-- Where an old move leads after the newer changes: to where the row moved again, or to
where it was shifted. -/
def LeadsOn (c other₀ other : CollectionChangeBuilder) (old new : Move) : Prop :=
  new.from = old.from ∧
    ((∃ m ∈ other₀.moves, m.from = old.to ∧ m.to = new.to ∧
        ∀ a, old.to ∈ c.changed a → new.to ∈ other.changed a) ∨
      (old.to ∉ other₀.deleted ∧
        new.to = IndexShift.shift other₀.added (IndexShift.unshift other₀.deleted old.to)))

theorem LeadsOn.mono {other' : CollectionChangeBuilder} {old new : Move}
    (h : LeadsOn c other₀ other old new) (hsub : ∀ a, other.changed a ⊆ other'.changed a) :
    LeadsOn c other₀ other' old new := by
  refine ⟨h.1, h.2.imp_left ?_⟩
  rintro ⟨m,hm,hfrom,hto,hcarry⟩
  exact ⟨m, hm, hfrom, hto, fun a ha => hsub a (hcarry a ha)⟩

/-- The old moves after the newer changes, and what is left of those. -/
structure Updated (b : Build) (c other₀ other : CollectionChangeBuilder) (olds : List Move)
    (updated : List Move × CollectionChangeBuilder) : Prop where
  carrying : Carrying b c other₀ updated.2
  grows : ∀ a, other.changed a ⊆ updated.2.changed a
  moves : ∀ m ∈ updated.2.moves, m ∈ other.moves
  from_nodup : (updated.2.moves.map Move.from).Nodup
  leads : ∀ n ∈ updated.1, ∃ old ∈ olds, LeadsOn c other₀ updated.2 old n
  place : ∀ n ∈ updated.1, n.to ∈ other.moves.map Move.to ∨ ∃ old ∈ olds,
    old.to ∉ other₀.deleted ∧
      n.to = IndexShift.shift other₀.added (IndexShift.unshift other₀.deleted old.to)
  sublist : (updated.1.map Move.from).Sublist (olds.map Move.from)
  to_nodup : (updated.1.map Move.to ++ updated.2.moves.map Move.to).Nodup

theorem Updated.moved {old : Move} {olds : List Move} {i : ℕ}
    {updated : List Move × CollectionChangeBuilder} (hc : WellFormed b c)
    (h₀ : WellFormed b other₀) (h : Carrying b c other₀ other)
    (hto : (other.moves.map Move.to).Nodup) (hm : other.moves[i]? = some m)
    (hold : old.to = m.from)
    (hu : Updated b c other₀ { c.carryModified b m other with moves := removeSwap other.moves i }
      olds updated) :
    Updated b c other₀ other (old :: olds) ({ old with «to» := m.to } :: updated.1, updated.2) := by
  have hmem : m ∈ other.moves := List.mem_of_getElem? hm
  have hperm := removeSwap_perm hm
  obtain ⟨_,hsub,hin⟩ := h.carry hc (h.moves m hmem)
  have hrest (m' : Move) (hm' : m' ∈ removeSwap other.moves i) : m' ∈ other.moves :=
    hperm.mem_iff.mpr (List.mem_cons_of_mem m hm')
  have hto' : (m.to :: (removeSwap other.moves i).map Move.to).Nodup :=
    (hperm.map Move.to).nodup_iff.mp hto
  have hfresh := (List.nodup_cons.mp hto').1
  refine ⟨hu.carrying, fun a => (hsub a).trans (hu.grows a), fun m' hm' => hrest m' (hu.moves m' hm'),
    hu.from_nodup, ?_, ?_, List.Sublist.cons_cons _ hu.sublist, ?_⟩
  · intro n hn
    rcases List.mem_cons.mp hn with rfl | hn
    · refine ⟨old, List.mem_cons_self, rfl, Or.inl ⟨m, h.moves m hmem, hold.symm, rfl, ?_⟩⟩
      intro a ha
      rw [hold] at ha
      exact hu.grows a (hin a ha)
    · obtain ⟨old',hold',hn'⟩ := hu.leads n hn
      exact ⟨old', List.mem_cons_of_mem old hold', hn'⟩
  · intro n hn
    rcases List.mem_cons.mp hn with rfl | hn
    · exact Or.inl (List.mem_map.mpr ⟨m, hmem, rfl⟩)
    · rcases hu.place n hn with hn' | ⟨old',hold',hn'⟩
      · obtain ⟨m',hm',hto'⟩ := List.mem_map.mp hn'
        exact Or.inl (List.mem_map.mpr ⟨m', hrest m' hm', hto'⟩)
      · exact Or.inr ⟨old', List.mem_cons_of_mem old hold', hn'⟩
  · rw [List.map_cons, List.cons_append, List.nodup_cons]
    refine ⟨?_, hu.to_nodup⟩
    -- the destination taken is no other move's, and no row is shifted to a new place
    intro hmem'
    rcases List.mem_append.mp hmem' with hmem' | hmem'
    · obtain ⟨n,hn,hnto⟩ := List.mem_map.mp hmem'
      rcases hu.place n hn with hn' | ⟨old',_,_,hn'⟩
      · rw [hnto] at hn'
        exact hfresh hn'
      · have hadded := h₀.to_mem m (h.moves m hmem)
        rw [hnto] at hn'
        change m.to = _ at hn'
        rw [hn'] at hadded
        exact IndexShift.shift_not_mem _ _ hadded
    · obtain ⟨m',hm',hto''⟩ := List.mem_map.mp hmem'
      exact hfresh (List.mem_map.mpr ⟨m', hu.moves m' hm', hto''⟩)

theorem Updated.skip {old : Move} {olds : List Move}
    {updated : List Move × CollectionChangeBuilder} (hu : Updated b c other₀ other olds updated) :
    Updated b c other₀ other (old :: olds) updated :=
  { hu with
    leads := fun n hn => by
      obtain ⟨old',hold',hn'⟩ := hu.leads n hn
      exact ⟨old', List.mem_cons_of_mem old hold', hn'⟩
    place := fun n hn => (hu.place n hn).imp_right (by
      rintro ⟨old',hold',hn'⟩
      exact ⟨old', List.mem_cons_of_mem old hold', hn'⟩)
    sublist := hu.sublist.cons _ }

theorem Updated.shifted {old : Move} {olds : List Move}
    {updated : List Move × CollectionChangeBuilder} (h₀ : WellFormed b other₀)
    (h : Carrying b c other₀ other) (hstay : old.to ∉ other₀.deleted)
    (hdel : ∀ n ∈ olds, n.to ≠ old.to)
    (hu : Updated b c other₀ other olds updated) :
    Updated b c other₀ other (old :: olds)
      ({ old with «to» :=
        IndexShift.shift other₀.added (IndexShift.unshift other₀.deleted old.to) } :: updated.1,
        updated.2) := by
  have hskip := @Updated.skip _ _ _ _ old _ _ hu
  refine ⟨hu.carrying, hu.grows, hu.moves, hu.from_nodup, ?_, ?_,
    List.Sublist.cons_cons _ hu.sublist, ?_⟩
  · intro n hn
    rcases List.mem_cons.mp hn with rfl | hn
    · exact ⟨old, List.mem_cons_self, rfl, Or.inr ⟨hstay, rfl⟩⟩
    · exact hskip.leads n hn
  · intro n hn
    rcases List.mem_cons.mp hn with rfl | hn
    · exact Or.inr ⟨old, List.mem_cons_self, hstay, rfl⟩
    · exact hskip.place n hn
  · rw [List.map_cons, List.cons_append, List.nodup_cons]
    refine ⟨?_, hu.to_nodup⟩
    have hnew (m : Move) (hm : m ∈ other.moves) : m.to ≠
        IndexShift.shift other₀.added (IndexShift.unshift other₀.deleted old.to) := by
      intro he
      have hadded := h₀.to_mem m (h.moves m hm)
      rw [he] at hadded
      exact IndexShift.shift_not_mem _ _ hadded
    intro hmem
    rcases List.mem_append.mp hmem with hmem | hmem
    · obtain ⟨n,hn,hnto⟩ := List.mem_map.mp hmem
      rcases hu.place n hn with hn' | ⟨old',hold',hdel',hn'⟩
      · obtain ⟨m,hm,hmto⟩ := List.mem_map.mp hn'
        exact hnew m hm (hmto.trans hnto)
      · have he := IndexShift.shift_injective (hn'.symm.trans hnto)
        exact hdel old' hold' (IndexShift.unshift_inj hdel' hstay he)
    · obtain ⟨m,hm,hmto⟩ := List.mem_map.mp hmem
      exact hnew m (hu.moves m hm) hmto

theorem updateOldMoves_spec (hc : WellFormed b c) (h₀ : WellFormed b other₀) (olds : List Move)
    (h : Carrying b c other₀ other) (hfrom : (other.moves.map Move.from).Nodup)
    (hto : (other.moves.map Move.to).Nodup) (holds : (olds.map Move.to).Nodup) :
    Updated b c other₀ other olds (updateOldMoves b c olds other) := by
  induction olds generalizing other with
  | nil =>
    exact ⟨h, fun _ => Finset.Subset.refl _, fun _ hm => hm, hfrom, by simp [updateOldMoves],
      by simp [updateOldMoves], List.Sublist.refl _, by simpa [updateOldMoves] using hto⟩
  | cons old olds ih =>
    obtain ⟨hfresh,holds'⟩ := List.nodup_cons.mp holds
    rw [updateOldMoves]
    cases hfind : other.moves.findIdx? (fun m => old.to = m.from) with
    | some i =>
      obtain ⟨hi,hold,_⟩ := List.findIdx?_eq_some_iff_getElem.mp hfind
      have hm : other.moves[i]? = some other.moves[i] := List.getElem?_eq_getElem hi
      have hgetD : other.moves.getD i old = other.moves[i] := by
        rw [List.getD_eq_getElem?_getD, hm]
        rfl
      have hperm := removeSwap_perm hm
      have hrest (m' : Move) (hm' : m' ∈ removeSwap other.moves i) : m' ∈ other.moves :=
        hperm.mem_iff.mpr (List.mem_cons_of_mem _ hm')
      have hfrom' := List.nodup_cons.mp ((hperm.map Move.from).nodup_iff.mp hfrom)
      have hto' := List.nodup_cons.mp ((hperm.map Move.to).nodup_iff.mp hto)
      have hcarry := (h.carry hc (h.moves _ (List.getElem_mem hi))).1
      simp only [hgetD]
      apply Updated.moved hc h₀ h hto hm (of_decide_eq_true hold)
      exact ih (hcarry.withMoves hrest) hfrom'.2 hto'.2 holds'
    | none =>
      have hu := ih h hfrom hto holds'
      simp only []
      have hcontains : other.deletions.contains old.to = true ↔ old.to ∈ other₀.deleted := by
        rw [h.deletions_eq]
        exact IndexSet.contains_iff (represents_self h₀.deletions) _
      by_cases hdel : old.to ∈ other₀.deleted
      · rw [if_pos (hcontains.mpr hdel)]
        exact hu.skip
      · rw [if_neg (fun h => hdel (hcontains.mp h)), h.deletions_eq, h.insertions_eq,
          IndexSet.unshift_eq (represents_self h₀.deletions),
          IndexSet.shift_eq (represents_self h₀.insertions)]
        apply Updated.shifted h₀ h hdel _ hu
        intro n hn he
        exact hfresh (List.mem_map.mpr ⟨n, hn, he⟩)

/-- Taking a no-op move out with its deletion and insertion says the same about the rows. -/
theorem Describes.drop {M : Finset ℕ} {rest : List Move}
    (h : Describes { c with moves := c.moves ++ m :: rest } M xs ys)
    (hc : WellFormed b { c with moves := c.moves ++ m :: rest })
    (hrank : IndexShift.unshift c.deleted m.from = IndexShift.unshift c.added m.to) :
    Transforms (c.deleted.erase m.from) (c.added.erase m.to) M xs ys ∧
      (∀ n ∈ c.moves ++ rest,
        Carries (c.deleted.erase m.from) (c.added.erase m.to) M xs ys n.from n.to) ∧
      Fits (c.deleted.erase m.from) (c.added.erase m.to) xs.length ys.length := by
  have hperm : (c.moves ++ m :: rest).Perm (m :: (c.moves ++ rest)) := List.perm_middle
  have hfrom := List.nodup_cons.mp ((hperm.map Move.from).nodup_iff.mp hc.from_nodup)
  have hto := List.nodup_cons.mp ((hperm.map Move.to).nodup_iff.mp hc.to_nodup)
  have hm := h.carries m (by simp)
  refine ⟨h.transforms.restore hm.old hm.new hrank hm.item, ?_, h.fits.restore hm.old hm.new⟩
  intro n hn
  apply (h.carries n (hperm.mem_iff.mpr (List.mem_cons_of_mem m hn))).erase
  · intro he
    exact hfrom.1 (he ▸ List.mem_map_of_mem hn)
  · intro he
    exact hto.1 (he ▸ List.mem_map_of_mem hn)

theorem remove_one {v : IndexSet} {S : Finset ℕ} (h : IndexSet.Represents b v S) (i : ℕ) :
    IndexSet.Represents b (v.remove b i 1) (S.erase i) := by
  have hremove := IndexSet.remove_represents h i Nat.one_pos
  rwa [Nat.Ico_succ_singleton, Finset.sdiff_singleton_eq_erase] at hremove

/-- The rank among the rows that stay is what the clean-up compares. -/
theorem rank_eq {v : IndexSet} {S : Finset ℕ} (h : IndexSet.Represents b v S) (i : ℕ) :
    i-v.count 0 i = IndexShift.unshift S i := IndexSet.unshift_eq h i

/-- The change set without one of its moves. -/
def dropped (b : Build) (c : CollectionChangeBuilder) (m : Move) : CollectionChangeBuilder :=
  { c with
    deletions := c.deletions.remove b m.from 1
    insertions := c.insertions.remove b m.to 1 }

theorem WellFormed.drop {rest : List Move}
    (h : WellFormed b { c with moves := c.moves ++ m :: rest }) :
    WellFormed b { dropped b c m with moves := c.moves ++ rest } ∧
      (dropped b c m).deleted = c.deleted.erase m.from ∧
      (dropped b c m).added = c.added.erase m.to := by
  have hD := remove_one (represents_self h.deletions) m.from
  have hI := remove_one (represents_self h.insertions) m.to
  have hperm : (c.moves ++ m :: rest).Perm (m :: (c.moves ++ rest)) := List.perm_middle
  have hfrom := List.nodup_cons.mp ((hperm.map Move.from).nodup_iff.mp h.from_nodup)
  have hto := List.nodup_cons.mp ((hperm.map Move.to).nodup_iff.mp h.to_nodup)
  refine ⟨⟨hD.verified, hI.verified, h.tracked, h.within, ?_, ?_, hfrom.2, hto.2⟩,
    hD.indices_eq, hI.indices_eq⟩
  · intro n hn
    change n.from ∈ (c.deletions.remove b m.from 1).indices
    rw [hD.indices_eq, Finset.mem_erase]
    exact ⟨fun he => hfrom.1 (he ▸ List.mem_map_of_mem hn),
      h.from_mem n (hperm.mem_iff.mpr (List.mem_cons_of_mem m hn))⟩
  · intro n hn
    change n.to ∈ (c.insertions.remove b m.to 1).indices
    rw [hI.indices_eq, Finset.mem_erase]
    exact ⟨fun he => hto.1 (he ▸ List.mem_map_of_mem hn),
      h.to_mem n (hperm.mem_iff.mpr (List.mem_cons_of_mem m hn))⟩

/-- The loop tells by the ranks whether a move is a no-op. -/
theorem cleanUp_go_cons (l : List Move) {c : CollectionChangeBuilder} (hD : c.deletions.Verified b)
    (hI : c.insertions.Verified b) : cleanUpStaleMoves.go b (m :: l) c =
      if IndexShift.unshift c.deleted m.from = IndexShift.unshift c.added m.to then
        cleanUpStaleMoves.go b l (dropped b c m)
      else cleanUpStaleMoves.go b l { c with moves := c.moves ++ [m] } := by
  rw [cleanUpStaleMoves.go, rank_eq (represents_self hD), rank_eq (represents_self hI)]
  change (if IndexShift.unshift c.deleted m.from ≠ IndexShift.unshift c.added m.to then _
    else _) = _
  by_cases hrank : IndexShift.unshift c.deleted m.from = IndexShift.unshift c.added m.to
  · rw [if_pos hrank, if_neg (not_not_intro hrank)]
    rfl
  · rw [if_neg hrank, if_pos hrank]

theorem cleanUp_go (l : List Move) {c : CollectionChangeBuilder}
    (h : WellFormed b { c with moves := c.moves ++ l }) :
    WellFormed b (cleanUpStaleMoves.go b l c) ∧
      (cleanUpStaleMoves.go b l c).modifications = c.modifications ∧
      (cleanUpStaleMoves.go b l c).columns = c.columns ∧
      ∀ (M : Finset ℕ), Describes { c with moves := c.moves ++ l } M xs ys →
        Describes (cleanUpStaleMoves.go b l c) M xs ys := by
  induction l generalizing c with
  | nil =>
    rw [List.append_nil] at h
    refine ⟨h, rfl, rfl, ?_⟩
    intro M hM
    rwa [List.append_nil] at hM
  | cons m l ih =>
    rw [cleanUp_go_cons (c := c) l h.deletions h.insertions]
    by_cases hrank : IndexShift.unshift c.deleted m.from = IndexShift.unshift c.added m.to
    · rw [if_pos hrank]
      obtain ⟨hdrop,hdeleted,hadded⟩ := h.drop
      obtain ⟨hwf,hmod,hcol,hdesc⟩ := ih (c := dropped b c m) hdrop
      refine ⟨hwf, hmod, hcol, ?_⟩
      intro M hM
      obtain ⟨htrans,hcarries,hfits⟩ := hM.drop h hrank
      rw [← hdeleted, ← hadded] at htrans hcarries hfits
      exact hdesc M ⟨htrans, hcarries, hfits, hM.marks⟩
    · rw [if_neg hrank]
      have hassoc : c.moves ++ m :: l = (c.moves ++ [m]) ++ l := by simp
      rw [hassoc] at h ⊢
      exact ih (c := { c with moves := c.moves ++ [m] }) h

/-- Dropping no-op moves keeps a change set well formed and true. -/
theorem cleanUpStaleMoves_spec (h : WellFormed b c) :
    WellFormed b (c.cleanUpStaleMoves b) ∧
      (c.cleanUpStaleMoves b).modifications = c.modifications ∧
      (c.cleanUpStaleMoves b).columns = c.columns ∧
      ∀ (M : Finset ℕ), Describes c M xs ys → Describes (c.cleanUpStaleMoves b) M xs ys :=
  cleanUp_go c.moves (c := { c with moves := [] }) h

/-- The row of the move stands at another place among the rows that stay. -/
def Displaced (c : CollectionChangeBuilder) (m : Move) : Prop :=
  IndexShift.unshift c.deleted m.from ≠ IndexShift.unshift c.added m.to

theorem cleanUp_go_displaced (l : List Move) {c : CollectionChangeBuilder}
    (h : WellFormed b { c with moves := c.moves ++ l }) (hc : ∀ n ∈ c.moves, Displaced c n) :
    ∀ n ∈ (cleanUpStaleMoves.go b l c).moves, Displaced (cleanUpStaleMoves.go b l c) n := by
  induction l generalizing c with
  | nil => exact hc
  | cons m l ih =>
    rw [cleanUp_go_cons (c := c) l h.deletions h.insertions]
    by_cases hrank : IndexShift.unshift c.deleted m.from = IndexShift.unshift c.added m.to
    · rw [if_pos hrank]
      obtain ⟨hdrop,hdeleted,hadded⟩ := h.drop
      apply ih (c := dropped b c m) hdrop
      intro n hn
      rw [Displaced, hdeleted, hadded]
      exact unshift_erase_ne (h.from_mem m (by simp)) (h.to_mem m (by simp)) hrank (hc n hn)
    · rw [if_neg hrank]
      have hassoc : c.moves ++ m :: l = (c.moves ++ [m]) ++ l := by simp
      rw [hassoc] at h
      apply ih (c := { c with moves := c.moves ++ [m] }) h
      intro n hn
      rcases List.mem_append.mp hn with hn | hn
      · exact hc n hn
      · rw [List.mem_singleton.mp hn]
        exact hrank

/-- No move that is left is a no-op. -/
theorem cleanUpStaleMoves_displaced (h : WellFormed b c) :
    ∀ n ∈ (c.cleanUpStaleMoves b).moves, Displaced (c.cleanUpStaleMoves b) n :=
  cleanUp_go_displaced c.moves (c := { c with moves := [] }) h (by simp)

/-- A newer change set without moves, deletions and insertions leaves old moves alone. -/
theorem updateOldMoves_still (ho : WellFormed b other) (hmoves : other.moves = [])
    (hD : other.deleted = ∅) (hI : other.added = ∅) (olds : List Move) :
    updateOldMoves b c olds other = (olds, other) := by
  induction olds with
  | nil => rfl
  | cons old olds ih =>
    have hcontains : ¬ other.deletions.contains old.to = true := by
      rw [IndexSet.contains_iff (represents_self ho.deletions) old.to]
      change old.to ∉ other.deleted
      rw [hD]
      exact Finset.notMem_empty _
    have hshift : other.insertions.shift (other.deletions.unshift old.to) = old.to := by
      rw [IndexSet.unshift_eq (represents_self ho.deletions),
        IndexSet.shift_eq (represents_self ho.insertions)]
      change IndexShift.shift other.added (IndexShift.unshift other.deleted old.to) = old.to
      rw [hD, hI, IndexShift.unshift_empty, IndexShift.shift_empty]
    rw [updateOldMoves, hmoves, List.findIdx?_nil]
    simp only [ih, if_neg hcontains, hshift]

theorem foldl_carry_moves (l : List Move) (other : CollectionChangeBuilder) :
    (l.foldl (fun other m => c.carryModified b m other) other).moves = other.moves := by
  induction l generalizing other with
  | nil => rfl
  | cons m l ih => exact ih _

theorem isEmpty_iff_indices {v : IndexSet} (h : v.Verified b) : v.isEmpty = true ↔ v.indices = ∅ :=
  IndexSet.isEmpty_iff (represents_self h)

/-- The parts that the merge puts together: the old moves led on, the new moves of rows that
were there before, and the marks. -/
structure Prepared (b : Build) (c other : CollectionChangeBuilder) (news : List Move)
    (o : CollectionChangeBuilder) : Prop where
  carrying : Carrying b c other o
  leads : ∀ n ∈ news, ∃ old ∈ c.moves, LeadsOn c other o old n
  sublist : (news.map Move.from).Sublist (c.moves.map Move.from)
  from_nodup : (o.moves.map Move.from).Nodup
  to_nodup : (news.map Move.to ++ o.moves.map Move.to).Nodup
  not_added : ∀ m ∈ o.moves, m.from ∉ c.added
  carried : ∀ a, ∀ m ∈ o.moves, m.from ∈ c.changed a → m.to ∈ o.changed a

/-- The new moves with their old positions. -/
def fromOld (c : CollectionChangeBuilder) (l : List Move) : List Move :=
  l.map (fun m => { m with «from» := c.deletions.shift (c.insertions.unshift m.from) })

/-- The merged rows and moves, before no-op moves are taken out. -/
def premerge (b : Build) (c : CollectionChangeBuilder) (news : List Move)
    (o : CollectionChangeBuilder) : CollectionChangeBuilder :=
  { c with
    moves := news ++ fromOld c o.moves
    deletions := c.deletions.addShiftedBy b c.insertions o.deletions
    insertions := (c.insertions.eraseAtAll b o.deletions).insertAtAll b o.insertions }

theorem fromOld_eq (hc : WellFormed b c) (l : List Move) : fromOld c l = l.map (fun m =>
    { m with «from» := IndexShift.shift c.deleted (IndexShift.unshift c.added m.from) }) := by
  apply List.map_congr_left
  intro m _
  rw [IndexSet.unshift_eq (represents_self hc.insertions),
    IndexSet.shift_eq (represents_self hc.deletions)]
  rfl

theorem premerge_deleted {news : List Move} {o : CollectionChangeBuilder} (hc : WellFormed b c)
    (ho : WellFormed b other) (h : o.deletions = other.deletions)
    (hroom : IndexSet.HasRoom b c.deletions other.deletions) :
    IndexSet.Represents b (premerge b c news o).deletions
      (IndexShift.inserted (IndexShift.erased other.deleted c.added) c.deleted) := by
  rw [premerge, h]
  exact IndexSet.addShiftedBy_represents (represents_self hc.deletions)
    (represents_self hc.insertions) (represents_self ho.deletions) hroom

theorem premerge_added {news : List Move} {o : CollectionChangeBuilder} (hc : WellFormed b c)
    (ho : WellFormed b other) (h : o.deletions = other.deletions)
    (h' : o.insertions = other.insertions) :
    IndexSet.Represents b (premerge b c news o).insertions
      (IndexShift.inserted (IndexShift.erased c.added other.deleted) other.added) := by
  rw [premerge, h, h']
  exact IndexSet.insertAtAll_represents (IndexSet.eraseAtAll_represents
    (represents_self hc.insertions) (represents_self ho.deletions)) (represents_self ho.insertions)

/-- A move in the merged list comes from an old move or from a new one. -/
theorem Prepared.move_cases {news : List Move} {o : CollectionChangeBuilder}
    (h : Prepared b c other news o) (hc : WellFormed b c) {n : Move}
    (hn : n ∈ (premerge b c news o).moves) : (∃ old ∈ c.moves, LeadsOn c other o old n) ∨
      ∃ m ∈ o.moves, n.to = m.to ∧
        n.from = IndexShift.shift c.deleted (IndexShift.unshift c.added m.from) := by
  rcases List.mem_append.mp hn with hn | hn
  · exact Or.inl (h.leads n hn)
  · rw [fromOld_eq hc] at hn
    obtain ⟨m,hm,rfl⟩ := List.mem_map.mp hn
    exact Or.inr ⟨m, hm, rfl, rfl⟩

theorem Prepared.describes {news : List Move} {o : CollectionChangeBuilder}
    (h : Prepared b c other news o) (hc : WellFormed b c) (ho : WellFormed b other)
    (hroom : IndexSet.HasRoom b c.deletions other.deletions) (a : Aspect)
    (hxy : Describes c (c.changed a) xs ys) (hyz : Describes other (other.changed a) ys zs) :
    Describes (premerge b c news o)
      (SequenceDiff.carried (c.changed a) other.deleted other.added (o.changed a)) xs zs := by
  have hdeleted := (@premerge_deleted _ _ _ news _ hc ho h.carrying.deletions_eq hroom).indices_eq
  have hadded := (@premerge_added _ _ _ news _ hc ho h.carrying.deletions_eq
    h.carrying.insertions_eq).indices_eq
  have htrans := hyz.transforms.mono (h.carrying.grows a)
  have hcarries (m : Move) (hm : m ∈ other.moves) := (hyz.carries m hm).mono (h.carrying.grows a)
  have hmarks : o.changed a ⊆ Finset.range zs.length := by
    intro t ht
    rcases h.carrying.origin a t ht with ht | ⟨m,hm,_,rfl⟩
    · exact hyz.marks ht
    · exact hyz.fits.new (ho.to_mem m hm)
  apply hxy.extend htrans hyz.fits hmarks hdeleted hadded
  intro n hn
  rcases h.move_cases hc hn with ⟨old,hold,hfrom,hto⟩ | ⟨m,hm,hto,hfrom⟩
  · refine Or.inl ⟨old, hold, hfrom, ?_⟩
    rcases hto with ⟨m,hm,hmfrom,hmto,hcarry⟩ | hstay
    · have hsecond := hcarries m hm
      rw [hmfrom, hmto] at hsecond
      exact Or.inl ⟨hsecond, hcarry a⟩
    · exact Or.inr hstay
  · refine Or.inr ⟨m.from, h.not_added m hm, ?_, ?_, hfrom⟩
    · rw [hto]
      exact hcarries m (h.carrying.moves m hm)
    · rw [hto]
      exact h.carried a m hm

theorem Prepared.wellFormed {news : List Move} {o : CollectionChangeBuilder}
    (h : Prepared b c other news o) (hc : WellFormed b c) (ho : WellFormed b other)
    (hroom : IndexSet.HasRoom b c.deletions other.deletions) :
    WellFormed b (premerge b c news o) := by
  have hD := @premerge_deleted _ _ _ news _ hc ho h.carrying.deletions_eq hroom
  have hI := @premerge_added _ _ _ news _ hc ho h.carrying.deletions_eq h.carrying.insertions_eq
  refine ⟨hD.verified, hI.verified, hc.tracked, hc.within, ?_, ?_, ?_, ?_⟩
  · intro n hn
    rw [deleted, hD.indices_eq, IndexShift.mem_inserted]
    rcases h.move_cases hc hn with ⟨old,hold,hfrom,_⟩ | ⟨m,hm,_,hfrom⟩
    · rw [hfrom]
      exact Or.inl (hc.from_mem old hold)
    · refine Or.inr ⟨IndexShift.unshift c.added m.from, ?_, hfrom.symm⟩
      exact (IndexShift.unshift_mem_erased (h.not_added m hm)).mpr
        (ho.from_mem m (h.carrying.moves m hm))
  · intro n hn
    rw [added, hI.indices_eq, IndexShift.mem_inserted]
    rcases h.move_cases hc hn with ⟨old,hold,_,hto⟩ | ⟨m,hm,hto,_⟩
    · rcases hto with ⟨m,hm,_,hmto,_⟩ | ⟨hstay,hto⟩
      · rw [← hmto]
        exact Or.inl (ho.to_mem m hm)
      · refine Or.inr ⟨IndexShift.unshift other.deleted old.to, ?_, hto.symm⟩
        exact (IndexShift.unshift_mem_erased hstay).mpr (hc.to_mem old hold)
    · rw [hto]
      exact Or.inl (ho.to_mem m (h.carrying.moves m hm))
  · -- new moves begin at rows that no old move took
    change ((news ++ fromOld c o.moves).map Move.from).Nodup
    rw [List.map_append, fromOld_eq hc, List.map_map, List.nodup_append]
    refine ⟨h.sublist.nodup hc.from_nodup, ?_, ?_⟩
    · have hmap : o.moves.map (Move.from ∘ fun m => { m with
          «from» := IndexShift.shift c.deleted (IndexShift.unshift c.added m.from) }) =
            (o.moves.map Move.from).map
              (fun i => IndexShift.shift c.deleted (IndexShift.unshift c.added i)) := by
        rw [List.map_map]
        rfl
      rw [hmap]
      apply List.Nodup.map_on _ h.from_nodup
      intro i hi j hj he
      obtain ⟨m,hm,rfl⟩ := List.mem_map.mp hi
      obtain ⟨m',hm',rfl⟩ := List.mem_map.mp hj
      exact IndexShift.unshift_inj (h.not_added m hm) (h.not_added m' hm')
        (IndexShift.shift_injective he)
    · intro i hi j hj he
      obtain ⟨old,hold,rfl⟩ := List.mem_map.mp (h.sublist.subset hi)
      obtain ⟨m,_,rfl⟩ := List.mem_map.mp hj
      have hmem := hc.from_mem old hold
      rw [he] at hmem
      exact IndexShift.shift_not_mem _ _ hmem
  · change ((news ++ fromOld c o.moves).map Move.to).Nodup
    have hmap : (fromOld c o.moves).map Move.to = o.moves.map Move.to := by
      rw [fromOld, List.map_map]
      rfl
    rw [List.map_append, hmap]
    exact h.to_nodup

theorem isEmpty_eq_true {v : IndexSet} (h : v.Verified b) (he : v.isEmpty = true) :
    v.indices = ∅ := (isEmpty_iff_indices h).mp he

/-- The three steps before the two change sets are put together. -/
def updated (b : Build) (c other : CollectionChangeBuilder) : List Move × CollectionChangeBuilder :=
  if ¬ other.moves.isEmpty ∨ ¬ other.deletions.isEmpty ∨ ¬ other.insertions.isEmpty then
    updateOldMoves b c c.moves other
  else (c.moves, other)

def ofOldRows (c other : CollectionChangeBuilder) : CollectionChangeBuilder :=
  if ¬ c.insertions.isEmpty ∧ ¬ other.moves.isEmpty then
    { other with moves := other.moves.filter (fun m => ¬ c.insertions.contains m.from) }
  else other

def carryAll (b : Build) (c other : CollectionChangeBuilder) : CollectionChangeBuilder :=
  if ¬ c.modifications.isEmpty ∧ ¬ other.moves.isEmpty then
    other.moves.foldl (fun other m => c.carryModified b m other) other
  else other

theorem updated_spec (hc : WellFormed b c) (ho : WellFormed b other) :
    Updated b c other other c.moves (updated b c other) := by
  have h := updateOldMoves_spec hc ho c.moves (carrying_start ho) ho.from_nodup ho.to_nodup
    hc.to_nodup
  rw [updated]
  by_cases hany : ¬ other.moves.isEmpty ∨ ¬ other.deletions.isEmpty ∨ ¬ other.insertions.isEmpty
  · rw [if_pos hany]
    exact h
  · rw [not_or, not_or, not_not, not_not, not_not] at hany
    have hmoves : other.moves = [] := List.isEmpty_iff.mp hany.1
    rw [if_neg (by simp [hany])]
    rwa [updateOldMoves_still ho hmoves (isEmpty_eq_true ho.deletions hany.2.1)
      (isEmpty_eq_true ho.insertions hany.2.2)] at h

theorem ofOldRows_spec (hc : WellFormed b c) (o : CollectionChangeBuilder) :
    ∃ l : List Move, ofOldRows c o = { o with moves := l } ∧ l.Sublist o.moves ∧
      ∀ m ∈ l, m.from ∉ c.added := by
  rw [ofOldRows]
  by_cases hguard : ¬ c.insertions.isEmpty ∧ ¬ o.moves.isEmpty
  · rw [if_pos hguard]
    refine ⟨_, rfl, List.filter_sublist, ?_⟩
    intro m hm hadded
    have hcontains := of_decide_eq_true (List.mem_filter.mp hm).2
    exact hcontains ((IndexSet.contains_iff (represents_self hc.insertions) _).mpr hadded)
  · rw [if_neg hguard]
    refine ⟨o.moves, rfl, List.Sublist.refl _, ?_⟩
    intro m hm hadded
    have hne : ¬ o.moves.isEmpty := fun he => by
      rw [List.isEmpty_iff.mp he] at hm
      exact absurd hm List.not_mem_nil
    have hempty : c.insertions.isEmpty = true := by
      by_contra hne'
      exact hguard ⟨hne', hne⟩
    have hnone : c.added = ∅ := isEmpty_eq_true hc.insertions hempty
    rw [hnone] at hadded
    exact absurd hadded (Finset.notMem_empty _)

theorem carryAll_spec {o : CollectionChangeBuilder} (hc : WellFormed b c)
    (h : Carrying b c other o) : Carrying b c other (carryAll b c o) ∧
      (carryAll b c o).moves = o.moves ∧ (∀ a, o.changed a ⊆ (carryAll b c o).changed a) ∧
      ∀ a, ∀ m ∈ o.moves, m.from ∈ c.changed a → m.to ∈ (carryAll b c o).changed a := by
  rw [carryAll]
  by_cases hguard : ¬ c.modifications.isEmpty ∧ ¬ o.moves.isEmpty
  · rw [if_pos hguard]
    obtain ⟨h',hsub,hin⟩ := Carrying.foldl hc o.moves h h.moves
    exact ⟨h', foldl_carry_moves _ _, hsub, hin⟩
  · rw [if_neg hguard]
    refine ⟨h, rfl, fun _ => Finset.Subset.refl _, ?_⟩
    intro a m hm hfrom
    have hne : ¬ o.moves.isEmpty := fun he => by
      rw [List.isEmpty_iff.mp he] at hm
      exact absurd hm List.not_mem_nil
    have hempty : c.modifications.isEmpty = true := by
      by_contra hne'
      exact hguard ⟨hne', hne⟩
    have hnone : c.changed Aspect.contents = ∅ :=
      isEmpty_eq_true (hc.tracked Aspect.contents) hempty
    have hcontents := hc.within a hfrom
    rw [hnone] at hcontents
    exact absurd hcontents (Finset.notMem_empty _)

theorem prepared (hc : WellFormed b c) (ho : WellFormed b other) :
    Prepared b c other (updated b c other).1
      (carryAll b c (ofOldRows c (updated b c other).2)) := by
  have hu := updated_spec hc ho
  obtain ⟨l,hl,hsub,hadded⟩ := ofOldRows_spec hc (updated b c other).2
  have hcarry := hu.carrying.withMoves hsub.subset
  rw [← hl] at hcarry
  obtain ⟨h,hmoves,hgrows,hin⟩ := carryAll_spec hc hcarry
  have hlmoves : (ofOldRows c (updated b c other).2).moves = l := by rw [hl]
  rw [hlmoves] at hmoves hin
  refine ⟨h, ?_, hu.sublist, ?_, ?_, ?_, ?_⟩
  · intro n hn
    obtain ⟨old,hold,hleads⟩ := hu.leads n hn
    refine ⟨old, hold, hleads.mono (fun a => ?_)⟩
    have hsame : (ofOldRows c (updated b c other).2).changed a =
        (updated b c other).2.changed a := by
      rw [hl]
      cases a with
      | identity => rfl
      | contents => rfl
      | column k => rfl
    rw [← hsame]
    exact hgrows a
  · rw [hmoves]
    exact (hsub.map Move.from).nodup hu.from_nodup
  · rw [hmoves]
    exact ((List.Sublist.refl _).append (hsub.map Move.to)).nodup hu.to_nodup
  · rw [hmoves]
    exact hadded
  · rw [hmoves]
    exact hin

/-- The marks of both change sets on the rows after the merge. -/
def mergeSets (b : Build) (merged o : CollectionChangeBuilder) : CollectionChangeBuilder :=
  let sets := merged.forEachPair (fun col changed =>
    ((col.eraseAtAll b o.deletions).shiftForInsertAtAll b o.insertions).addAll b changed) o
  { merged with modifications := sets.modifications, columns := sets.columns }

theorem merge_eq (hc : WellFormed b c) : c.merge b other =
    if other.empty then c
    else if c.empty then other
    else
      let o := carryAll b c (ofOldRows c (updated b c other).2)
      mergeSets b ((premerge b c (updated b c other).1 o).cleanUpStaleMoves b) o := by
  have hnew (l : List Move) : (if ¬ c.deletions.isEmpty ∨ ¬ c.insertions.isEmpty then
      l.map (fun m => { m with «from» := c.deletions.shift (c.insertions.unshift m.from) })
      else l) = fromOld c l := by
    by_cases hany : ¬ c.deletions.isEmpty ∨ ¬ c.insertions.isEmpty
    · rw [if_pos hany]
      rfl
    · rw [not_or, not_not, not_not] at hany
      have hD : c.deleted = ∅ := isEmpty_eq_true hc.deletions hany.1
      have hI : c.added = ∅ := isEmpty_eq_true hc.insertions hany.2
      rw [if_neg (by simp [hany]), fromOld_eq hc, hD, hI]
      simp
  rw [merge]
  simp only [hnew]
  rfl

theorem mergeSets_tracked {merged o : CollectionChangeBuilder} (hm : WellFormed b merged)
    (ho : WellFormed b other) (h : Carrying b c other o) (a : Aspect) :
    IndexSet.Represents b ((mergeSets b merged o).tracked a)
      (carried (merged.changed a) other.deleted other.added (o.changed a)) := by
  have hpair := represents_forEachPair (c := merged)
    (f := fun col changed =>
      ((col.eraseAtAll b o.deletions).shiftForInsertAtAll b o.insertions).addAll b changed)
    (F := fun S S' => carried S other.deleted other.added S') (by simp [carried])
    (by
      intro v v' S S' hv hv'
      rw [h.deletions_eq, h.insertions_eq]
      exact IndexSet.addAll_represents (IndexSet.shiftForInsertAtAll_represents
        (IndexSet.eraseAtAll_represents hv (represents_self ho.deletions))
        (represents_self ho.insertions)) hv')
    (fun a => represents_self (hm.tracked a)) (fun a => represents_self (h.tracked a)) a
  cases a with
  | identity => exact hpair
  | contents => exact hpair
  | column k => exact hpair

/-- An empty change set leads from a collection to itself. -/
theorem Describes.eq_of_empty (h : Describes c (c.changed a) xs ys) (hc : WellFormed b c)
    (he : c.empty = true) : xs = ys := by
  simp only [empty, Bool.and_eq_true] at he
  have hD : c.deleted = ∅ := isEmpty_eq_true hc.deletions he.1.1.1
  have hI : c.added = ∅ := isEmpty_eq_true hc.insertions he.1.1.2
  have hM : c.changed Aspect.contents = ∅ := isEmpty_eq_true (hc.tracked _) he.1.2
  have hMa : c.changed a = ∅ := Finset.subset_empty.mp (hM ▸ hc.within a)
  have htrans := h.transforms
  rw [hD, hI, hMa] at htrans
  exact htrans.eq_of_empty

theorem merge_wellFormed (hc : WellFormed b c) (ho : WellFormed b other)
    (hroom : IndexSet.HasRoom b c.deletions other.deletions) :
    WellFormed b (c.merge b other) := by
  rw [merge_eq hc]
  by_cases hother : other.empty = true
  · rwa [if_pos hother]
  rw [if_neg hother]
  by_cases hempty : c.empty = true
  · rwa [if_pos hempty]
  rw [if_neg hempty]
  have hp := prepared hc ho
  obtain ⟨hwf,hmod,hcol,_⟩ := @cleanUpStaleMoves_spec _ _ Unit [] []
    (hp.wellFormed hc ho hroom)
  have htracked := mergeSets_tracked hwf ho hp.carrying
  refine ⟨hwf.deletions, hwf.insertions, fun a => (htracked a).verified, ?_, hwf.from_mem,
    hwf.to_mem, hwf.from_nodup, hwf.to_nodup⟩
  intro a
  change ((mergeSets b _ _).tracked a).indices ⊆ ((mergeSets b _ _).tracked Aspect.contents).indices
  rw [(htracked a).indices_eq, (htracked _).indices_eq]
  exact carried_mono (hwf.within a) (hp.carrying.within a)

/-- The merged marks: the old ones carried along, and the new ones. -/
theorem merged_changed (hc : WellFormed b c) (ho : WellFormed b other)
    (hroom : IndexSet.HasRoom b c.deletions other.deletions) (a : Aspect) :
    (mergeSets b ((premerge b c (updated b c other).1
      (carryAll b c (ofOldRows c (updated b c other).2))).cleanUpStaleMoves b)
        (carryAll b c (ofOldRows c (updated b c other).2))).changed a =
      carried (c.changed a) other.deleted other.added
        ((carryAll b c (ofOldRows c (updated b c other).2)).changed a) := by
  have hp := prepared hc ho
  obtain ⟨hwf,hmod,hcol,_⟩ := @cleanUpStaleMoves_spec _ _ Unit [] []
    (hp.wellFormed hc ho hroom)
  have hchanged := (mergeSets_tracked hwf ho hp.carrying a).indices_eq
  have hsame : ((premerge b c (updated b c other).1
      (carryAll b c (ofOldRows c (updated b c other).2))).cleanUpStaleMoves b).changed a =
        c.changed a := by
    cases a with
    | identity => rfl
    | contents => exact congrArg IndexSet.indices hmod
    | column k => exact congrArg (fun l => (l[k]?.getD { data := [] } : IndexSet).indices) hcol
  rwa [hsame] at hchanged

/-- What two change sets say one after the other, the merged one says at once, in every
aspect. -/
theorem merge_describes (hc : WellFormed b c) (ho : WellFormed b other)
    (hroom : IndexSet.HasRoom b c.deletions other.deletions) (a : Aspect)
    (hxy : Describes c (c.changed a) xs ys) (hyz : Describes other (other.changed a) ys zs) :
    Describes (c.merge b other) ((c.merge b other).changed a) xs zs := by
  rw [merge_eq hc]
  by_cases hother : other.empty = true
  · rw [if_pos hother, ← hyz.eq_of_empty ho hother]
    exact hxy
  rw [if_neg hother]
  by_cases hempty : c.empty = true
  · rw [if_pos hempty, hxy.eq_of_empty hc hempty]
    exact hyz
  rw [if_neg hempty]
  have hp := prepared hc ho
  obtain ⟨_,_,_,hdesc⟩ := @cleanUpStaleMoves_spec _ _ _ xs zs
    (hp.wellFormed hc ho hroom)
  have hfinal := hdesc _ (hp.describes hc ho hroom a hxy hyz)
  rw [← merged_changed hc ho hroom a] at hfinal
  exact ⟨hfinal.transforms, hfinal.carries, hfinal.fits, hfinal.marks⟩

/-- The merge marks no row but those that either change set marks, where marks of the older
one go along with their rows. -/
theorem merge_marks (hc : WellFormed b c) (ho : WellFormed b other)
    (hroom : IndexSet.HasRoom b c.deletions other.deletions) {t : ℕ}
    (ht : t ∈ (c.merge b other).changed a) : t ∈ other.changed a ∨
      (∃ s ∈ c.changed a, s ∉ other.deleted ∧
        t = IndexShift.shift other.added (IndexShift.unshift other.deleted s)) ∨
      ∃ m ∈ other.moves, m.from ∈ c.changed a ∧ m.to = t := by
  rw [merge_eq hc] at ht
  by_cases hother : other.empty = true
  · rw [if_pos hother] at ht
    simp only [empty, Bool.and_eq_true] at hother
    have hD : other.deleted = ∅ := isEmpty_eq_true ho.deletions hother.1.1.1
    have hI : other.added = ∅ := isEmpty_eq_true ho.insertions hother.1.1.2
    refine Or.inr (Or.inl ⟨t, ht, ?_, ?_⟩)
    · rw [hD]
      exact Finset.notMem_empty t
    · rw [hD, hI, IndexShift.unshift_empty, IndexShift.shift_empty]
  rw [if_neg hother] at ht
  by_cases hempty : c.empty = true
  · rw [if_pos hempty] at ht
    exact Or.inl ht
  rw [if_neg hempty] at ht
  simp only [] at ht
  rw [merged_changed hc ho hroom a, carried, Finset.mem_union] at ht
  rcases ht with ht | ht
  · obtain ⟨j,hj,rfl⟩ := Finset.mem_image.mp ht
    obtain ⟨s,hs,rfl⟩ := Finset.mem_image.mp hj
    obtain ⟨hs,hdel⟩ := Finset.mem_sdiff.mp hs
    exact Or.inr (Or.inl ⟨s, hs, hdel, rfl⟩)
  · rcases (prepared hc ho).carrying.origin a t ht with ht | ht
    · exact Or.inl ht
    · exact Or.inr (Or.inr ht)

end CollectionChangeBuilder

end ObjectStore
