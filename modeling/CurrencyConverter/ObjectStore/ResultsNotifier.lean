import CurrencyConverter.ObjectStore.ChangeDelivery
import CurrencyConverter.ObjectStore.TableRuns
import CurrencyConverter.ObjectStore.TableOrderChanges

/-! The rows that a query finds, run after run: what the changes of the table mean for them. -/
namespace ObjectStore

open CollectionChangeBuilder SequenceDiff

variable {α β γ : Type*}

/-- The move that starts at a row, found by binary search in the real vector. -/
def findMove (moves : List Move) (idx : ℕ) : Option Move :=
  (moves.dropWhile (fun m => m.from < idx)).head?.filter (fun m => m.from = idx)

/-- Where a row of the table is after the changes, if it was not deleted. -/
def rowNow (changes : CollectionChangeBuilder) (idx : ℕ) : Option ℕ :=
  match findMove changes.moves idx with
  | some m => some m.to
  | none => if changes.deletions.contains idx then none else some idx

/-- What a notifier keeps between two runs, and what it knows of its results: whether they come
in the order of the table, and whether they are sorted. -/
structure ResultsNotifier where
  previousRows : List ℕ
  hasRun : Bool
  targetIsInTableOrder : Bool
  sort : Bool
  deriving DecidableEq, Repr

namespace ResultsNotifier

/-- The old rows as they are called now. -/
def movedRows (n : ResultsNotifier) (changes : Option CollectionChangeBuilder) :
    List (Option ℕ) :=
  n.previousRows.map (fun idx => changes.elim (some idx) (fun changes => rowNow changes idx))

/-- Only a row that is new at its place in the table can stand elsewhere in results that are in
the order of the table. -/
def moveCandidates (n : ResultsNotifier) (changes : Option CollectionChangeBuilder) :
    Option IndexSet :=
  changes.bind (fun changes =>
    if n.targetIsInTableOrder ∧ ¬ n.sort then some changes.insertions else none)

/-- The rows `tv` that the query finds now are kept for the next run. The first run has nothing
to compare them with. -/
def calculateChanges (b : Build) (sorts : Sorts) (n : ResultsNotifier)
    (changes : Option CollectionChangeBuilder) (tv : List ℕ) (rowDidChange : ℕ → Bool) :
    ResultsNotifier × CollectionChangeBuilder :=
  if n.hasRun then
    ({ n with previousRows := tv },
      calculate b sorts (n.movedRows changes) tv rowDidChange (n.moveCandidates changes))
  else ({ n with previousRows := tv }, {})

end ResultsNotifier

namespace CollectionChangeBuilder

variable {b : Build} {view : Aspect → α → β} {c changes : CollectionChangeBuilder} {xs : List α}
  {table table' : List (Option ℕ × α)} {idx row : ℕ}

/-! A row of the table -/

/-- In sorted moves that start at different rows the search finds the move there is. -/
theorem findMove_eq_some {moves : List Move} (h : moves.Pairwise (fun m n => m.from < n.from))
    {m : Move} : findMove moves idx = some m ↔ m ∈ moves ∧ m.from = idx := by
  induction moves with
  | nil => simp [findMove]
  | cons n moves ih =>
    obtain ⟨hn,hmoves⟩ := List.pairwise_cons.mp h
    by_cases hlt : n.from < idx
    · have hskip : findMove (n :: moves) idx = findMove moves idx := by
        rw [findMove, List.dropWhile_cons_of_pos (by simpa using hlt), findMove]
      rw [hskip, ih hmoves, List.mem_cons]
      constructor
      · exact fun hm => ⟨Or.inr hm.1, hm.2⟩
      · rintro ⟨rfl | hm,hfrom⟩
        · omega
        · exact ⟨hm, hfrom⟩
    · -- the search stops here, and no later move starts at a row before this one
      have hstop : findMove (n :: moves) idx = (some n).filter (fun m => m.from = idx) := by
        rw [findMove, List.dropWhile_cons_of_neg (by simpa using hlt)]
        rfl
      rw [hstop, Option.filter_eq_some_iff, Option.some.injEq, decide_eq_true_iff, List.mem_cons]
      constructor
      · rintro ⟨rfl,hfrom⟩
        exact ⟨Or.inl rfl, hfrom⟩
      · rintro ⟨rfl | hm,hfrom⟩
        · exact ⟨rfl, hfrom⟩
        · have := hn m hm
          omega

/-- A row is looked up where it is. -/
theorem Reports.rowNow_eq_some (h : Reports b view changes xs table) (hidx : idx < xs.length) :
    rowNow changes idx = some row ↔ ∃ r, table[row]? = some r ∧ r.1 = some idx := by
  rw [rowNow]
  cases hmove : findMove changes.moves idx with
  | some m =>
    obtain ⟨hm,rfl⟩ := (findMove_eq_some h.sorted).mp hmove
    constructor
    · intro hto
      exact Option.some.inj hto ▸ ((h.moves_iff m.from m.to).mp hm).2
    · rintro ⟨r,hr,hro⟩
      by_cases hsame : m.from = row
      · -- what moved away is not where it was
        have hgone := (h.deleted_iff _ hidx).mp (h.wellFormed.from_mem m hm) r (hsame ▸ hr)
        exact absurd hro hgone
      · have hmem := (h.moves_iff m.from row).mpr ⟨hsame, r, hr, hro⟩
        have hfound := (findMove_eq_some h.sorted).mpr ⟨hmem, rfl⟩
        rw [hmove] at hfound
        exact congrArg (fun m => some m.to) (Option.some.inj hfound)
  | none =>
    have hstays (r : Option ℕ × α) (hr : table[row]? = some r) (hro : r.1 = some idx) :
        idx = row := by
      by_contra hne
      have hmem := (h.moves_iff idx row).mpr ⟨hne, r, hr, hro⟩
      have hfound := (findMove_eq_some h.sorted).mpr ⟨hmem, rfl⟩
      rw [hmove] at hfound
      cases hfound
    have hdeleted := IndexSet.contains_iff (represents_self h.wellFormed.deletions) idx
    by_cases hin : idx ∈ changes.deleted
    · rw [if_pos (hdeleted.mpr hin)]
      constructor
      · intro hnone
        cases hnone
      · rintro ⟨r,hr,hro⟩
        have hgone := (h.deleted_iff idx hidx).mp hin r (hstays r hr hro ▸ hr)
        exact absurd hro hgone
    · rw [if_neg (fun hc => hin (hdeleted.mp hc)), Option.some.injEq]
      constructor
      · rintro rfl
        by_contra hnone
        exact hin ((h.deleted_iff idx hidx).mpr (fun r hr hro => hnone ⟨r, hr, hro⟩))
      · rintro ⟨r,hr,hro⟩
        exact hstays r hr hro

/-! What the results show -/

/-- Rows that stay may only differ where the check of the rows says so. -/
theorem Calculated.between {look : Aspect → γ → β} {old new : ℕ → γ} {prev tv : List ℕ}
    {now : ℕ → Option ℕ} {rowDidChange : ℕ → Bool}
    (h : Calculated b (prev.map now) tv rowDidChange c)
    (hsame : ∀ idx ∈ prev, ∀ row, now idx = some row → ∀ a,
      (a = Aspect.contents → rowDidChange row = false) → look a (old idx) = look a (new row)) :
    Between b look c (prev.map old) (tv.map new) := by
  have hitem (a : Aspect) (i j : ℕ) (x : Option ℕ) (hi : (prev.map now)[i]? = some x)
      (hj : (tv.map some)[j]? = some x)
      (hcheck : ∀ row, tv[j]? = some row → a = Aspect.contents → rowDidChange row = false) :
      ((prev.map old).map (look a))[i]? = ((tv.map new).map (look a))[j]? := by
    rw [List.getElem?_map] at hi hj
    obtain ⟨idx,hidx,hnow⟩ := Option.map_eq_some_iff.mp hi
    obtain ⟨row,hrow,rfl⟩ := Option.map_eq_some_iff.mp hj
    rw [List.map_map, List.getElem?_map, hidx, List.map_map, List.getElem?_map, hrow]
    exact congrArg some (hsame idx (List.mem_of_getElem? hidx) row hnow a (hcheck row hrow))
  refine ⟨h.wellFormed, fun a => ⟨?_, ?_, ?_, ?_⟩⟩
  · apply h.describes.transforms.relabel (by simp) (by simp)
    intro i j x hi hj hadded hM
    apply hitem a i j x hi hj
    intro row hrow ha
    by_contra hchange
    exact hM (ha ▸ h.kept j row hrow hadded (Bool.eq_true_of_not_eq_false hchange))
  · intro m hm
    apply (h.describes.carries m hm).relabel (by simp) (by simp)
    intro x hi hj hM
    apply hitem a m.from m.to x hi hj
    intro row hrow ha
    by_contra hchange
    exact hM (ha ▸ h.moved m hm row hrow (Bool.eq_true_of_not_eq_false hchange))
  · simpa using h.describes.fits
  · intro j hj
    obtain ⟨row,hrow,_⟩ := h.modified j (h.wellFormed.within a hj)
    rw [Finset.mem_range, List.length_map, List.length_map]
    exact (List.getElem?_eq_some_iff.mp hrow).1

/-! Results in the order of the table -/

/-- Rows only move towards the front, and what moves is the last row of the table. -/
structure Forward (table : List (Option ℕ × α)) : Prop where
  place_le : ∀ (i : ℕ) (r : Option ℕ × α) (o : ℕ), table[i]? = some r → r.1 = some o → i ≤ o
  behind : ∀ (i j : ℕ) (r s : Option ℕ × α) (o p : ℕ), table[i]? = some r → table[j]? = some s →
    r.1 = some o → s.1 = some p → o < p → i ≠ o → j ≠ p

theorem forward_start (xs : List α) : Forward (xs.mapIdx (fun i x => (some i,x))) := by
  have hrow (i : ℕ) (r : Option ℕ × α) (o : ℕ)
      (hr : (xs.mapIdx (fun i x => (some i,x)))[i]? = some r) (hro : r.1 = some o) : i = o := by
    rw [List.getElem?_mapIdx] at hr
    obtain ⟨x,_,rfl⟩ := Option.map_eq_some_iff.mp hr
    exact Option.some.inj hro
  constructor
  · exact fun i r o hr hro => Nat.le_of_eq (hrow i r o hr hro)
  · exact fun i _ r _ o _ hr _ hro _ _ hne => absurd (hrow i r o hr hro) hne

/-- The origins of the rows decide. -/
theorem Forward.of_origins (h : Forward table)
    (hrows : ∀ (i : ℕ) (r : Option ℕ × α) (o : ℕ), table'[i]? = some r → r.1 = some o →
      ∃ s : Option ℕ × α, table[i]? = some s ∧ s.1 = some o) : Forward table' := by
  constructor
  · intro i r o hr hro
    obtain ⟨s,hs,hso⟩ := hrows i r o hr hro
    exact h.place_le i s o hs hso
  · intro i j r s o p hr hs hro hsp
    obtain ⟨r',hr',hro'⟩ := hrows i r o hr hro
    obtain ⟨s',hs',hsp'⟩ := hrows j s p hs hsp
    exact h.behind i j r' s' o p hr' hs' hro' hsp'

theorem Forward.removeSwap (h : Forward table) (erased : ℕ) :
    Forward (removeSwap table erased) := by
  have hlt {i : ℕ} {r : Option ℕ × α} (hr : (CollectionChangeBuilder.removeSwap table erased)[i]? =
      some r) : i < table.length-1 :=
    length_removeSwap table erased ▸ (List.getElem?_eq_some_iff.mp hr).1
  have hold {i : ℕ} {r : Option ℕ × α} (hr : (CollectionChangeBuilder.removeSwap table erased)[i]? =
      some r) : table[if i = erased then table.length-1 else i]? = some r :=
    (getElem?_removeSwap (hlt hr)).symm.trans hr
  constructor
  · intro i r o hr hro
    have hle := h.place_le _ r o (hold hr) hro
    have := hlt hr
    split_ifs at hle
    · omega
    · exact hle
  · intro i j r s o p hr hs hro hsp hop hne
    have hi := hlt hr
    have hj := hlt hs
    have hr := hold hr
    have hs := hold hs
    by_cases hje : j = erased
    · -- the last row is in front of its old place now
      rw [if_pos hje] at hs
      have := h.place_le _ s p hs hsp
      omega
    · rw [if_neg hje] at hs
      by_cases hie : i = erased
      · -- the other row came before the last one, where there is none behind it
        rw [if_pos hie] at hr
        have := h.place_le _ r o hr hro
        omega
      · rw [if_neg hie] at hr
        exact h.behind i j r s o p hr hs hro hsp hop hne

end CollectionChangeBuilder

namespace TableInstruction

/-- Rows change places. -/
def Swaps : TableInstruction α → Prop
  | swapRows _ _ => True
  | _ => False

end TableInstruction

namespace CollectionChangeBuilder

variable {b : Build} {view : Aspect → α → β} {c changes : CollectionChangeBuilder} {xs : List α}
  {table table' : List (Option ℕ × α)} {idx row : ℕ}

theorem Forward.apply (h : Forward table) (i : TableInstruction α) (hi : ¬ i.Swaps) :
    Forward (i.apply table) := by
  cases i with
  | set row col value =>
    apply h.of_origins
    intro j r o hr hro
    rw [TableInstruction.apply, List.getElem?_modify] at hr
    obtain ⟨s,hs,rfl⟩ := Option.map_eq_some_iff.mp hr
    refine ⟨s, hs, ?_⟩
    split_ifs at hro
    · exact hro
    · exact hro
  | insertEmptyRows rows =>
    apply h.of_origins
    intro j r o hr hro
    rw [TableInstruction.apply] at hr
    by_cases hj : j < table.length
    · rw [List.getElem?_append_left hj] at hr
      exact ⟨r, hr, hro⟩
    · -- a new row comes from nowhere
      rw [List.getElem?_append_right (Nat.le_of_not_lt hj), List.getElem?_map] at hr
      obtain ⟨x,_,rfl⟩ := Option.map_eq_some_iff.mp hr
      cases hro
  | eraseRow row => exact h.removeSwap row
  | swapRows row1 row2 => exact absurd trivial hi
  | clear => exact h.of_origins (fun j r o hr _ => by cases hr)

theorem Forward.applyAll (h : Forward table) (log : List (TableInstruction α))
    (hlog : ∀ i ∈ log, ¬ i.Swaps) : Forward (TableInstruction.applyAll log table) := by
  induction log generalizing table with
  | nil => exact h
  | cons i log ih =>
    exact ih (h.apply i (hlog i List.mem_cons_self)) (fun j hj => hlog j (List.mem_cons_of_mem _ hj))

theorem Forward.inTableOrder (hf : Forward table) (h : Reports b view changes xs table)
    {prev tv : List ℕ} (hprev : prev.Pairwise (· < ·)) (hlt : ∀ idx ∈ prev, idx < xs.length)
    (htv : tv.Pairwise (· < ·)) :
    InTableOrder changes.added (prev.map (rowNow changes)) tv := by
  have hfind {i row : ℕ} (hi : (prev.map (rowNow changes))[i]? = some (some row)) :
      ∃ (idx : ℕ) (r : Option ℕ × α), prev[i]? = some idx ∧ table[row]? = some r ∧
        r.1 = some idx := by
    rw [List.getElem?_map] at hi
    obtain ⟨idx,hidx,hnow⟩ := Option.map_eq_some_iff.mp hi
    obtain ⟨r,hr,hro⟩ := (h.rowNow_eq_some (hlt idx (List.mem_of_getElem? hidx))).mp hnow
    exact ⟨idx, r, hidx, hr, hro⟩
  have hbefore {i j idx idx' : ℕ} (hij : i < j) (hi : prev[i]? = some idx)
      (hj : prev[j]? = some idx') : idx < idx' := by
    obtain ⟨hlti,hi⟩ := List.getElem?_eq_some_iff.mp hi
    obtain ⟨hltj,hj⟩ := List.getElem?_eq_some_iff.mp hj
    rw [← hi, ← hj]
    exact List.pairwise_iff_getElem.mp hprev i j hlti hltj hij
  refine ⟨htv, ?_, ?_, ?_⟩
  · intro i j row hi hj
    obtain ⟨idx,r,hidx,hr,hro⟩ := hfind hi
    obtain ⟨idx',s,hidx',hs,hso⟩ := hfind hj
    rw [hr, Option.some.injEq] at hs
    rw [← hs, hro, Option.some.injEq] at hso
    rcases Nat.lt_trichotomy i j with hij | hij | hij
    · exact absurd hso (Nat.ne_of_lt (hbefore hij hidx hidx'))
    · exact hij
    · exact absurd hso.symm (Nat.ne_of_lt (hbefore hij hidx' hidx))
  · intro i j row row' hij hi hj hrow hrow'
    obtain ⟨idx,r,hidx,hr,hro⟩ := hfind hi
    obtain ⟨idx',s,hidx',hs,hso⟩ := hfind hj
    -- both are where they were
    have hsame := not_not.mp (mt (h.added_iff row r hr).mpr hrow)
    have hsame' := not_not.mp (mt (h.added_iff row' s hs).mpr hrow')
    rw [hro, Option.some.injEq] at hsame
    rw [hso, Option.some.injEq] at hsame'
    exact hsame ▸ hsame' ▸ hbefore hij hidx hidx'
  · intro i j row row' hij hi hj hrow
    obtain ⟨idx,r,hidx,hr,hro⟩ := hfind hi
    obtain ⟨idx',s,hidx',hs,hso⟩ := hfind hj
    apply (h.added_iff row' s hs).mpr
    have hmoved := (h.added_iff row r hr).mp hrow
    rw [hro, Ne, Option.some.injEq] at hmoved
    rw [hso, Ne, Option.some.injEq]
    have hne := hf.behind row row' r s idx idx' hr hs hro hso (hbefore hij hidx hidx')
      (fun he => hmoved he.symm)
    exact fun he => hne he.symm

/-! One run and all runs -/

/-- All contents of a row count, and otherwise which row it is. -/
def shown (view : Aspect → α → β) (a : Aspect) (x : Option α) : Option β :=
  x.map (view (if a = Aspect.contents then Aspect.contents else Aspect.identity))

/-- A row that is found again shows what it did, unless the table marks it as modified. -/
theorem Reports.shown_eq (h : Reports b view changes xs table) (hidx : idx < xs.length)
    (hnow : rowNow changes idx = some row) {a : Aspect}
    (ha : a = Aspect.contents → row ∉ changes.changed Aspect.contents) :
    shown view a xs[idx]? = shown view a (table.map Prod.snd)[row]? := by
  obtain ⟨r,hr,hro⟩ := (h.rowNow_eq_some hidx).mp hnow
  rw [shown, shown, List.getElem?_map, hr]
  by_cases hcontents : a = Aspect.contents
  · rw [if_pos hcontents]
    exact h.same Aspect.contents row r idx hr hro (ha hcontents)
  · rw [if_neg hcontents]
    exact h.same Aspect.identity row r idx hr hro (Finset.notMem_empty row)

end CollectionChangeBuilder

namespace TableInstruction

/-- Each row with a note of its position. -/
def noted (xs : List α) : List (Option ℕ × α) := xs.mapIdx (fun i x => (some i,x))

def rowsAfter (log : List (TableInstruction α)) (xs : List α) : List α :=
  (applyAll log (noted xs)).map Prod.snd

/-- What the observer of a transaction hands on for the table. -/
def changesOf (b : Build) (log : List (TableInstruction α)) (xs : List α) :
    CollectionChangeBuilder :=
  (observeAll b log (noted xs) {}).parseComplete b

theorem rowsAfter_nil (xs : List α) : rowsAfter [] xs = xs := by
  apply List.ext_getElem?
  intro i
  change ((noted xs).map Prod.snd)[i]? = xs[i]?
  rw [noted, List.getElem?_map, List.getElem?_mapIdx]
  cases xs[i]? with
  | none => rfl
  | some x => rfl

theorem changesOf_nil (b : Build) (xs : List α) : changesOf b [] xs = {} := by
  simp [changesOf, observeAll, parseComplete]

theorem changesOf_reports {b : Build} {view : Aspect → α → β} {xs : List α}
    {log : List (TableInstruction α)} (hsize : xs.length ≤ npos b)
    (hlog : FitAll view log (noted xs)) :
    Reports b view (changesOf b log xs) xs (applyAll log (noted xs)) :=
  (observeAll_follows log (follows_start xs) hsize hlog).reports

end TableInstruction

namespace ResultsNotifier

open TableInstruction (noted rowsAfter changesOf)

variable {b : Build} {view : Aspect → α → β} {n : ResultsNotifier} {xs : List α}

/-- The items of a result, by their rows in the table. -/
def rowsAt (xs : List α) (rows : List ℕ) : List (Option α) := rows.map (fun row => xs[row]?)

/-- A transaction, and a run of the query after it if it is due: the table may lie beyond those
that the transaction is known to have changed. -/
structure Turn (α : Type*) where
  log : List (TableInstruction α)
  beyond : Bool
  tv : Option (List ℕ)
  rowDidChange : ℕ → Bool

namespace Turn

def changes (b : Build) (turn : Turn α) (xs : List α) : Option CollectionChangeBuilder :=
  if turn.beyond then none else some (changesOf b turn.log xs)

/-- Without a run there is nothing to tell. -/
def take (b : Build) (sorts : Sorts) (turn : Turn α) (n : ResultsNotifier) (xs : List α) :
    ResultsNotifier × CollectionChangeBuilder :=
  match turn.tv with
  | none => (n, {})
  | some tv => n.calculateChanges b sorts (turn.changes b xs) tv turn.rowDidChange

/-- What the notifier is promised: the log fits the table, the query finds rows of the table, a
row that the table marks is one that changed, and a table that did not change is all that is
left out. Results in the order of the table come in that order, and their table swaps no rows. -/
structure Sound (b : Build) (view : Aspect → α → β) (turn : Turn α) (n : ResultsNotifier)
    (xs : List α) : Prop where
  size : xs.length ≤ npos b
  fits : TableInstruction.FitAll view turn.log (noted xs)
  beyond : turn.beyond = true → turn.log = []
  skipped : turn.tv = none → turn.log = []
  found : ∀ tv, turn.tv = some tv → ∀ row ∈ tv, row < (rowsAfter turn.log xs).length
  check : ∀ row ∈ (changesOf b turn.log xs).changed Aspect.contents, turn.rowDidChange row = true
  order : n.targetIsInTableOrder ∧ ¬ n.sort →
    (∀ tv, turn.tv = some tv → tv.Pairwise (· < ·)) ∧ ∀ i ∈ turn.log, ¬ i.Swaps

end Turn

/-- The rows that are kept are rows of the table. -/
structure Knows (n : ResultsNotifier) (xs : List α) : Prop where
  hasRun : n.hasRun = true
  found : ∀ idx ∈ n.previousRows, idx < xs.length
  order : n.targetIsInTableOrder ∧ ¬ n.sort → n.previousRows.Pairwise (· < ·)

theorem calculateChanges_between (sorts : Sorts) {turn : Turn α} {tv : List ℕ}
    (hk : n.Knows xs) (hs : turn.Sound b view n xs) (htv : turn.tv = some tv) :
    Between b (shown view)
      (n.calculateChanges b sorts (turn.changes b xs) tv turn.rowDidChange).2
      (rowsAt xs n.previousRows) (rowsAt (rowsAfter turn.log xs) tv) := by
  have hreports := TableInstruction.changesOf_reports hs.size hs.fits
  have hmoved : n.movedRows (turn.changes b xs) =
      n.previousRows.map (rowNow (changesOf b turn.log xs)) := by
    rw [Turn.changes]
    by_cases hbeyond : turn.beyond = true
    · -- nothing is reported, as nothing changed
      rw [if_pos hbeyond, hs.beyond hbeyond, TableInstruction.changesOf_nil]
      rfl
    · rw [if_neg hbeyond]
      rfl
  have hcalc : Calculated b (n.previousRows.map (rowNow (changesOf b turn.log xs))) tv
      turn.rowDidChange
      (n.calculateChanges b sorts (turn.changes b xs) tv turn.rowDidChange).2 := by
    rw [calculateChanges, if_pos hk.hasRun, hmoved]
    cases hcandidates : n.moveCandidates (turn.changes b xs) with
    | none => exact (calculate_sorted b sorts _ tv _).1
    | some candidates =>
      obtain ⟨changes,hchanges,hif⟩ := Option.bind_eq_some_iff.mp hcandidates
      rw [Turn.changes] at hchanges
      split_ifs at hchanges hif with hbeyond horder
      rw [← Option.some.inj hif, ← Option.some.inj hchanges]
      obtain ⟨hsorted,hswaps⟩ := hs.order horder
      apply calculate_unsorted b sorts _ (represents_self hreports.wellFormed.insertions)
      exact ((forward_start xs).applyAll turn.log hswaps).inTableOrder hreports (hk.order horder)
        hk.found (hsorted tv htv)
  apply hcalc.between
  intro idx hidx row hnow a ha
  apply hreports.shown_eq (hk.found idx hidx) hnow
  intro hcontents hmark
  have hchange := hs.check row hmark
  rw [ha hcontents] at hchange
  cases hchange

theorem take_between (sorts : Sorts) {turn : Turn α} (hk : n.Knows xs)
    (hs : turn.Sound b view n xs) :
    Between b (shown view) (turn.take b sorts n xs).2 (rowsAt xs n.previousRows)
      (rowsAt (rowsAfter turn.log xs) (turn.take b sorts n xs).1.previousRows) ∧
    (turn.take b sorts n xs).1.Knows (rowsAfter turn.log xs) := by
  rw [Turn.take]
  cases htv : turn.tv with
  | none =>
    rw [hs.skipped htv, TableInstruction.rowsAfter_nil]
    exact ⟨between_empty _, hk⟩
  | some tv =>
    have hnext : (n.calculateChanges b sorts (turn.changes b xs) tv turn.rowDidChange).1 =
        { n with previousRows := tv } := by
      rw [calculateChanges, if_pos hk.hasRun]
    constructor
    · change Between b (shown view) (n.calculateChanges b sorts _ tv _).2 _
        (rowsAt _ (n.calculateChanges b sorts _ tv _).1.previousRows)
      rw [hnext]
      exact calculateChanges_between sorts hk hs htv
    · change (n.calculateChanges b sorts _ tv _).1.Knows _
      rw [hnext]
      exact ⟨hk.hasRun, hs.found tv htv, fun horder => (hs.order horder).1 tv htv⟩

/-- The changes of all transactions, the notifier behind them and the rows of the table. -/
def takeAll (b : Build) (sorts : Sorts) : List (Turn α) → ResultsNotifier → List α →
    List CollectionChangeBuilder × ResultsNotifier × List α
  | [], n, xs => ([], n, xs)
  | turn :: turns, n, xs =>
    let s := turn.take b sorts n xs
    let rest := takeAll b sorts turns s.1 (rowsAfter turn.log xs)
    (s.2 :: rest.1, rest.2)

/-- Each transaction keeps its promises. -/
def SoundAll (b : Build) (view : Aspect → α → β) (sorts : Sorts) :
    List (Turn α) → ResultsNotifier → List α → Prop
  | [], _, _ => True
  | turn :: turns, n, xs => turn.Sound b view n xs ∧
    SoundAll b view sorts turns (turn.take b sorts n xs).1 (rowsAfter turn.log xs)

theorem takeAll_chain (sorts : Sorts) (turns : List (Turn α)) (hk : n.Knows xs)
    (hs : SoundAll b view sorts turns n xs) :
    Chain b (shown view) (takeAll b sorts turns n xs).1 (rowsAt xs n.previousRows)
      (rowsAt (takeAll b sorts turns n xs).2.2
        (takeAll b sorts turns n xs).2.1.previousRows) := by
  induction turns generalizing n xs with
  | nil => exact Chain.nil _
  | cons turn turns ih =>
    obtain ⟨hbetween,hnext⟩ := take_between sorts hk hs.1
    exact Chain.cons hbetween (ih hnext hs.2)

end ResultsNotifier

end ObjectStore
