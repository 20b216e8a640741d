import Mathlib.Data.List.Nodup
import Mathlib.Logic.Function.Basic
import Mathlib.Data.List.Perm.Subperm

/-! Rows that are appended and never deleted, and owners that each point at one of them. An
owner is pointed at a new row; the row it pointed at before stays without an owner. -/
namespace LinkedRows

variable {κ : Type*} [DecidableEq κ]

@[ext] structure Table (κ : Type*) where
  next : ℕ
  link : κ → Option ℕ

def Table.assign (t : Table κ) (k : κ) : Table κ where
  next := t.next+1
  link := Function.update t.link k (some t.next)

/-- Links point at rows, and no row has two owners. -/
structure Sound (t : Table κ) : Prop where
  bounded : ∀ k row, t.link k = some row → row < t.next
  unique : ∀ k i row, t.link k = some row → t.link i = some row → k = i

/-- Every row has an owner. -/
def AllOwned (t : Table κ) : Prop := ∀ row < t.next, ∃ k, t.link k = some row

omit [DecidableEq κ] in
theorem sound_of_unlinked {t : Table κ} (h : ∀ k, t.link k = none) : Sound t := by
  refine ⟨?_, ?_⟩
  · intro k row hk
    rw [h k] at hk
    contradiction
  · intro k i row hk _
    rw [h k] at hk
    contradiction

variable {t : Table κ}

theorem assign_link_self (t : Table κ) (k : κ) : (t.assign k).link k = some t.next :=
  Function.update_self k _ t.link

theorem assign_link_of_ne {k i : κ} (h : i ≠ k) : (t.assign k).link i = t.link i :=
  Function.update_of_ne h _ t.link

theorem Sound.assign (h : Sound t) (k : κ) : Sound (t.assign k) := by
  have hbounded (i : κ) (row : ℕ) (hi : (t.assign k).link i = some row) :
      row < t.next ∧ i ≠ k ∧ t.link i = some row ∨ row = t.next ∧ i = k := by
    by_cases hik : i = k
    · subst hik
      rw [assign_link_self] at hi
      exact Or.inr ⟨(Option.some.inj hi).symm, rfl⟩
    · rw [assign_link_of_ne hik] at hi
      exact Or.inl ⟨h.bounded i row hi, hik, hi⟩
  refine ⟨?_, ?_⟩
  · intro i row hi
    change row < t.next+1
    rcases hbounded i row hi with ⟨hlt,-,-⟩ | ⟨heq,-⟩ <;> omega
  · intro i j row hi hj
    -- the new row is the one number no old link has
    rcases hbounded i row hi with ⟨hlt,-,hi'⟩ | ⟨heq,hik⟩
    · rcases hbounded j row hj with ⟨-,-,hj'⟩ | ⟨heq,-⟩
      · exact h.unique i j row hi' hj'
      · omega
    · rcases hbounded j row hj with ⟨hlt,-,-⟩ | ⟨-,hjk⟩
      · omega
      · rw [hik, hjk]

/-- A row without an owner never gets one, and an assignment makes one exactly when the owner
has a row already. -/
theorem Sound.allOwned_assign_iff (h : Sound t) (k : κ) :
    AllOwned (t.assign k) ↔ AllOwned t ∧ t.link k = none := by
  constructor
  · intro hall
    refine ⟨?_, ?_⟩
    · intro row hrow
      obtain ⟨i,hi⟩ := hall row (Nat.lt_succ_of_lt hrow)
      have hik : i ≠ k := by
        rintro rfl
        rw [assign_link_self] at hi
        exact absurd (Option.some.inj hi) (by omega)
      rw [assign_link_of_ne hik] at hi
      exact ⟨i, hi⟩
    · cases hold : t.link k with
      | none => rfl
      | some row =>
        -- the old row of `k` would need another owner
        have hrow := h.bounded k row hold
        obtain ⟨i,hi⟩ := hall row (Nat.lt_succ_of_lt hrow)
        by_cases hik : i = k
        · subst hik
          rw [assign_link_self] at hi
          exact absurd (Option.some.inj hi) (by omega)
        · rw [assign_link_of_ne hik] at hi
          exact absurd (h.unique i k row hi hold) hik
  · rintro ⟨hall,hnone⟩ row hrow
    by_cases hnew : row = t.next
    · exact ⟨k, hnew ▸ assign_link_self t k⟩
    · have hlt : row < t.next := by
        have : row < t.next+1 := hrow
        omega
      obtain ⟨i,hi⟩ := hall row hlt
      have hik : i ≠ k := by
        rintro rfl
        rw [hnone] at hi
        contradiction
      exact ⟨i, (assign_link_of_ne hik).trans hi⟩

omit [DecidableEq κ] in
/-- Owned rows are not more than their owners. -/
theorem AllOwned.next_le (h : AllOwned t) {owners : List κ}
    (ho : ∀ k row, t.link k = some row → k ∈ owners) : t.next ≤ owners.length := by
  have hsub : List.range t.next ⊆ owners.filterMap t.link := by
    intro row hrow
    obtain ⟨k,hk⟩ := h row (List.mem_range.mp hrow)
    exact List.mem_filterMap.mpr ⟨k, ho k row hk, hk⟩
  calc t.next
      = (List.range t.next).length := List.length_range.symm
    _ ≤ (owners.filterMap t.link).length := (List.subperm_of_subset List.nodup_range hsub).length_le
    _ ≤ owners.length := List.length_filterMap_le _ _

end LinkedRows
