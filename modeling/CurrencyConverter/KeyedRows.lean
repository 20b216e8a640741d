import Mathlib.Data.List.Nodup

/-! Lists of rows with a key, and the rewriting of the row of one key. -/
namespace KeyedRows

variable {ρ κ : Type*} [DecidableEq κ] (key : ρ → κ)

def find (k : κ) (rows : List ρ) : Option ρ := rows.find? (fun r => key r = k)

def rewrite (k : κ) (f : ρ → ρ) (rows : List ρ) : List ρ :=
  rows.map (fun r => if key r = k then f r else r)

theorem find_key {k : κ} {rows : List ρ} {r : ρ} (h : find key k rows = some r) : key r = k := by
  simpa using List.find?_some h

theorem find_mem {k : κ} {rows : List ρ} {r : ρ} (h : find key k rows = some r) : r ∈ rows :=
  List.mem_of_find?_eq_some h

theorem find_isSome {k : κ} {rows : List ρ} (h : k ∈ rows.map key) :
    ∃ r, find key k rows = some r := by
  obtain ⟨r,hr,hk⟩ := List.mem_map.mp h
  apply Option.isSome_iff_exists.mp
  apply List.find?_isSome.mpr
  exact ⟨r, hr, by simpa using hk⟩

theorem find_none_of_not_mem {k : κ} {rows : List ρ} (h : k ∉ rows.map key) :
    find key k rows = none := by
  apply List.find?_eq_none.mpr
  intro r hr hk
  exact h (List.mem_map.mpr ⟨r, hr, by simpa using hk⟩)

theorem find_of_mem {rows : List ρ} {r : ρ} (hn : (rows.map key).Nodup) (hr : r ∈ rows) :
    find key (key r) rows = some r := by
  obtain ⟨s,hs⟩ := find_isSome key (List.mem_map_of_mem (f := key) hr)
  have hk := find_key key hs
  rw [hs, List.inj_on_of_nodup_map hn (find_mem key hs) hr hk]

theorem mem_rewrite {k : κ} {f : ρ → ρ} {rows : List ρ} {r : ρ} (h : r ∈ rewrite key k f rows) :
    ∃ s ∈ rows, r = if key s = k then f s else s := by
  obtain ⟨s,hs,hr⟩ := List.mem_map.mp h
  exact ⟨s, hs, hr.symm⟩

/-- A column the rewriting leaves alone is the same column afterwards. -/
theorem map_rewrite {β : Type*} (column : ρ → β) (k : κ) {f : ρ → ρ} (rows : List ρ)
    (hf : ∀ r, column (f r) = column r) :
    (rewrite key k f rows).map column = rows.map column := by
  rw [rewrite, List.map_map]
  apply List.map_congr_left
  intro r _
  simp only [Function.comp_apply]
  split
  · exact hf r
  · rfl

theorem rewrite_rewrite (k : κ) (f : ρ → ρ) {g : ρ → ρ} (rows : List ρ)
    (hg : ∀ r, key (g r) = key r) :
    rewrite key k f (rewrite key k g rows) = rewrite key k (fun r => f (g r)) rows := by
  rw [rewrite, rewrite, List.map_map, rewrite]
  apply List.map_congr_left
  intro r _
  simp only [Function.comp_apply]
  by_cases h : key r = k
  · simp [h, hg r]
  · simp [h]

theorem rewrite_eq_self (k : κ) {f : ρ → ρ} (rows : List ρ) (hf : ∀ r, f r = r) :
    rewrite key k f rows = rows := by
  rw [rewrite]
  apply List.map_id''
  intro r
  split
  · exact hf r
  · rfl

theorem find_rewrite (k i : κ) {f : ρ → ρ} (rows : List ρ) (hf : ∀ r, key (f r) = key r) :
    find key i (rewrite key k f rows) =
      if i = k then (find key i rows).map f else find key i rows := by
  -- rewriting a row changes nothing the search looks at
  have hp : (fun r => decide (key r = i)) ∘ (fun r => if key r = k then f r else r) =
      fun r => decide (key r = i) := by
    funext r
    simp only [Function.comp_apply]
    split
    · rw [hf]
    · rfl
  rw [find, rewrite, List.find?_map, hp]
  change (find key i rows).map _ = _
  cases hr : find key i rows with
  | none => simp
  | some r =>
    have hk := find_key key hr
    by_cases hik : i = k
    · simp [hik, hk ▸ hik]
    · simp [hik, hk]

end KeyedRows
