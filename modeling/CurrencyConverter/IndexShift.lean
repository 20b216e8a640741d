import Mathlib.Data.Nat.Nth
import Mathlib.Data.Finset.Image
import Mathlib.Order.Interval.Finset.Nat
import Mathlib.Order.WellFounded

/-! Positions of a sequence before and after the positions of a finite set are put in or
taken out. `shift S i` is where the item at `i` goes when room is made at the positions `S`;
`unshift S j` is where the item at `j` goes when the positions `S` are closed. -/
namespace IndexShift

variable (S P D : Finset ℕ)

noncomputable def shift (i : ℕ) : ℕ := Nat.nth (fun k => k ∉ S) i

def unshift (j : ℕ) : ℕ := Nat.count (fun k => k ∉ S) j

theorem outside_infinite : (Set.ofPred (fun k => k ∉ S)).Infinite := by
  intro h
  have huniv : (Set.univ : Set ℕ).Finite := by
    apply (h.union S.finite_toSet).subset
    intro k _
    by_cases hk : k ∈ S
    · exact Or.inr hk
    · exact Or.inl hk
  exact Set.infinite_univ huniv

theorem shift_strictMono : StrictMono (shift S) := Nat.nth_strictMono (outside_infinite S)

theorem shift_not_mem (i : ℕ) : shift S i ∉ S := Nat.nth_mem_of_infinite (outside_infinite S) i

theorem unshift_shift (i : ℕ) : unshift S (shift S i) = i :=
  Nat.count_nth_of_infinite (outside_infinite S) i

variable {S P D}

theorem shift_unshift {j : ℕ} (hj : j ∉ S) : shift S (unshift S j) = j := Nat.nth_count hj

theorem shift_eq {i j : ℕ} (hj : j ∉ S) (hi : unshift S j = i) : shift S i = j := by
  rw [← hi]
  exact shift_unshift hj

theorem shift_injective : Function.Injective (shift S) := (shift_strictMono S).injective

@[simp] theorem shift_lt_shift {i j : ℕ} : shift S i < shift S j ↔ i < j :=
  (shift_strictMono S).lt_iff_lt

theorem unshift_mono : Monotone (unshift S) := Nat.count_monotone _

theorem unshift_lt_unshift {i j : ℕ} (hi : i ∉ S) (hij : i < j) : unshift S i < unshift S j :=
  Nat.count_strict_mono hi hij

theorem unshift_inj {i j : ℕ} (hi : i ∉ S) (hj : j ∉ S) (h : unshift S i = unshift S j) :
    i = j := Nat.count_injective hi hj h

@[simp] theorem unshift_zero : unshift S 0 = 0 := Nat.count_zero _

theorem unshift_succ (j : ℕ) : unshift S (j+1) = unshift S j + if j ∈ S then 0 else 1 := by
  rw [unshift, Nat.count_succ, unshift]
  by_cases hj : j ∈ S
  · rw [if_neg (fun h => h hj), if_pos hj]
  · rw [if_pos hj, if_neg hj]

/-- Closing the positions before `j` moves `j` by as many places as there are. -/
theorem unshift_add_card (j : ℕ) : unshift S j + (S.filter (fun k => k < j)).card = j := by
  induction j with
  | zero => simp
  | succ j ih =>
    rw [unshift_succ]
    by_cases hj : j ∈ S
    · have hset : S.filter (fun k => k < j+1) = insert j (S.filter (fun k => k < j)) := by
        ext k
        simp only [Finset.mem_filter, Finset.mem_insert]
        constructor
        · rintro ⟨hk,hlt⟩
          by_cases he : k = j
          · exact Or.inl he
          · exact Or.inr ⟨hk, by omega⟩
        · rintro (rfl | ⟨hk,hlt⟩)
          · exact ⟨hj, by omega⟩
          · exact ⟨hk, by omega⟩
      rw [hset, Finset.card_insert_of_notMem (by simp), if_pos hj]
      omega
    · have hset : S.filter (fun k => k < j+1) = S.filter (fun k => k < j) := by
        apply Finset.filter_congr
        intro k hk
        constructor
        · intro hlt
          have hne : k ≠ j := fun h => hj (h ▸ hk)
          omega
        · omega
      rw [hset, if_neg hj]
      omega

theorem unshift_le (j : ℕ) : unshift S j ≤ j := by
  have h := unshift_add_card (S := S) j
  omega

theorem le_shift (i : ℕ) : i ≤ shift S i := (shift_strictMono S).le_apply

@[simp] theorem unshift_empty (j : ℕ) : unshift ∅ j = j := by
  have h := unshift_add_card (S := ∅) j
  simpa using h

@[simp] theorem shift_empty (i : ℕ) : shift ∅ i = i :=
  shift_eq (Finset.notMem_empty i) (unshift_empty i)

/-- The places outside `S`, in order, are listed by `shift S` and by nothing else. -/
theorem eq_shift {f : ℕ → ℕ} (hf : StrictMono f) (hrange : ∀ k, (∃ i, f i = k) ↔ k ∉ S) :
    f = shift S := by
  apply (hf.range_inj (shift_strictMono S)).mp
  ext k
  constructor
  · rintro ⟨i,rfl⟩
    exact ⟨_, shift_unshift ((hrange _).mp ⟨i, rfl⟩)⟩
  · rintro ⟨i,rfl⟩
    exact (hrange _).mpr (shift_not_mem S i)

variable (S P D)

/-- The set `S` after room is made at `P`, the new positions counted in. -/
noncomputable def inserted : Finset ℕ := P ∪ S.image (shift P)

/-- The set `S` after the positions `D` are closed. -/
def erased : Finset ℕ := (S \ D).image (unshift D)

variable {S P D}

theorem mem_inserted {k : ℕ} : k ∈ inserted S P ↔ k ∈ P ∨ ∃ i ∈ S, shift P i = k := by
  simp [inserted]

theorem mem_inserted_of_not_mem {k : ℕ} (hk : k ∉ P) : k ∈ inserted S P ↔ unshift P k ∈ S := by
  rw [mem_inserted]
  constructor
  · rintro (h | ⟨i,hi,rfl⟩)
    · exact absurd h hk
    · rwa [unshift_shift]
  · intro h
    exact Or.inr ⟨_, h, shift_unshift hk⟩

theorem mem_erased {k : ℕ} : k ∈ erased S D ↔ shift D k ∈ S := by
  simp only [erased, Finset.mem_image, Finset.mem_sdiff]
  constructor
  · rintro ⟨j,⟨hj,hd⟩,rfl⟩
    rwa [shift_unshift hd]
  · intro h
    exact ⟨_, ⟨h, shift_not_mem D k⟩, unshift_shift D k⟩

theorem unshift_mem_erased {j : ℕ} (hj : j ∉ D) : unshift D j ∈ erased S D ↔ j ∈ S := by
  rw [mem_erased, shift_unshift hj]

/-- Making room and closing it again changes nothing. -/
theorem erased_inserted : erased (inserted S P) P = S := by
  ext k
  rw [mem_erased, mem_inserted_of_not_mem (shift_not_mem P k), unshift_shift]

theorem inserted_erased : inserted (erased S P) P = P ∪ S := by
  ext k
  rw [Finset.mem_union]
  by_cases hk : k ∈ P
  · exact ⟨fun _ => Or.inl hk, fun _ => mem_inserted.mpr (Or.inl hk)⟩
  · rw [mem_inserted_of_not_mem hk, unshift_mem_erased hk]
    exact ⟨Or.inr, fun h => h.resolve_left hk⟩

@[simp] theorem inserted_empty : inserted S ∅ = S := by
  ext k
  simp [mem_inserted]

@[simp] theorem empty_inserted : inserted ∅ P = P := by
  ext k
  simp [mem_inserted]

@[simp] theorem erased_empty : erased S ∅ = S := by
  ext k
  rw [mem_erased, shift_empty]

@[simp] theorem empty_erased : erased ∅ D = ∅ := by
  simp [erased]

/-- Room made in two rounds is room made once, at the places of both. -/
theorem shift_inserted (i : ℕ) : shift (inserted S P) i = shift P (shift S i) := by
  have hf : StrictMono (fun i => shift P (shift S i)) :=
    (shift_strictMono P).comp (shift_strictMono S)
  have h := eq_shift (S := inserted S P) hf
  rw [← h]
  intro k
  constructor
  · rintro ⟨j,rfl⟩
    rw [mem_inserted_of_not_mem (shift_not_mem P _), unshift_shift]
    exact shift_not_mem S j
  · intro hk
    have hp : k ∉ P := fun h => hk (mem_inserted.mpr (Or.inl h))
    rw [mem_inserted_of_not_mem hp] at hk
    exact ⟨unshift S (unshift P k), by rw [shift_unshift hk, shift_unshift hp]⟩

/-! The positions of one range. -/

theorem unshift_Ico (k m j : ℕ) : unshift (Finset.Ico k m) j = j-(min j m-k) := by
  have h := unshift_add_card (S := Finset.Ico k m) j
  have hset : (Finset.Ico k m).filter (fun i => i < j) = Finset.Ico k (min j m) := by
    ext i
    simp only [Finset.mem_filter, Finset.mem_Ico]
    omega
  rw [hset, Nat.card_Ico] at h
  omega

theorem shift_Ico (k c i : ℕ) :
    shift (Finset.Ico k (k+c)) i = if i < k then i else i+c := by
  by_cases hi : i < k
  · rw [if_pos hi]
    apply shift_eq
    · rw [Finset.mem_Ico]
      omega
    · rw [unshift_Ico]
      omega
  · rw [if_neg hi]
    apply shift_eq
    · rw [Finset.mem_Ico]
      omega
    · rw [unshift_Ico]
      omega

theorem shift_singleton (k i : ℕ) : shift {k} i = if i < k then i else i+1 := by
  rw [← shift_Ico, Nat.Ico_succ_singleton]

theorem unshift_singleton (k j : ℕ) : unshift {k} j = if j ≤ k then j else j-1 := by
  rw [← Nat.Ico_succ_singleton, unshift_Ico]
  split
  · omega
  · omega

theorem mem_image_shift {k : ℕ} : k ∈ S.image (shift P) ↔ k ∉ P ∧ unshift P k ∈ S := by
  rw [Finset.mem_image]
  constructor
  · rintro ⟨i,hi,rfl⟩
    exact ⟨shift_not_mem P i, by rwa [unshift_shift]⟩
  · rintro ⟨hk,hu⟩
    exact ⟨_, hu, shift_unshift hk⟩

theorem mem_image_shift_Ico {k c x : ℕ} : x ∈ S.image (shift (Finset.Ico k (k+c))) ↔
    (x < k ∧ x ∈ S) ∨ (k+c ≤ x ∧ x-c ∈ S) := by
  rw [mem_image_shift, Finset.mem_Ico, unshift_Ico]
  by_cases hx : x < k
  · have hu : x-(min x (k+c)-k) = x := by omega
    rw [hu]
    constructor
    · exact fun h => Or.inl ⟨hx, h.2⟩
    · rintro (h | h)
      · exact ⟨by omega, h.2⟩
      · omega
  · by_cases hc : k+c ≤ x
    · have hu : x-(min x (k+c)-k) = x-c := by omega
      rw [hu]
      constructor
      · exact fun h => Or.inr ⟨hc, h.2⟩
      · rintro (h | h)
        · omega
        · exact ⟨by omega, h.2⟩
    · constructor
      · intro h
        omega
      · rintro (h | h) <;> omega

theorem mem_inserted_Ico {k c x : ℕ} : x ∈ inserted S (Finset.Ico k (k+c)) ↔
    (k ≤ x ∧ x < k+c) ∨ (x < k ∧ x ∈ S) ∨ (k+c ≤ x ∧ x-c ∈ S) := by
  rw [inserted, Finset.mem_union, mem_image_shift_Ico, Finset.mem_Ico]

end IndexShift
