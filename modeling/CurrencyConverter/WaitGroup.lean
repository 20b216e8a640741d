import Mathlib.Data.Nat.Notation
import Mathlib.Logic.Function.Basic

/-! Counting groups: members enter, members leave, and a block registered on a group
fires at the moment the group's count is zero. A member that ends without leaving is
leaked: the group keeps counting it. -/
namespace WaitGroup

structure Group where
  count : ℕ := 0
  blocks : ℕ := 0

structure Table where
  next : ℕ := 0
  group : ℕ → Group := fun _ => {}

namespace Table

def create (t : Table) : Table :=
  { next := t.next+1, group := Function.update t.group t.next {} }

def enter (t : Table) (g : ℕ) : Table :=
  { t with group := Function.update t.group g { t.group g with count := (t.group g).count+1 } }

/-- Leaving an empty group is a client error (`none`); otherwise the number of blocks
that fire comes with the new table. -/
def leave (t : Table) (g : ℕ) : Option (ℕ × Table) :=
  match (t.group g).count with
  | 0 => none
  -- the last member leaves: the waiting blocks fire, and the group is as new
  | 1 => some ((t.group g).blocks, { t with group := Function.update t.group g {} })
  | n+2 => some (0, { t with group := Function.update t.group g { t.group g with count := n+1 } })

def notify (t : Table) (g : ℕ) : ℕ × Table :=
  -- nobody to wait for: the block fires at once and is not kept
  if (t.group g).count = 0 then (1, t) else
    let waiting : Group := { t.group g with blocks := (t.group g).blocks+1 }
    (0, { t with group := Function.update t.group g waiting })

theorem leave_eq_none_iff (t : Table) (g : ℕ) : t.leave g = none ↔ (t.group g).count = 0 := by
  unfold leave
  split <;> simp_all

theorem leave_next {t u : Table} {g fired : ℕ} (h : t.leave g = some (fired,u)) :
    u.next = t.next := by
  unfold leave at h
  split at h
  · contradiction
  · cases h; rfl
  · cases h; rfl

theorem leave_count {t u : Table} {g fired : ℕ} (h : t.leave g = some (fired,u)) :
    (t.group g).count = (u.group g).count+1 := by
  unfold leave at h
  split at h
  · contradiction
  · cases h; simpa
  · cases h; simpa

theorem leave_other {t u : Table} {g i fired : ℕ} (h : t.leave g = some (fired,u))
    (hi : i ≠ g) : u.group i = t.group i := by
  unfold leave at h
  split at h
  · contradiction
  · cases h; exact Function.update_of_ne hi _ _
  · cases h; exact Function.update_of_ne hi _ _

/-- The blocks of a group fire together, exactly when its last member leaves. -/
theorem leave_blocks {t u : Table} {g fired : ℕ} (h : t.leave g = some (fired,u)) :
    ((u.group g).count = 0 ∧ fired = (t.group g).blocks ∧ (u.group g).blocks = 0) ∨
      ((u.group g).count ≠ 0 ∧ fired = 0 ∧ (u.group g).blocks = (t.group g).blocks) := by
  unfold leave at h
  split at h
  · contradiction
  · cases h; simp
  · cases h; simp

theorem notify_next (t : Table) (g : ℕ) : (t.notify g).2.next = t.next := by
  unfold notify
  split <;> rfl

theorem notify_count (t : Table) (g i : ℕ) :
    ((t.notify g).2.group i).count = (t.group i).count := by
  unfold notify
  split
  · rfl
  · by_cases hi : i = g
    · subst hi; simp
    · simp [Function.update_of_ne hi]

/-- A registered block fires at once on an empty group and waits on any other. -/
theorem notify_blocks (t : Table) (g : ℕ) :
    ((t.group g).count = 0 ∧ (t.notify g).1 = 1 ∧
        ((t.notify g).2.group g).blocks = (t.group g).blocks) ∨
      ((t.group g).count ≠ 0 ∧ (t.notify g).1 = 0 ∧
        ((t.notify g).2.group g).blocks = (t.group g).blocks+1) := by
  unfold notify
  split <;> simp_all

end Table

/-- The count of every group is its members still inside plus the leaked ones. -/
def Accounted (t : Table) (members leaked : ℕ → ℕ) : Prop :=
  ∀ g, (t.group g).count = members g+leaked g

theorem accounted_initial : Accounted {} (fun _ => 0) (fun _ => 0) := fun _ => rfl

section
variable {t u : Table} {members leaked : ℕ → ℕ} {g fired : ℕ}

theorem Accounted.create (h : Accounted t members leaked) (hm : members t.next = 0)
    (hl : leaked t.next = 0) : Accounted t.create members leaked := by
  intro i
  by_cases hi : i = t.next
  · subst hi; simp [Table.create, hm, hl]
  · simpa [Table.create, Function.update_of_ne hi] using h i

theorem Accounted.enter (h : Accounted t members leaked) (g : ℕ) :
    Accounted (t.enter g) (Function.update members g (members g+1)) leaked := by
  intro i
  -- the group entered gains a member, every other group is as before
  by_cases hi : i = g
  · subst hi
    have := h i
    simp only [Table.enter, Function.update_self]
    omega
  · simpa [Table.enter, Function.update_of_ne hi] using h i

theorem Accounted.notify (h : Accounted t members leaked) (g : ℕ) :
    Accounted (t.notify g).2 members leaked := fun i =>
  (t.notify_count g i).trans (h i)

/-- While a member is inside, leaving is allowed. -/
theorem Accounted.leave_isSome (h : Accounted t members leaked) (hm : 0 < members g) :
    ∃ fired u, t.leave g = some (fired,u) := by
  cases hl : t.leave g with
  | none =>
    have := h g
    have := (t.leave_eq_none_iff g).mp hl
    omega
  | some fu => exact ⟨fu.1, fu.2, rfl⟩

theorem Accounted.leave (h : Accounted t members leaked) (hl : t.leave g = some (fired,u))
    (hm : 0 < members g) :
    Accounted u (Function.update members g (members g-1)) leaked := by
  intro i
  by_cases hi : i = g
  · subst hi
    have := h i
    have := Table.leave_count hl
    simp only [Function.update_self]
    omega
  · rw [Table.leave_other hl hi, Function.update_of_ne hi]
    exact h i

/-- A member that ends without leaving moves to the leaked ones; the table stays. -/
theorem Accounted.leak (h : Accounted t members leaked) (hm : 0 < members g) :
    Accounted t (Function.update members g (members g-1))
      (Function.update leaked g (leaked g+1)) := by
  intro i
  have hi := h i
  by_cases hig : i = g
  · subst hig
    simp only [Function.update_self]
    omega
  · simpa [Function.update_of_ne hig] using hi

/-- Members keep their group's count above zero. -/
theorem Accounted.members_eq_zero (h : Accounted t members leaked)
    (hc : (t.group g).count = 0) : members g = 0 := by
  have := h g
  omega

end

end WaitGroup
