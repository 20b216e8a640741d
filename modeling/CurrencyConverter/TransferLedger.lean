import Mathlib.Algebra.Order.Group.Defs
import Mathlib.Algebra.BigOperators.Group.List.Basic
import Mathlib.Tactic.Abel
import Mathlib.Data.Nat.Notation

/-! Balances as an opening amount and the transfers made so far, newest first. A transfer
debits one account and credits another, the same or none, by an amount of its own. -/
namespace TransferLedger

variable {κ M : Type*}

structure Transfer (κ M : Type*) where
  source : κ
  debit : M
  target : Option κ
  credit : M
  deriving DecidableEq

variable [DecidableEq κ] [AddCommGroup M]

def debits (account : κ) (transfers : List (Transfer κ M)) : M :=
  ((transfers.filter (fun t => t.source = account)).map Transfer.debit).sum

def credits (account : κ) (transfers : List (Transfer κ M)) : M :=
  ((transfers.filter (fun t => t.target = some account)).map Transfer.credit).sum

/-- The ledger's law: opening amount, minus all debits, plus all credits. -/
def balance (opening : κ → M) (transfers : List (Transfer κ M)) (account : κ) : M :=
  opening account - debits account transfers + credits account transfers

/-- One account's balance after one transfer. -/
def Transfer.post (t : Transfer κ M) (account : κ) (before : M) : M :=
  before - (if t.source = account then t.debit else 0) +
    (if t.target = some account then t.credit else 0)

theorem balance_nil (opening : κ → M) (account : κ) :
    balance opening [] account = opening account := by
  simp [balance, debits, credits]

theorem balance_cons (opening : κ → M) (t : Transfer κ M) (transfers : List (Transfer κ M))
    (account : κ) :
    balance opening (t :: transfers) account =
      t.post account (balance opening transfers account) := by
  have hd : debits account (t :: transfers) =
      (if t.source = account then t.debit else 0) + debits account transfers := by
    by_cases h : t.source = account <;> simp [debits, h]
  have hc : credits account (t :: transfers) =
      (if t.target = some account then t.credit else 0) + credits account transfers := by
    by_cases h : t.target = some account <;> simp [credits, h]
  rw [balance, hd, hc, Transfer.post, balance]
  abel

/-- A covered debit and a credit that is not negative keep a balance from going below zero,
also when both are booked on one account. -/
theorem Transfer.post_nonneg [LinearOrder M] [IsOrderedAddMonoid M] {t : Transfer κ M}
    {account : κ} {before : M} (hb : 0 ≤ before) (hd : t.source = account → t.debit ≤ before)
    (hc : 0 ≤ t.credit) : 0 ≤ t.post account before := by
  have hdebit : 0 ≤ before - (if t.source = account then t.debit else 0) := by
    split
    · next h => exact sub_nonneg.mpr (hd h)
    · rwa [sub_zero]
  have hcredit : 0 ≤ (if t.target = some account then t.credit else 0) := by
    split
    · exact hc
    · exact le_refl 0
  exact add_nonneg hdebit hcredit

/-- A transfer that leaves its own source's balance alone gives it back what it took. -/
theorem Transfer.self_of_post_source {t : Transfer κ M} {before : M} (hd : t.debit ≠ 0)
    (h : t.post t.source before = before) : t.target = some t.source ∧ t.credit = t.debit := by
  rw [Transfer.post, if_pos rfl] at h
  by_cases ht : t.target = some t.source
  · rw [if_pos ht, sub_add, sub_eq_self, sub_eq_zero] at h
    exact ⟨ht, h.symm⟩
  · rw [if_neg ht, add_zero, sub_eq_self] at h
    exact absurd h hd

end TransferLedger
