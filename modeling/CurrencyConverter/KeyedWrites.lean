import Mathlib.Data.List.Induction
import Mathlib.Logic.Function.Basic

/-! Cells with keys, and sequences of writes to them: the last write of a key stays, and writes
of different keys may change places. -/
namespace KeyedWrites

variable {κ β : Type*} [DecidableEq κ]

def write (cells : κ → Option β) (entry : κ × β) : κ → Option β :=
  Function.update cells entry.1 (some entry.2)

def writes (cells : κ → Option β) (entries : List (κ × β)) : κ → Option β :=
  entries.foldl write cells

/-- The entries of one key, in their order. -/
def ofKey (k : κ) (entries : List (κ × β)) : List (κ × β) := entries.filter (fun e => e.1 = k)

@[simp] theorem writes_nil (cells : κ → Option β) : writes cells [] = cells := rfl

theorem writes_append (cells : κ → Option β) (first second : List (κ × β)) :
    writes cells (first ++ second) = writes (writes cells first) second := List.foldl_append

theorem writes_concat_self (cells : κ → Option β) (entries : List (κ × β)) (e : κ × β) :
    writes cells (entries ++ [e]) e.1 = some e.2 := by
  rw [writes_append]
  exact Function.update_self _ _ _

theorem writes_concat_of_ne (cells : κ → Option β) (entries : List (κ × β)) (e : κ × β) {k : κ}
    (h : k ≠ e.1) : writes cells (entries ++ [e]) k = writes cells entries k := by
  rw [writes_append]
  exact Function.update_of_ne h _ _

/-- A cell holds what the last write of its key put there. -/
theorem writes_eq (cells : κ → Option β) (entries : List (κ × β)) (k : κ) :
    writes cells entries k = ((ofKey k entries).getLast?.map Prod.snd).or (cells k) := by
  induction entries using List.reverseRecOn with
  | nil => simp [ofKey]
  | append_singleton entries e ih =>
    by_cases h : e.1 = k
    · subst h
      rw [writes_concat_self]
      simp [ofKey]
    · rw [writes_concat_of_ne _ _ _ (Ne.symm h), ih]
      simp [ofKey, h]

/-- Two sequences of writes that share no key may change places. -/
theorem writes_comm (cells : κ → Option β) {first second : List (κ × β)}
    (h : ∀ e ∈ first, ∀ f ∈ second, e.1 ≠ f.1) :
    writes (writes cells first) second = writes (writes cells second) first := by
  funext k
  have hone : ofKey k first = [] ∨ ofKey k second = [] := by
    by_contra hboth
    push Not at hboth
    obtain ⟨e,he⟩ := List.exists_mem_of_ne_nil _ hboth.1
    obtain ⟨f,hf⟩ := List.exists_mem_of_ne_nil _ hboth.2
    obtain ⟨hmem,hk⟩ := List.mem_filter.mp he
    obtain ⟨hmem',hk'⟩ := List.mem_filter.mp hf
    have he1 : e.1 = k := of_decide_eq_true hk
    have hf1 : f.1 = k := of_decide_eq_true hk'
    exact h e hmem f hmem' (he1.trans hf1.symm)
  simp only [writes_eq]
  rcases hone with hnone | hnone
  · simp [hnone]
  · simp [hnone]

end KeyedWrites
