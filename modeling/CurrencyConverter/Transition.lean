import Mathlib.Data.List.Basic

/-! Runs of a deterministic machine whose inputs are labels. A condition on steps
looks at the state before the step and at the label, never at the state after. -/
namespace Transition

variable {σ α : Type*} (step : σ → α → σ)

def run (s : σ) (labels : List α) : σ := labels.foldl step s

/-- Every step of the run from `s` is taken in a state and with a label that meet `C`. -/
def Meets (C : σ → α → Prop) : σ → List α → Prop
  | _, [] => True
  | s, a :: labels => C s a ∧ Meets C (step s a) labels

@[simp] theorem run_nil (s : σ) : run step s [] = s := rfl

@[simp] theorem run_cons (s : σ) (a : α) (labels : List α) :
    run step s (a :: labels) = run step (step s a) labels := rfl

theorem run_append (s : σ) (first second : List α) :
    run step s (first ++ second) = run step (run step s first) second :=
  List.foldl_append

theorem run_concat (s : σ) (labels : List α) (a : α) :
    run step s (labels ++ [a]) = step (run step s labels) a := by
  rw [run_append, run_cons, run_nil]

theorem meets_append (C : σ → α → Prop) (s : σ) (first second : List α) :
    Meets step C s (first ++ second) ↔
      Meets step C s first ∧ Meets step C (run step s first) second := by
  induction first generalizing s with
  | nil => simp [Meets]
  | cons a first ih =>
    simp only [List.cons_append, Meets, run_cons, ih, and_assoc]

instance Meets.decidable (C : σ → α → Prop) [∀ s a, Decidable (C s a)] :
    ∀ (s : σ) (labels : List α), Decidable (Meets step C s labels)
  | _, [] => isTrue trivial
  | s, a :: labels =>
    have := Meets.decidable C (step s a) labels
    inferInstanceAs (Decidable (C s a ∧ Meets step C (step s a) labels))

theorem Meets.mono {C D : σ → α → Prop} (h : ∀ s a, C s a → D s a) {s : σ} {labels : List α}
    (hm : Meets step C s labels) : Meets step D s labels := by
  induction labels generalizing s with
  | nil => trivial
  | cons a labels ih => exact ⟨h s a hm.1, ih hm.2⟩

/-- A condition on labels alone holds along a run from any state. -/
theorem meets_of_forall_label (C : α → Prop) (s : σ) (labels : List α)
    (h : ∀ a ∈ labels, C a) : Meets step (fun _ a => C a) s labels := by
  induction labels generalizing s with
  | nil => trivial
  | cons a labels ih =>
    exact ⟨h a List.mem_cons_self, ih _ (fun b hb => h b (List.mem_cons_of_mem a hb))⟩

theorem Meets.and {C D : σ → α → Prop} {s : σ} {labels : List α}
    (hC : Meets step C s labels) (hD : Meets step D s labels) :
    Meets step (fun t a => C t a ∧ D t a) s labels := by
  induction labels generalizing s with
  | nil => trivial
  | cons a labels ih => exact ⟨⟨hC.1, hD.1⟩, ih hC.2 hD.2⟩

/-- The run rule: what one step preserves under a condition, every run whose
steps meet the condition preserves. -/
theorem run_invariant {I : σ → Prop} {C : σ → α → Prop}
    (hstep : ∀ s a, I s → C s a → I (step s a)) {s : σ} {labels : List α}
    (hs : I s) (hm : Meets step C s labels) : I (run step s labels) := by
  induction labels generalizing s with
  | nil => exact hs
  | cons a labels ih => exact ih (hstep s a hs hm.1) hm.2

end Transition
