import Mathlib.Data.List.Basic
import Mathlib.Data.List.Sublists

/-! Passes over a list that changes on the way: items come in at its end, and items go out
wherever they are. -/
namespace OrderedPass

variable {α : Type*} [DecidableEq α]

inductive Op (α : Type*)
  | push (x : α)
  | drop (x : α)
  | visit

/-- The items that were visited and those that still wait. -/
structure Progress (α : Type*) where
  log : List α
  waiting : List α

def Op.step : Op α → Progress α → Progress α
  | push x, s => { s with waiting := s.waiting ++ [x] }
  | drop x, s => { s with waiting := s.waiting.filter (fun y => y ≠ x) }
  | visit, s =>
    match s.waiting with
    | [] => s
    | x :: rest => ⟨s.log ++ [x], rest⟩

def run (ops : List (Op α)) (s : Progress α) : Progress α := ops.foldl (fun s op => op.step s) s

def pushed : List (Op α) → List α
  | [] => []
  | Op.push x :: ops => x :: pushed ops
  | _ :: ops => pushed ops

def dropped : List (Op α) → List α
  | [] => []
  | Op.drop x :: ops => x :: dropped ops
  | _ :: ops => dropped ops

theorem visit_eq (s : Progress α) :
    (Op.visit.step s).log ++ (Op.visit.step s).waiting = s.log ++ s.waiting := by
  rw [Op.step]
  cases hwaiting : s.waiting with
  | nil => rw [hwaiting]
  | cons x rest => exact List.append_assoc s.log [x] rest

/-- What was visited and what waits comes from what was there and what came in, in that
order. -/
theorem run_sublist (ops : List (Op α)) (s : Progress α) :
    ((run ops s).log ++ (run ops s).waiting).Sublist (s.log ++ s.waiting ++ pushed ops) := by
  induction ops generalizing s with
  | nil => exact (List.append_nil _).symm ▸ List.Sublist.refl _
  | cons op ops ih =>
    refine (ih (op.step s)).trans ?_
    cases op with
    | push x =>
      have hassoc : s.log ++ (s.waiting ++ [x]) ++ pushed ops =
          s.log ++ s.waiting ++ x :: pushed ops := by simp
      exact hassoc ▸ List.Sublist.refl _
    | drop x =>
      have hless : (s.waiting.filter (fun y => y ≠ x)).Sublist s.waiting := List.filter_sublist
      exact (hless.append_left s.log).append_right (pushed ops)
    | visit => exact (visit_eq s).symm ▸ List.Sublist.refl _

/-- Only what was dropped is left out. -/
theorem sublist_run (ops : List (Op α)) (s : Progress α) :
    ((s.log ++ s.waiting ++ pushed ops).filter (fun x => x ∉ dropped ops)).Sublist
      ((run ops s).log ++ (run ops s).waiting) := by
  induction ops generalizing s with
  | nil =>
    have hall : (s.log ++ s.waiting ++ pushed []).filter (fun x => x ∉ dropped ([] : List (Op α))) =
        s.log ++ s.waiting := by simp [dropped, pushed]
    rw [hall]
    exact List.Sublist.refl _
  | cons op ops ih =>
    refine List.Sublist.trans ?_ (ih (op.step s))
    cases op with
    | push x =>
      have hassoc : s.log ++ (s.waiting ++ [x]) ++ pushed ops =
          s.log ++ s.waiting ++ x :: pushed ops := by simp
      exact hassoc ▸ List.Sublist.refl _
    | drop x =>
      -- an item that is not dropped is not the one that goes out here
      have hsplit (l : List α) : l.filter (fun y => y ∉ dropped (Op.drop x :: ops)) =
          (l.filter (fun y => y ≠ x)).filter (fun y => y ∉ dropped ops) := by
        rw [List.filter_filter]
        apply List.filter_congr
        intro y _
        simp [dropped, Bool.and_comm]
      rw [hsplit]
      apply List.Sublist.filter
      simp only [List.filter_append]
      exact (List.filter_sublist.append_right _).append List.filter_sublist
    | visit =>
      rw [visit_eq]
      exact List.Sublist.refl _

/-- A pass that comes to its end has visited nothing twice and left out only what was
dropped. -/
theorem run_complete {ops : List (Op α)} {items : List α}
    (h : (run ops ⟨[], items⟩).waiting = []) :
    (run ops ⟨[], items⟩).log.Sublist (items ++ pushed ops) ∧
      ((items ++ pushed ops).filter (fun x => x ∉ dropped ops)).Sublist
        (run ops ⟨[], items⟩).log := by
  have hsub := run_sublist ops ⟨[], items⟩
  have hall := sublist_run ops ⟨[], items⟩
  rw [h, List.append_nil] at hsub hall
  exact ⟨hsub, hall⟩

end OrderedPass
