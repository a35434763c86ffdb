import Schemata.History.Replay
import Schemata.Proofs.Change.WellFormed

/-! Replaying a history is applying all its changes to the empty state, migration after migration. -/
namespace Schemata.Replay

theorem step_eq_ok_iff {s t : State} {m : Migration} :
    step s m = .ok t ↔ Change.applyAll m.changes s = .ok t := by
  unfold step
  cases Change.applyAll m.changes s with
  | ok t => simp
  | error fault => simp

theorem foldlM_cons_eq_ok_iff {m : Migration} {rest : List Migration} {s t : State} :
    (m :: rest).foldlM step s = .ok t ↔
      ∃ u, Change.applyAll m.changes s = .ok u ∧ rest.foldlM step u = .ok t := by
  rw [List.foldlM_cons, bind_eq_ok_iff]
  simp only [step_eq_ok_iff]

theorem foldlM_append_eq_ok_iff {a b : List Migration} {s t : State} :
    (a ++ b).foldlM step s = .ok t ↔ ∃ u, a.foldlM step s = .ok u ∧ b.foldlM step u = .ok t := by
  rw [List.foldlM_append, bind_eq_ok_iff]

theorem run_concat {history : List Migration} {m : Migration} {t : State} :
    run (history ++ [m]) = .ok t ↔
      ∃ s, run history = .ok s ∧ Change.applyAll m.changes s = .ok t := by
  refine foldlM_append_eq_ok_iff.trans (exists_congr fun s => and_congr_right fun _ => ?_)
  rw [foldlM_cons_eq_ok_iff]
  simp [pure, Except.pure]

theorem foldlM_eq_ok_iff {history : List Migration} {s t : State} :
    history.foldlM step s = .ok t ↔ Change.applyAll (history.flatMap (·.changes)) s = .ok t := by
  induction history generalizing s with
  | nil => simp [Change.applyAll, Change.applyFrom, pure, Except.pure]
  | cons m rest ih =>
    rw [foldlM_cons_eq_ok_iff, List.flatMap_cons]
    refine Iff.trans ?_ Change.applyFrom_append_eq_ok_iff.symm
    refine exists_congr fun u => and_congr_right fun _ => ?_
    rw [ih]
    exact ⟨Change.applyFrom_position _, Change.applyFrom_position 0⟩

/-- A history replays to a state exactly when its changes in a row lead there. -/
theorem run_eq_ok_iff {history : List Migration} {s : State} :
    run history = .ok s ↔
      Change.applyAll (history.flatMap (·.changes)) Ascending.empty = .ok s :=
  foldlM_eq_ok_iff

theorem reachable_of_run {history : List Migration} {s : State} (h : run history = .ok s) :
    s.Reachable :=
  ⟨_, run_eq_ok_iff.1 h⟩

end Schemata.Replay
