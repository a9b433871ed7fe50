import Mathlib.Data.Nat.Find
import Mathlib.Logic.Function.Iterate

/-!
# Loops that are resumed

A loop makes a state advance as long as a condition holds. From every state that it passes through it
goes on in the same way, so that a run may be resumed where an earlier one has stopped, as long as the
condition holds all the way to that place.
-/

namespace Zenith.Loop

variable {σ : Type*} {more : σ → Prop} [DecidablePred more] {advance : σ → σ} {s s' : σ} {n fuel : ℕ}

/-- `while more { advance }`, if it ends within `fuel` rounds. -/
def run (more : σ → Prop) [DecidablePred more] (advance : σ → σ) : ℕ → σ → Option σ
  | 0, s => if more s then none else some s
  | fuel + 1, s => if more s then run more advance fuel (advance s) else some s

theorem run_of_not (h : ¬more s) (fuel : ℕ) : run more advance fuel s = some s := by
  cases fuel with
  | zero => exact if_neg h
  | succ fuel => exact if_neg h

theorem run_succ_of_more (h : more s) (fuel : ℕ) :
    run more advance (fuel + 1) s = run more advance fuel (advance s) := if_pos h

/-- A run goes on from each state on its way. -/
theorem run_add (h : ∀ k < n, more (advance^[k] s)) (fuel : ℕ) :
    run more advance (fuel + n) s = run more advance fuel (advance^[n] s) := by
  induction n generalizing s with
  | zero => rfl
  | succ n ih =>
    have hrest : ∀ k < n, more (advance^[k] (advance s)) := by
      intro k hk
      rw [← Function.iterate_succ_apply]
      exact h (k + 1) (Nat.succ_lt_succ hk)
    calc
      run more advance (fuel + n + 1) s = run more advance (fuel + n) (advance s) :=
        run_succ_of_more (h 0 n.succ_pos) _
      _ = run more advance fuel (advance^[n] (advance s)) := ih hrest
      _ = run more advance fuel (advance^[n + 1] s) := by rw [Function.iterate_succ_apply]

/-- The loop ends after the first rounds that end it, with any fuel for these. -/
theorem run_eq (h : ∀ k < n, more (advance^[k] s)) (hend : ¬more (advance^[n] s)) (hfuel : n ≤ fuel) :
    run more advance fuel s = some (advance^[n] s) := by
  rw [← Nat.sub_add_cancel hfuel, run_add h]
  exact run_of_not hend _

/-- A loop that is bound to end ends where it first may. -/
theorem exists_run_eq (hend : ¬more (advance^[n] s)) (hfuel : n ≤ fuel) :
    ∃ k ≤ n, run more advance fuel s = some (advance^[k] s) ∧ ¬more (advance^[k] s) := by
  have hexists : ∃ k, ¬more (advance^[k] s) := ⟨n, hend⟩
  have hle : Nat.find hexists ≤ n := Nat.find_min' hexists hend
  refine ⟨Nat.find hexists, hle, ?_, Nat.find_spec hexists⟩
  apply run_eq _ (Nat.find_spec hexists) (Nat.le_trans hle hfuel)
  intro k hk
  exact not_not.mp (Nat.find_min hexists hk)

end Zenith.Loop
