import Mathlib.Data.List.Basic

/-!
# Purging the inputs of a machine

A machine answers each input and goes to its next state. Inputs that leave the state where it was can
be struck out of a run, and neither the other answers nor the last state tell the difference. Which
inputs these are may depend on the answers of the run itself.
-/

namespace Zenith.Purge

variable {σ ι ρ : Type}

/-- The answers to the inputs in turn, and the state they lead to. -/
def run (step : σ → ι → ρ × σ) : σ → List ι → List ρ × σ
  | s, [] => ([], s)
  | s, x :: xs => ((step s x).1 :: (run step (step s x).2 xs).1, (run step (step s x).2 xs).2)

/-- The elements that a mask does not strike out; it keeps those it does not reach. -/
def kept {α : Type} : List Bool → List α → List α
  | [], xs => xs
  | _ :: _, [] => []
  | true :: mask, x :: xs => x :: kept mask xs
  | false :: mask, _ :: xs => kept mask xs

variable {step : σ → ι → ρ × σ} {Silent : ι → ρ → Prop}

/-- A step whose input and answer are silent keeps the state, so a mask may strike it out. -/
theorem run_kept (hsilent : ∀ s x, Silent x (step s x).1 → (step s x).2 = s) (s : σ) (xs : List ι)
    (mask : List Bool) (hmask : ∀ (i : ℕ) (x : ι) (y : ρ), mask[i]? = some false → xs[i]? = some x →
      (run step s xs).1[i]? = some y → Silent x y) :
    run step s (kept mask xs) = (kept mask (run step s xs).1, (run step s xs).2) := by
  induction xs generalizing s mask with
  | nil => cases mask <;> rfl
  | cons x xs ih =>
    cases mask with
    | nil => rfl
    | cons keep mask =>
      have hrest : ∀ (i : ℕ) (x' : ι) (y : ρ), mask[i]? = some false → xs[i]? = some x' →
          (run step (step s x).2 xs).1[i]? = some y → Silent x' y :=
        fun i x' y hi hx hy ↦ hmask (i + 1) x' y hi hx hy
      cases keep with
      | true =>
        change ((step s x).1 :: (run step (step s x).2 (kept mask xs)).1,
          (run step (step s x).2 (kept mask xs)).2) = _
        rw [ih (step s x).2 mask hrest]
        rfl
      | false =>
        have hsame : (step s x).2 = s := hsilent s x (hmask 0 x (step s x).1 rfl rfl rfl)
        calc
          run step s (kept mask xs) = run step (step s x).2 (kept mask xs) := by rw [hsame]
          _ = (kept mask (run step (step s x).2 xs).1, (run step (step s x).2 xs).2) :=
            ih (step s x).2 mask hrest

end Zenith.Purge
