import Mathlib

/-!
# Maximal runs

The maximal runs of a predicate over the samples `0, 1, …`, as a pass over the first `n` samples finds
them: a run is closed by the first sample after it, and at most one run is open.
-/

namespace Zenith.Data.Runs

variable (p : ℕ → Prop)

/-- A run that starts at `i` and has not ended before `n`. -/
structure IsOpen (n i : ℕ) : Prop where
  lt : i < n
  all : ∀ k, i ≤ k → k < n → p k
  before : ∀ k, k + 1 = i → ¬p k

/-- The samples `[i, j)` satisfy the predicate and their neighbours do not. -/
structure IsRun (i j : ℕ) : Prop extends IsOpen p j i where
  after : ¬p j

variable [DecidablePred p]

/-- The start of the run that is open after `n` samples. -/
def openRun : ℕ → Option ℕ
  | 0 => none
  | n + 1 => if p n then some ((openRun n).getD n) else none

/-- The runs that ended within `n` samples. -/
def closedRuns : ℕ → List (ℕ × ℕ)
  | 0 => []
  | n + 1 => if p n then closedRuns n else closedRuns n ++ (openRun p n).toList.map (·, n)

variable {p}

theorem openRun_succ_of {n : ℕ} (h : p n) : openRun p (n + 1) = some ((openRun p n).getD n) :=
  if_pos h

theorem openRun_succ_of_not {n : ℕ} (h : ¬p n) : openRun p (n + 1) = none := if_neg h

theorem closedRuns_succ_of {n : ℕ} (h : p n) : closedRuns p (n + 1) = closedRuns p n := if_pos h

theorem closedRuns_succ_of_not {n : ℕ} (h : ¬p n) :
    closedRuns p (n + 1) = closedRuns p n ++ (openRun p n).toList.map (·, n) := if_neg h

@[simp] theorem isSome_openRun_succ {n : ℕ} : (openRun p (n + 1)).isSome = true ↔ p n := by
  by_cases h : p n
  · simp [openRun_succ_of h, h]
  · simp [openRun_succ_of_not h, h]

theorem isOpen_of_openRun {n i : ℕ} (h : openRun p n = some i) : IsOpen p n i := by
  induction n generalizing i with
  | zero => cases h
  | succ n ih =>
    have hp : p n := isSome_openRun_succ.mp (Option.isSome_of_mem h)
    rw [openRun_succ_of hp, Option.some.injEq] at h
    cases hprev : openRun p n with
    | none =>
      -- The run starts here: the sample before it is the reason that none was open.
      rw [hprev, Option.getD_none] at h
      subst h
      refine ⟨Nat.lt_succ_self n, fun k hle hlt ↦ ?_, fun k hk hpk ↦ ?_⟩
      · rwa [show k = n by omega]
      · subst hk
        rw [openRun_succ_of hpk] at hprev
        cases hprev
    | some i' =>
      rw [hprev, Option.getD_some] at h
      subst h
      have hopen := ih hprev
      refine ⟨hopen.lt.trans (Nat.lt_succ_self n), fun k hle hlt ↦ ?_, hopen.before⟩
      rcases Nat.lt_succ_iff_lt_or_eq.mp hlt with hlt | rfl
      · exact hopen.all k hle hlt
      · exact hp

theorem mem_closedRuns {n i j : ℕ} (h : (i, j) ∈ closedRuns p n) : IsRun p i j ∧ j < n := by
  induction n with
  | zero => cases h
  | succ n ih =>
    by_cases hp : p n
    · rw [closedRuns_succ_of hp] at h
      exact ⟨(ih h).1, (ih h).2.trans (Nat.lt_succ_self n)⟩
    · rw [closedRuns_succ_of_not hp, List.mem_append] at h
      rcases h with h | h
      · exact ⟨(ih h).1, (ih h).2.trans (Nat.lt_succ_self n)⟩
      · obtain ⟨i', hi', hpair⟩ := List.mem_map.mp h
        cases hpair
        exact ⟨⟨isOpen_of_openRun (Option.mem_toList.mp hi'), hp⟩, Nat.lt_succ_self _⟩

/-- A sample lies between two runs. -/
theorem pairwise_closedRuns (n : ℕ) : (closedRuns p n).Pairwise fun r s ↦ r.2 < s.1 := by
  induction n with
  | zero => exact List.Pairwise.nil
  | succ n ih =>
    by_cases hp : p n
    · rwa [closedRuns_succ_of hp]
    · rw [closedRuns_succ_of_not hp, List.pairwise_append]
      refine ⟨ih, ?_, ?_⟩
      · cases openRun p n <;> simp
      · rintro ⟨i, j⟩ hr s hs
        obtain ⟨i', hi', rfl⟩ := List.mem_map.mp hs
        have hopen := isOpen_of_openRun (Option.mem_toList.mp hi')
        have hrun := mem_closedRuns hr
        -- The end of the earlier run is a sample that the open one does not contain.
        by_contra hle
        exact hrun.1.after (hopen.all j (not_lt.mp hle) hrun.2)

/-- A sample of a run is in a closed one, or the run is still open. -/
theorem exists_mem_closedRuns {n k : ℕ} (hk : k < n) (hp : p k) :
    (∃ r ∈ closedRuns p n, r.1 ≤ k ∧ k < r.2) ∨ ∃ i ≤ k, openRun p n = some i := by
  induction n with
  | zero => exact absurd hk (Nat.not_lt_zero k)
  | succ n ih =>
    by_cases hn : p n
    · rw [closedRuns_succ_of hn, openRun_succ_of hn]
      rcases Nat.lt_succ_iff_lt_or_eq.mp hk with hk | rfl
      · rcases ih hk with hclosed | ⟨i, hle, hi⟩
        · exact .inl hclosed
        · exact .inr ⟨i, hle, by rw [hi]; rfl⟩
      · refine .inr ⟨_, ?_, rfl⟩
        cases hopen : openRun p k with
        | none => exact le_rfl
        | some i => exact (isOpen_of_openRun hopen).lt.le
    · have hkn : k < n := by
        refine lt_of_le_of_ne (Nat.lt_succ_iff.mp hk) ?_
        rintro rfl
        exact hn hp
      rw [closedRuns_succ_of_not hn]
      rcases ih hkn with ⟨r, hr, hmem⟩ | ⟨i, hle, hi⟩
      · exact .inl ⟨r, List.mem_append_left _ hr, hmem⟩
      · refine .inl ⟨(i, n), List.mem_append_right _ ?_, hle, hkn⟩
        rw [hi]
        exact List.mem_singleton_self _

end Zenith.Data.Runs
