import Zenith.Go.Runtime

/-!
# Reasoning about actions

Properties that hold of a whole action if they hold of the actions it is made of: it keeps an
invariant of the receiver, it comes back within its fuel because a potential of the receiver goes
down, it does the same as another action but for a counter that it carries, and its ticks are paid for
by the potential. An action that fails may have ticked once more than its successful part has paid
for.
-/

namespace Zenith.Go.Action

variable {σ ε α β γ : Type}

theorem bind_assoc (x : Action σ ε α) (f : α → Action σ ε β) (g : β → Action σ ε γ) :
    x >>= f >>= g = x >>= fun a ↦ f a >>= g := by
  funext s
  change Action.bind (Action.bind x f) g s = Action.bind x (fun a ↦ Action.bind (f a) g) s
  unfold Action.bind
  rcases x s with ⟨_ | _ | _ | _, s'⟩ <;> rfl

/-! ## Invariants -/

/-- The action keeps `P`, however it ends. -/
def Keeps (P : σ → Prop) (x : Action σ ε α) : Prop := ∀ s, P s → P (x s).2

namespace Keeps

variable {P : σ → Prop} {x y : Action σ ε α}

theorem pure (a : α) : Keeps P (Pure.pure a : Action σ ε α) := fun _ h ↦ h

theorem throw (err : ε) : Keeps P (Action.throw err : Action σ ε α) := fun _ h ↦ h

theorem crash (reason : RuntimePanic) : Keeps P (Action.crash reason : Action σ ε α) := fun _ h ↦ h

theorem exhausted : Keeps P (Action.exhausted : Action σ ε α) := fun _ h ↦ h

theorem bind (hx : Keeps P x) {f : α → Action σ ε β} (hf : ∀ a, Keeps P (f a)) :
    Keeps P (x >>= f) := by
  intro s hs
  have hfirst := hx s hs
  change P (Action.bind x f s).2
  unfold Action.bind
  rcases hstep : x s with ⟨a | _ | _ | _, s'⟩
  · rw [hstep] at hfirst
    exact hf a s' hfirst
  all_goals
    rw [hstep] at hfirst
    exact hfirst

theorem ite {p : Prop} [Decidable p] (hx : Keeps P x) (hy : Keeps P y) :
    Keeps P (if p then x else y) := by
  split_ifs
  · exact hx
  · exact hy

end Keeps

/-! ## Fuel -/

/-- An action that returns has lowered the potential. -/
def Lowers (φ : σ → ℕ) (x : Action σ ε α) : Prop := ∀ ⦃s s' a⦄, x s = (.ok a, s') → φ s' < φ s

/-- An action that comes back if the potential is below `bound`, and does not raise it. -/
structure Halts (φ : σ → ℕ) (bound : ℕ) (x : Action σ ε α) : Prop where
  comesBack : ∀ ⦃s s'⦄, φ s < bound → x s ≠ (.outOfFuel, s')
  le : ∀ ⦃s s' a⦄, x s = (.ok a, s') → φ s' ≤ φ s

namespace Halts

variable {φ : σ → ℕ} {bound : ℕ} {x y : Action σ ε α}

theorem pure (a : α) : Halts φ bound (Pure.pure a : Action σ ε α) where
  comesBack s s' _ h := by simp at h
  le s s' b h := by
    simp only [pure_apply, Prod.mk.injEq] at h
    rw [h.2]

theorem throw (err : ε) : Halts φ bound (Action.throw err : Action σ ε α) where
  comesBack s s' _ h := by simp at h
  le s s' a h := by simp at h

theorem crash (reason : RuntimePanic) : Halts φ bound (Action.crash reason : Action σ ε α) where
  comesBack s s' _ h := by simp at h
  le s s' a h := by simp at h

/-- No potential is below zero. -/
theorem exhausted : Halts φ 0 (Action.exhausted : Action σ ε α) where
  comesBack _ _ hlt := absurd hlt (Nat.not_lt_zero _)
  le s s' a h := by simp at h

theorem mono (h : Halts φ bound x) {bound' : ℕ} (hle : bound' ≤ bound) : Halts φ bound' x where
  comesBack _ _ hlt := h.comesBack (hlt.trans_le hle)
  le := h.le

theorem bind (hx : Halts φ bound x) {f : α → Action σ ε β} (hf : ∀ a, Halts φ bound (f a)) :
    Halts φ bound (x >>= f) where
  comesBack s s'' hlt h := by
    rcases bind_eq_outOfFuel.mp h with hfirst | ⟨a, s', hfirst, hrest⟩
    · exact hx.comesBack hlt hfirst
    · exact (hf a).comesBack ((hx.le hfirst).trans_lt hlt) hrest
  le s s'' b h := by
    obtain ⟨a, s', hfirst, hrest⟩ := bind_eq_ok.mp h
    exact ((hf a).le hrest).trans (hx.le hfirst)

/-- After an action that lowers the potential one unit less of fuel is enough. -/
theorem bind_of_lowers (hx : Halts φ (bound + 1) x) (hlowers : Lowers φ x)
    {f : α → Action σ ε β} (hf : ∀ a, Halts φ bound (f a)) : Halts φ (bound + 1) (x >>= f) where
  comesBack s s'' hlt h := by
    rcases bind_eq_outOfFuel.mp h with hfirst | ⟨a, s', hfirst, hrest⟩
    · exact hx.comesBack hlt hfirst
    · exact (hf a).comesBack ((hlowers hfirst).trans_le (Nat.le_of_lt_succ hlt)) hrest
  le s s'' b h := by
    obtain ⟨a, s', hfirst, hrest⟩ := bind_eq_ok.mp h
    exact ((hf a).le hrest).trans (hx.le hfirst)

theorem ite {p : Prop} [Decidable p] (hx : Halts φ bound x) (hy : Halts φ bound y) :
    Halts φ bound (if p then x else y) := by
  split_ifs
  · exact hx
  · exact hy

end Halts

theorem Lowers.exhausted {φ : σ → ℕ} : Lowers φ (Action.exhausted : Action σ ε α) := by
  intro s s' a h
  simp at h

theorem Lowers.bind {φ : σ → ℕ} {bound : ℕ} {x : Action σ ε α} (hx : Lowers φ x)
    {f : α → Action σ ε β} (hf : ∀ a, Halts φ bound (f a)) : Lowers φ (x >>= f) := by
  intro s s'' b h
  obtain ⟨a, s', hfirst, hrest⟩ := bind_eq_ok.mp h
  exact ((hf a).le hrest).trans_lt (hx hfirst)

theorem Halts.bind_and_lowers {φ : σ → ℕ} {bound : ℕ} {x : Action σ ε α} (hx : Halts φ (bound + 1) x)
    (hlowers : Lowers φ x) {f : α → Action σ ε β} (hf : ∀ a, Halts φ bound (f a)) :
    Halts φ (bound + 1) (x >>= f) ∧ Lowers φ (x >>= f) :=
  ⟨hx.bind_of_lowers hlowers hf, hlowers.bind hf⟩

/-! ## Counters -/

/-- An action on a receiver next to a counter, which it leaves alone. -/
def lift (x : Action σ ε α) : Action (σ × ℕ) ε α := fun s ↦ ((x s.1).1, (x s.1).2, s.2)

def tick : Action (σ × ℕ) ε Unit := fun s ↦ (.ok (), s.1, s.2 + 1)

/-- But for the counter, `x` does what `y` does. -/
def Erases (x : Action (σ × ℕ) ε α) (y : Action σ ε α) : Prop :=
  ∀ s, ((x s).1, (x s).2.1) = y s.1

namespace Erases

theorem pure (a : α) : Erases (Pure.pure a : Action (σ × ℕ) ε α) (Pure.pure a) := fun _ ↦ rfl

theorem throw (err : ε) : Erases (Action.throw err : Action (σ × ℕ) ε α) (Action.throw err) :=
  fun _ ↦ rfl

theorem exhausted : Erases (Action.exhausted : Action (σ × ℕ) ε α) Action.exhausted := fun _ ↦ rfl

theorem lift (x : Action σ ε α) : Erases (Action.lift x) x := fun _ ↦ rfl

variable {x x' : Action (σ × ℕ) ε α} {y y' : Action σ ε α}

theorem bind (hx : Erases x y) {f : α → Action (σ × ℕ) ε β} {g : α → Action σ ε β}
    (hf : ∀ a, Erases (f a) (g a)) : Erases (x >>= f) (y >>= g) := by
  intro s
  change ((Action.bind x f s).1, (Action.bind x f s).2.1) = Action.bind y g s.1
  unfold Action.bind
  rw [← hx s]
  rcases x s with ⟨a | _ | _ | _, s'⟩
  · exact hf a s'
  · rfl
  · rfl
  · rfl

theorem tick_bind (hx : Erases x y) : Erases (tick >>= fun _ ↦ x) y := fun s ↦ hx (s.1, s.2 + 1)

theorem ite {p : Prop} [Decidable p] (hx : Erases x y) (hx' : Erases x' y') :
    Erases (if p then x else x') (if p then y else y') := by
  split_ifs
  · exact hx
  · exact hx'

end Erases

/-! ## Potentials -/

/-- Each tick lowers the potential by one at least, but for the last one of an action that fails. -/
structure Paid (φ : σ → ℕ) (x : Action (σ × ℕ) ε α) : Prop where
  ok : ∀ ⦃s s' a⦄, x s = (.ok a, s') → s'.2 + φ s'.1 ≤ s.2 + φ s.1
  ends : ∀ s, (x s).2.2 ≤ s.2 + φ s.1 + 1

namespace Paid

variable {φ : σ → ℕ} {x y : Action (σ × ℕ) ε α}

/-- An action that neither ticks nor changes the receiver. -/
theorem of_unchanged (h : ∀ s, (x s).2 = s) : Paid φ x where
  ok s s' a hx := by
    have hs : s' = s := by
      rw [← h s, hx]
    rw [hs]
  ends s := by
    rw [h]
    omega

theorem pure (a : α) : Paid φ (Pure.pure a : Action (σ × ℕ) ε α) := of_unchanged fun _ ↦ rfl

theorem throw (err : ε) : Paid φ (Action.throw err : Action (σ × ℕ) ε α) := of_unchanged fun _ ↦ rfl

theorem exhausted : Paid φ (Action.exhausted : Action (σ × ℕ) ε α) := of_unchanged fun _ ↦ rfl

theorem bind (hx : Paid φ x) {f : α → Action (σ × ℕ) ε β} (hf : ∀ a, Paid φ (f a)) :
    Paid φ (x >>= f) where
  ok s s'' b h := by
    obtain ⟨a, s', hfirst, hrest⟩ := bind_eq_ok.mp h
    exact ((hf a).ok hrest).trans (hx.ok hfirst)
  ends s := by
    change (Action.bind x f s).2.2 ≤ _
    unfold Action.bind
    have hends := hx.ends s
    rcases hfirst : x s with ⟨a | _ | _ | _, s'⟩
    · have hpaid := hx.ok hfirst
      have hrest := (hf a).ends s'
      dsimp only
      omega
    all_goals
      rw [hfirst] at hends
      exact hends

theorem ite {p : Prop} [Decidable p] (hx : Paid φ x) (hy : Paid φ y) :
    Paid φ (if p then x else y) := by
  split_ifs
  · exact hx
  · exact hy

/-- An action without ticks that does not raise the potential. -/
theorem lift {bound : ℕ} {x : Action σ ε α} (h : Halts φ bound x) :
    Paid φ (Action.lift x) where
  ok s s' a hx := by
    obtain ⟨hresult, hstate⟩ := Prod.mk.inj hx
    have hle := h.le (Prod.ext hresult rfl : x s.1 = (.ok a, (x s.1).2))
    rw [← hstate]
    dsimp only
    omega
  ends s := by
    change s.2 ≤ _
    omega

/-- A tick in front of an action that lowers the potential. -/
theorem tick_lift {x : Action σ ε α} (h : Lowers φ x) :
    Paid φ (tick >>= fun _ ↦ Action.lift x) where
  ok s s' a hx := by
    obtain ⟨hresult, hstate⟩ := Prod.mk.inj hx
    have hlt := h (Prod.ext hresult rfl : x s.1 = (.ok a, (x s.1).2))
    rw [← hstate]
    dsimp only
    omega
  ends s := by
    change s.2 + 1 ≤ _
    omega

theorem tick_lift_bind {x : Action σ ε α} (h : Lowers φ x) {f : α → Action (σ × ℕ) ε β}
    (hf : ∀ a, Paid φ (f a)) : Paid φ (tick >>= fun _ ↦ Action.lift x >>= f) := by
  rw [← bind_assoc]
  exact (tick_lift h).bind hf

end Paid

/-! ## Counted copies -/

/-- `x` is a copy of `y` with a counter whose ticks are paid for. -/
structure Counts (φ : σ → ℕ) (x : Action (σ × ℕ) ε α) (y : Action σ ε α) : Prop where
  erases : Erases x y
  paid : Paid φ x

namespace Counts

variable {φ : σ → ℕ} {x x' : Action (σ × ℕ) ε α} {y y' : Action σ ε α}

theorem pure (a : α) : Counts φ (Pure.pure a : Action (σ × ℕ) ε α) (Pure.pure a) :=
  ⟨.pure a, .pure a⟩

theorem throw (err : ε) :
    Counts φ (Action.throw err : Action (σ × ℕ) ε α) (Action.throw err) := ⟨.throw err, .throw err⟩

theorem exhausted : Counts φ (Action.exhausted : Action (σ × ℕ) ε α) Action.exhausted :=
  ⟨.exhausted, .exhausted⟩

theorem lift {bound : ℕ} (h : Halts φ bound y) : Counts φ (Action.lift y) y := ⟨.lift y, .lift h⟩

theorem bind (hx : Counts φ x y) {f : α → Action (σ × ℕ) ε β} {g : α → Action σ ε β}
    (hf : ∀ a, Counts φ (f a) (g a)) : Counts φ (x >>= f) (y >>= g) :=
  ⟨hx.erases.bind fun a ↦ (hf a).erases, hx.paid.bind fun a ↦ (hf a).paid⟩

theorem ite {p : Prop} [Decidable p] (hx : Counts φ x y) (hx' : Counts φ x' y') :
    Counts φ (if p then x else x') (if p then y else y') :=
  ⟨.ite hx.erases hx'.erases, .ite hx.paid hx'.paid⟩

/-- A counted call, which starts by lowering the potential. -/
theorem tick_bind (hy : Lowers φ y) {f : α → Action (σ × ℕ) ε β} {g : α → Action σ ε β}
    (hf : ∀ a, Counts φ (f a) (g a)) :
    Counts φ (tick >>= fun _ ↦ Action.lift y >>= f) (y >>= g) where
  erases := .tick_bind (.bind (.lift y) fun a ↦ (hf a).erases)
  paid := .tick_lift_bind hy fun a ↦ (hf a).paid

end Counts

end Zenith.Go.Action
