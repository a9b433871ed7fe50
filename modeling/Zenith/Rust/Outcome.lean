import Mathlib

/-!
# Outcomes of fallible Rust functions

A function that returns a `Result` may also panic. Loops that have no bound of their own carry fuel, and
running out of it is an outcome of its own.
-/

namespace Zenith.Rust

inductive Outcome (ε α : Type)
  | ok (value : α)
  | error (err : ε)
  | panic
  | outOfFuel
  deriving DecidableEq, Repr

namespace Outcome

variable {ε α β : Type}

/-- The operator `?`. -/
protected def bind (x : Outcome ε α) (f : α → Outcome ε β) : Outcome ε β :=
  match x with
  | ok value => f value
  | error err => error err
  | panic => panic
  | outOfFuel => outOfFuel

instance : Monad (Outcome ε) where
  pure := ok
  bind := Outcome.bind

/-- A value that is missing where the source panics. -/
def ofOption : Option α → Outcome ε α
  | some value => ok value
  | none => panic

/-- The operator `?` on the result of a call that never panics. -/
def ofExcept : Except ε α → Outcome ε α
  | .ok value => ok value
  | .error err => error err

/-- `ok_or`, and `map_err` where the error says nothing about its cause. -/
def okOr (x : Option α) (err : ε) : Outcome ε α :=
  match x with
  | some value => ok value
  | none => error err

/-- `unwrap_or_default` of a vector. -/
def unwrapOrDefault {δ : Type} : Outcome ε (List α) → Outcome δ (List α)
  | ok values => ok values
  | error _ => ok []
  | panic => panic
  | outOfFuel => outOfFuel

/-- The call came back with a `Result`. -/
def Returns : Outcome ε α → Prop
  | ok _ => True
  | error _ => True
  | panic => False
  | outOfFuel => False

@[simp] theorem returns_ok (value : α) : (ok value : Outcome ε α).Returns := trivial
@[simp] theorem returns_error (err : ε) : (error err : Outcome ε α).Returns := trivial
@[simp] theorem not_returns_panic : ¬(panic : Outcome ε α).Returns := id
@[simp] theorem not_returns_outOfFuel : ¬(outOfFuel : Outcome ε α).Returns := id

@[simp] theorem pure_eq (value : α) : (pure value : Outcome ε α) = ok value := rfl
@[simp] theorem ok_bind (value : α) (f : α → Outcome ε β) : ok value >>= f = f value := rfl
@[simp] theorem error_bind (err : ε) (f : α → Outcome ε β) :
    (error err : Outcome ε α) >>= f = error err := rfl
@[simp] theorem panic_bind (f : α → Outcome ε β) : (panic : Outcome ε α) >>= f = panic := rfl
@[simp] theorem outOfFuel_bind (f : α → Outcome ε β) :
    (outOfFuel : Outcome ε α) >>= f = outOfFuel := rfl

@[simp] theorem ofExcept_ok (value : α) : (ofExcept (.ok value) : Outcome ε α) = ok value := rfl
@[simp] theorem ofExcept_error (err : ε) : (ofExcept (.error err) : Outcome ε α) = error err := rfl
@[simp] theorem ofOption_some (value : α) : (ofOption (some value) : Outcome ε α) = ok value := rfl

theorem bind_eq_ok {x : Outcome ε α} {f : α → Outcome ε β} {b : β} :
    x >>= f = ok b ↔ ∃ a, x = ok a ∧ f a = ok b := by
  cases x <;> simp

theorem unwrapOrDefault_eq_ok {δ : Type} {x : Outcome ε (List α)} {values : List α}
    (h : (x.unwrapOrDefault : Outcome δ (List α)) = ok values) :
    x = ok values ∨ (∃ err, x = error err) ∧ values = [] := by
  cases x with
  | ok found =>
    cases h
    exact .inl rfl
  | error err =>
    cases h
    exact .inr ⟨⟨err, rfl⟩, rfl⟩
  | panic => cases h
  | outOfFuel => cases h

/-- A loop that collects results has one for each element. -/
theorem forall₂_of_mapM' {f : α → Outcome ε β} {l : List α} {values : List β}
    (h : l.mapM' f = ok values) : List.Forall₂ (fun x value ↦ f x = ok value) l values := by
  induction l generalizing values with
  | nil =>
    cases h
    exact .nil
  | cons x l ih =>
    obtain ⟨value, hvalue, h⟩ := bind_eq_ok.mp h
    obtain ⟨rest, hrest, h⟩ := bind_eq_ok.mp h
    cases h
    exact .cons hvalue (ih hrest)

theorem exists_mapM' {f : α → Outcome ε β} {l : List α} (h : ∀ x ∈ l, ∃ value, f x = ok value) :
    ∃ values, l.mapM' f = ok values := by
  induction l with
  | nil => exact ⟨[], rfl⟩
  | cons x l ih =>
    obtain ⟨value, hvalue⟩ := h x List.mem_cons_self
    obtain ⟨rest, hrest⟩ := ih fun y hy ↦ h y (List.mem_cons_of_mem x hy)
    refine ⟨value :: rest, ?_⟩
    rw [List.mapM'_cons, hvalue, ok_bind, hrest]
    rfl

theorem ofOption_eq_ok {x : Option α} {value : α} :
    (ofOption x : Outcome ε α) = ok value ↔ x = some value := by
  cases x <;> simp [ofOption]

theorem ofExcept_eq_ok {x : Except ε α} {value : α} :
    (ofExcept x : Outcome ε α) = ok value ↔ x = .ok value := by
  cases x <;> simp

theorem returns_bind_iff {x : Outcome ε α} {f : α → Outcome ε β} :
    (x >>= f).Returns ↔ x.Returns ∧ ∀ a, x = ok a → (f a).Returns := by
  cases x <;> simp

theorem returns_ofOption_iff {x : Option α} :
    (ofOption x : Outcome ε α).Returns ↔ x.isSome = true := by
  cases x <;> simp [ofOption]

/-- The next call is reached exactly if the one before it has a value. -/
theorem returns_bind_iff_of {x : Outcome ε α} {f : α → Outcome ε β} {safe rest : Prop}
    (hx : x.Returns ↔ safe) (hf : ∀ a, x = ok a → ((f a).Returns ↔ rest)) :
    (x >>= f).Returns ↔ safe ∧ ((∃ a, x = ok a) → rest) := by
  rw [returns_bind_iff, hx]
  constructor
  · intro ⟨hsafe, hall⟩
    exact ⟨hsafe, fun ⟨a, ha⟩ ↦ (hf a ha).mp (hall a ha)⟩
  · intro ⟨hsafe, hrest⟩
    exact ⟨hsafe, fun a ha ↦ (hf a ha).mpr (hrest ⟨a, ha⟩)⟩

@[simp] theorem returns_okOr (x : Option α) (err : ε) : (okOr x err).Returns := by
  cases x <;> simp [okOr]

theorem okOr_eq_ok {x : Option α} {err : ε} {value : α} :
    okOr x err = ok value ↔ x = some value := by
  cases x <;> simp [okOr]

end Outcome

end Zenith.Rust
