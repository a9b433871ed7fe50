import Mathlib

/-!
# The part of the Go runtime the modelled code depends on

Strings are byte strings: Go neither requires nor checks UTF-8. A map is the partial function it
denotes. Integer arithmetic is exact on `ℤ` and wrapped explicitly where the source uses `int`,
`int64` or `time.Duration`. A computation returns a value, an error or a run-time panic; loops that
have no bound of their own carry fuel, and running out of it is an outcome of its own, so that a
theorem about termination has something to exclude.
-/

namespace Zenith.Go

/-- A Go `string`, that is, an arbitrary sequence of bytes. -/
abbrev GoString := List UInt8

/-- The bytes of a string literal of the source. -/
def lit (text : String) : GoString := text.toUTF8.data.toList

/-- Decimal digits, as `%d` and `strconv` write an unsigned integer. -/
def decimal (n : ℕ) : GoString := lit n.repr

/-! ## Machine integers -/

/-- Wrap-around of an exact integer to `int64` (and to `int`, which is 64 bits wide). -/
def wrapInt64 (n : ℤ) : ℤ := Int.bmod n (2 ^ 64)

theorem wrapInt64_of_fits {n : ℤ} (hlow : -(2 ^ 63) ≤ n) (hhigh : n < 2 ^ 63) :
    wrapInt64 n = n := by
  unfold wrapInt64
  rw [Int.bmod_def]
  omega

theorem wrapInt64_lt (n : ℤ) : wrapInt64 n < 2 ^ 63 := by
  unfold wrapInt64
  rw [Int.bmod_def]
  omega

theorem wrapInt64_le {n : ℤ} (hn : 0 ≤ n) : wrapInt64 n ≤ n := by
  unfold wrapInt64
  rw [Int.bmod_def]
  omega

theorem wrapInt64_eq_self_iff {n : ℤ} (hn : 0 ≤ n) : wrapInt64 n = n ↔ n < 2 ^ 63 := by
  constructor
  · intro h
    rw [← h]
    exact wrapInt64_lt n
  · intro h
    exact wrapInt64_of_fits (by omega) h

/-- A factor may be wrapped before the product is. -/
theorem wrapInt64_wrapInt64_mul (m n : ℤ) : wrapInt64 (wrapInt64 m * n) = wrapInt64 (m * n) := by
  unfold wrapInt64
  rw [Int.bmod_mul_bmod]

/-- One wrap past the top of the range, the only kind a sum of two `int` values shows. -/
theorem wrapInt64_of_overflow {n : ℤ} (hlow : 2 ^ 63 ≤ n) (hhigh : n < 3 * 2 ^ 63) :
    wrapInt64 n = n - 2 ^ 64 := by
  unfold wrapInt64
  rw [Int.bmod_def]
  omega

/-- Conversion of a finite `float64` to `int64`: toward zero, and the least integer out of range. -/
def truncInt64 (x : ℚ) : ℤ :=
  let n := x.num.tdiv x.den
  if -(2 ^ 63) ≤ n ∧ n < 2 ^ 63 then n else -(2 ^ 63)

/-- The quotient toward zero: the floor of what is not negative, the ceiling of the rest. -/
theorem tdiv_num_den (x : ℚ) : x.num.tdiv x.den = if 0 ≤ x then ⌊x⌋ else ⌈x⌉ := by
  split_ifs with hx
  · rw [Int.tdiv_eq_ediv_of_nonneg (Rat.num_nonneg.mpr hx), Rat.floor_def']
  · have hneg : 0 ≤ (-x).num := Rat.num_nonneg.mpr (by linarith)
    have hnum : x.num = -(-x).num := by rw [Rat.num_neg_eq_neg_num, neg_neg]
    have hden : x.den = (-x).den := (Rat.den_neg_eq_den x).symm
    rw [hnum, hden, Int.neg_tdiv, Int.tdiv_eq_ediv_of_nonneg hneg, ← Rat.floor_def', Int.floor_neg,
      neg_neg]

theorem truncInt64_of_lt {x : ℚ} (hlow : -(2 ^ 63) < x) (hhigh : x < 2 ^ 63) :
    truncInt64 x = if 0 ≤ x then ⌊x⌋ else ⌈x⌉ := by
  unfold truncInt64
  dsimp only
  rw [tdiv_num_den]
  apply if_pos
  split_ifs with hx
  · have hnonneg : 0 ≤ ⌊x⌋ := Int.floor_nonneg.mpr hx
    have hbelow : ⌊x⌋ < 2 ^ 63 := by
      rw [Int.floor_lt]
      exact_mod_cast hhigh
    omega
  · have hceil : ⌈x⌉ ≤ 0 := Int.ceil_le.mpr (by push_cast; linarith)
    have habove : -(2 ^ 63) < ⌈x⌉ := by
      rw [Int.lt_ceil]
      exact_mod_cast hlow
    omega

theorem truncInt64_eq_floor {x : ℚ} (hx : 0 ≤ x) (hlt : x < 2 ^ 63) : truncInt64 x = ⌊x⌋ := by
  rw [truncInt64_of_lt (by linarith) hlt, if_pos hx]

/-- Past the top of the range comes the least integer, not the greatest. -/
theorem truncInt64_of_two_pow_le {x : ℚ} (hx : 2 ^ 63 ≤ x) : truncInt64 x = -(2 ^ 63) := by
  have hfloor : 2 ^ 63 ≤ ⌊x⌋ := Int.le_floor.mpr (by exact_mod_cast hx)
  have hnonneg : 0 ≤ x := le_trans (by norm_num) hx
  unfold truncInt64
  dsimp only
  rw [tdiv_num_den, if_pos hnonneg, if_neg (by omega)]

theorem truncInt64_of_le_neg {x : ℚ} (hx : x ≤ -(2 ^ 63)) : truncInt64 x = -(2 ^ 63) := by
  have hceil : ⌈x⌉ ≤ -(2 ^ 63) := Int.ceil_le.mpr (by exact_mod_cast hx)
  have hneg : ¬0 ≤ x := by linarith
  unfold truncInt64
  dsimp only
  rw [tdiv_num_den, if_neg hneg]
  split_ifs with hfits
  · omega
  · rfl

theorem neg_two_pow_le_truncInt64 (x : ℚ) : -(2 ^ 63) ≤ truncInt64 x := by
  unfold truncInt64
  dsimp only
  split_ifs with hfits
  · exact hfits.1
  · exact le_rfl

/-- Within the range, and from below the range on, the conversion keeps the order. -/
theorem truncInt64_mono {x y : ℚ} (hle : x ≤ y) (hy : y < 2 ^ 63) :
    truncInt64 x ≤ truncInt64 y := by
  by_cases hx : x ≤ -(2 ^ 63)
  · rw [truncInt64_of_le_neg hx]
    exact neg_two_pow_le_truncInt64 y
  · have hlow : -(2 ^ 63) < x := not_le.mp hx
    rw [truncInt64_of_lt hlow (hle.trans_lt hy), truncInt64_of_lt (hlow.trans_le hle) hy]
    split_ifs with hxpos hypos hypos
    · exact Int.floor_mono hle
    · exact absurd (hxpos.trans hle) hypos
    · calc
        ⌈x⌉ ≤ 0 := Int.ceil_le.mpr (by push_cast; linarith)
        _ ≤ ⌊y⌋ := Int.floor_nonneg.mpr hypos
    · exact Int.ceil_mono hle

/-- What is in range is not converted to the least integer. -/
theorem neg_two_pow_lt_truncInt64 {x : ℚ} (hlow : -(2 ^ 63) < x) (hhigh : x < 2 ^ 63) :
    -(2 ^ 63) < truncInt64 x := by
  rw [truncInt64_of_lt hlow hhigh]
  split_ifs with hx
  · have hnonneg : 0 ≤ ⌊x⌋ := Int.floor_nonneg.mpr hx
    omega
  · rw [Int.lt_ceil]
    exact_mod_cast hlow

/-! ## Time -/

/-- A `time.Time`: nanoseconds since 1970-01-01T00:00:00Z. -/
abbrev Time := ℤ

/-- A `time.Duration` in nanoseconds. -/
abbrev Duration := ℤ

def millisecond : Duration := 1000000

def second : Duration := 1000000000

/-- `time.Time{}`, the first instant of the year 1. -/
def zeroTime : Time := -62135596800 * second

/-- `Sub`, which saturates. -/
def timeSub (t u : Time) : Duration := max (-(2 ^ 63)) (min (2 ^ 63 - 1) (t - u))

/-! ## Maps -/

/-- A Go map as the partial function of its lookups. -/
abbrev GoMap (κ ν : Type) := κ → Option ν

namespace GoMap

variable {κ ν : Type}

/-- The map that holds nothing; lookups in a nil map answer the same. -/
def empty : GoMap κ ν := fun _ ↦ none

@[simp] theorem empty_apply (key : κ) : (empty : GoMap κ ν) key = none := rfl

variable [DecidableEq κ]

/-- `m[key] = value`. -/
def insert (m : GoMap κ ν) (key : κ) (value : ν) : GoMap κ ν :=
  fun other ↦ if other = key then some value else m other

/-- `delete(m, key)`. -/
def erase (m : GoMap κ ν) (key : κ) : GoMap κ ν :=
  fun other ↦ if other = key then none else m other

theorem insert_apply (m : GoMap κ ν) (key other : κ) (value : ν) :
    m.insert key value other = if other = key then some value else m other := rfl

@[simp] theorem insert_same (m : GoMap κ ν) (key : κ) (value : ν) :
    m.insert key value key = some value := if_pos rfl

theorem insert_of_ne (m : GoMap κ ν) {key other : κ} (value : ν) (h : other ≠ key) :
    m.insert key value other = m other := if_neg h

theorem erase_apply (m : GoMap κ ν) (key other : κ) :
    m.erase key other = if other = key then none else m other := rfl

@[simp] theorem erase_same (m : GoMap κ ν) (key : κ) : m.erase key key = none := if_pos rfl

/-- Lookup in a `map[K]bool`. -/
def isSet (m : GoMap κ Bool) (key : κ) : Bool := (m key).getD false

theorem isSet_insert (m : GoMap κ Bool) (key other : κ) :
    (m.insert key true).isSet other = (decide (other = key) || m.isSet other) := by
  unfold isSet
  rw [insert_apply]
  by_cases h : other = key <;> simp [h]

end GoMap

/-! ## Outcomes -/

/-- The run-time panics that the modelled code can raise. -/
inductive RuntimePanic
  | sliceBounds
  | sliceTooLong
  | unhashableKey
  deriving DecidableEq, Repr

/-- What a call returns: a value, a Go `error`, a panic, or nothing within its fuel. -/
inductive Outcome (ε α : Type)
  | ok (value : α)
  | error (err : ε)
  | panic (reason : RuntimePanic)
  | outOfFuel
  deriving DecidableEq, Repr

namespace Outcome

variable {ε α β : Type}

protected def bind (x : Outcome ε α) (f : α → Outcome ε β) : Outcome ε β :=
  match x with
  | ok value => f value
  | error err => error err
  | panic reason => panic reason
  | outOfFuel => outOfFuel

instance : Monad (Outcome ε) where
  pure := ok
  bind := Outcome.bind

/-- A Go result: the call came back, with a value or with an error. -/
def Returns : Outcome ε α → Prop
  | ok _ => True
  | error _ => True
  | panic _ => False
  | outOfFuel => False

@[simp] theorem returns_ok (value : α) : (ok value : Outcome ε α).Returns := trivial
@[simp] theorem returns_error (err : ε) : (error err : Outcome ε α).Returns := trivial
@[simp] theorem not_returns_panic (reason : RuntimePanic) :
    ¬(panic reason : Outcome ε α).Returns := id
@[simp] theorem not_returns_outOfFuel : ¬(outOfFuel : Outcome ε α).Returns := id

@[simp] theorem pure_eq (value : α) : (pure value : Outcome ε α) = ok value := rfl
@[simp] theorem ok_bind (value : α) (f : α → Outcome ε β) : ok value >>= f = f value := rfl
@[simp] theorem error_bind (err : ε) (f : α → Outcome ε β) :
    (error err : Outcome ε α) >>= f = error err := rfl
@[simp] theorem panic_bind (reason : RuntimePanic) (f : α → Outcome ε β) :
    (panic reason : Outcome ε α) >>= f = panic reason := rfl
@[simp] theorem outOfFuel_bind (f : α → Outcome ε β) :
    (outOfFuel : Outcome ε α) >>= f = outOfFuel := rfl

theorem bind_eq_ok {x : Outcome ε α} {f : α → Outcome ε β} {b : β} :
    x >>= f = ok b ↔ ∃ a, x = ok a ∧ f a = ok b := by
  cases x <;> simp

end Outcome

/-- A chain of error checks that ended without an error. -/
theorem bind_eq_ok {ε α β : Type} {x : Except ε α} {f : α → Except ε β} {b : β} :
    x >>= f = .ok b ↔ ∃ a, x = .ok a ∧ f a = .ok b := by
  cases x <;> simp [bind, Except.bind]

theorem eq_ok_of_toOption {ε α : Type} {x : Except ε α} {a : α} (h : x.toOption = some a) :
    x = .ok a := by
  cases x with
  | error err => cases h
  | ok a' =>
    cases h
    rfl

/-! ## Actions on a receiver -/

/-- A method on a pointer receiver: the receiver it leaves behind is there on failure too. -/
def Action (σ ε α : Type) := σ → Outcome ε α × σ

namespace Action

variable {σ ε α β : Type}

protected def bind (x : Action σ ε α) (f : α → Action σ ε β) : Action σ ε β := fun s ↦
  match x s with
  | (.ok value, s') => f value s'
  | (.error err, s') => (.error err, s')
  | (.panic reason, s') => (.panic reason, s')
  | (.outOfFuel, s') => (.outOfFuel, s')

instance : Monad (Action σ ε) where
  pure value := fun s ↦ (.ok value, s)
  bind := Action.bind

def throw (err : ε) : Action σ ε α := fun s ↦ (.error err, s)

def crash (reason : RuntimePanic) : Action σ ε α := fun s ↦ (.panic reason, s)

def exhausted : Action σ ε α := fun s ↦ (.outOfFuel, s)

@[simp] theorem pure_apply (value : α) (s : σ) : (pure value : Action σ ε α) s = (.ok value, s) := rfl
@[simp] theorem throw_apply (err : ε) (s : σ) : (throw err : Action σ ε α) s = (.error err, s) := rfl
@[simp] theorem crash_apply (reason : RuntimePanic) (s : σ) :
    (crash reason : Action σ ε α) s = (.panic reason, s) := rfl
@[simp] theorem exhausted_apply (s : σ) :
    (exhausted : Action σ ε α) s = (.outOfFuel, s) := rfl

theorem bind_of_ok {x : Action σ ε α} {s s' : σ} {a : α} (h : x s = (.ok a, s'))
    (f : α → Action σ ε β) : (x >>= f) s = f a s' := by
  change Action.bind x f s = _
  simp only [Action.bind, h]

theorem bind_of_panic {x : Action σ ε α} {s s' : σ} {reason : RuntimePanic}
    (h : x s = (.panic reason, s')) (f : α → Action σ ε β) :
    (x >>= f) s = (.panic reason, s') := by
  change Action.bind x f s = _
  simp only [Action.bind, h]

theorem bind_eq_ok {x : Action σ ε α} {f : α → Action σ ε β} {s s'' : σ} {b : β} :
    (x >>= f) s = (.ok b, s'') ↔ ∃ a s', x s = (.ok a, s') ∧ f a s' = (.ok b, s'') := by
  change Action.bind x f s = _ ↔ _
  unfold Action.bind
  rcases x s with ⟨_ | _ | _ | _, s'⟩ <;> simp

theorem bind_pure_eq_ok {x : Action σ ε α} {f : α → β} {s s' : σ} {b : β} :
    (x >>= fun a ↦ pure (f a)) s = (.ok b, s') ↔ ∃ a, x s = (.ok a, s') ∧ f a = b := by
  rw [bind_eq_ok]
  simp only [pure_apply, Prod.mk.injEq, Outcome.ok.injEq]
  constructor
  · intro ⟨a, s'', hx, hb, hs⟩
    exact ⟨a, hs ▸ hx, hb⟩
  · intro ⟨a, hx, hb⟩
    exact ⟨a, s', hx, hb, rfl⟩

theorem bind_eq_panic {x : Action σ ε α} {f : α → Action σ ε β} {s s'' : σ}
    {reason : RuntimePanic} :
    (x >>= f) s = (.panic reason, s'') ↔
      x s = (.panic reason, s'') ∨
        ∃ a s', x s = (.ok a, s') ∧ f a s' = (.panic reason, s'') := by
  change Action.bind x f s = _ ↔ _
  unfold Action.bind
  rcases x s with ⟨_ | _ | _ | _, s'⟩ <;> simp

theorem bind_pure_eq_panic {x : Action σ ε α} {f : α → β} {s s' : σ} {reason : RuntimePanic} :
    (x >>= fun a ↦ pure (f a)) s = (.panic reason, s') ↔ x s = (.panic reason, s') := by
  rw [bind_eq_panic]
  simp

theorem bind_eq_outOfFuel {x : Action σ ε α} {f : α → Action σ ε β} {s s'' : σ} :
    (x >>= f) s = (.outOfFuel, s'') ↔
      x s = (.outOfFuel, s'') ∨
        ∃ a s', x s = (.ok a, s') ∧ f a s' = (.outOfFuel, s'') := by
  change Action.bind x f s = _ ↔ _
  unfold Action.bind
  rcases x s with ⟨_ | _ | _ | _, s'⟩ <;> simp

end Action

end Zenith.Go
