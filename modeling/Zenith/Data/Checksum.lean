import Mathlib

/-!
# Single errors and shift registers

Lists that differ in one place differ in one of any two parts they are cut into. The register of a
reflected CRC turns injectively if the highest bit of its polynomial is set: the highest bit after a
turn then tells which bit was shifted out.
-/

namespace Zenith.Checksum

/-! ## Lists that differ in one place -/

section OneOff

variable {α : Type}

/-- The two lists differ in exactly one place. -/
def OneOff (xs ys : List α) : Prop := ∃ u x y v, x ≠ y ∧ xs = u ++ x :: v ∧ ys = u ++ y :: v

theorem OneOff.ne {xs ys : List α} (h : OneOff xs ys) : xs ≠ ys := by
  obtain ⟨u, x, y, v, hne, rfl, rfl⟩ := h
  intro heq
  exact hne (List.cons.inj (List.append_cancel_left heq)).1

theorem OneOff.append_right {xs ys : List α} (h : OneOff xs ys) (zs : List α) :
    OneOff (xs ++ zs) (ys ++ zs) := by
  obtain ⟨u, x, y, v, hne, rfl, rfl⟩ := h
  exact ⟨u, x, y, v ++ zs, hne, by simp, by simp⟩

/-- The place is in the first part or in the second. -/
theorem OneOff.split {xs xs' ys ys' : List α} (h : OneOff (xs ++ xs') (ys ++ ys'))
    (hlen : xs.length = ys.length) :
    (OneOff xs ys ∧ xs' = ys') ∨ (xs = ys ∧ OneOff xs' ys') := by
  obtain ⟨u, x, y, v, hne, hxs, hys⟩ := h
  rcases List.append_eq_append_iff.mp hxs with ⟨w, rfl, rfl⟩ | ⟨w, rfl, hw⟩
  · right
    rw [List.append_assoc] at hys
    obtain ⟨rfl, rfl⟩ := List.append_inj hys hlen.symm
    exact ⟨rfl, w, x, y, v, hne, rfl, rfl⟩
  · rcases w with _ | ⟨x', w⟩
    · right
      rw [List.append_nil] at hlen ⊢
      obtain ⟨rfl, rfl⟩ := List.append_inj hys hlen.symm
      exact ⟨rfl, [], x, y, v, hne, hw.symm, rfl⟩
    · left
      rw [List.cons_append, List.cons.injEq] at hw
      obtain ⟨rfl, rfl⟩ := hw
      have hys' : ys ++ ys' = (u ++ y :: w) ++ xs' := by simpa using hys
      obtain ⟨rfl, rfl⟩ := List.append_inj hys' (by simpa using hlen.symm)
      exact ⟨⟨u, x, y, w, hne, rfl, rfl⟩, rfl⟩

theorem OneOff.unframe {zs xs ys ws : List α} (h : OneOff (zs ++ (xs ++ ws)) (zs ++ (ys ++ ws)))
    (hlen : xs.length = ys.length) : OneOff xs ys := by
  rcases h.split rfl with ⟨hfront, -⟩ | ⟨-, hrest⟩
  · exact absurd rfl hfront.ne
  · rcases hrest.split hlen with ⟨hmiddle, -⟩ | ⟨-, hback⟩
    · exact hmiddle
    · exact absurd rfl hback.ne

end OneOff

/-! ## Shift registers -/

section Register

variable {w : ℕ}

/-- One turn of a reflected CRC register. -/
def shift (poly c : BitVec w) : BitVec w :=
  if c.getLsbD 0 then c >>> 1 ^^^ poly else c >>> 1

theorem msb_shift {poly : BitVec w} (hpoly : poly.msb = true) (c : BitVec w) :
    (shift poly c).msb = c.getLsbD 0 := by
  unfold shift
  split_ifs with hlow
  · simp [BitVec.msb_ushiftRight, hpoly, hlow]
  · simp [BitVec.msb_ushiftRight, hlow]

theorem shift_injective {poly : BitVec w} (hpoly : poly.msb = true) :
    Function.Injective (shift poly) := by
  intro c c' heq
  have hlow : c.getLsbD 0 = c'.getLsbD 0 := by
    calc
      c.getLsbD 0 = (shift poly c).msb := (msb_shift hpoly c).symm
      _ = (shift poly c').msb := by rw [heq]
      _ = c'.getLsbD 0 := msb_shift hpoly c'
  have hhigh : c >>> 1 = c' >>> 1 := by
    unfold shift at heq
    rw [hlow] at heq
    split_ifs at heq
    · exact (BitVec.xor_left_inj poly).mp heq
    · exact heq
  apply BitVec.eq_of_getLsbD_eq
  intro i hi
  cases i with
  | zero => exact hlow
  | succ i =>
    have hbit := congrArg (·.getLsbD i) hhigh
    simpa [Nat.add_comm] using hbit

end Register

end Zenith.Checksum
