import Zenith.Data.Checksum

/-!
# Bursts

A register that takes its input bit by bit is linear: the registers of two messages differ by the
register of their difference. If a register of width `w` is zero after at most `w` bits, then these
bits are what it held before, because the highest bit after each turn has to be zero. So a burst of
at most `w` wrong bits leaves a difference behind, and correct bits never take a difference away.
-/

namespace Zenith.Checksum

section Feed

variable {w : ℕ} (poly : BitVec w)

/-- A turn of the register that takes in a bit. -/
def feed (c : BitVec w) (b : Bool) : BitVec w :=
  if c.getLsbD 0 ^^ b then c >>> 1 ^^^ poly else c >>> 1

@[simp] theorem feed_false (c : BitVec w) : feed poly c false = shift poly c := by
  simp [feed, shift]

@[simp] theorem shift_zero : shift poly 0 = 0 := by simp [shift]

theorem feed_xor (c c' : BitVec w) (b b' : Bool) :
    feed poly (c ^^^ c') (b ^^ b') = feed poly c b ^^^ feed poly c' b' := by
  have hcancel (x y : BitVec w) : x ^^^ poly ^^^ (y ^^^ poly) = x ^^^ y := by
    rw [BitVec.xor_comm y, BitVec.xor_assoc, ← BitVec.xor_assoc poly, BitVec.xor_self,
      BitVec.zero_xor]
  have hlow : ((c ^^^ c').getLsbD 0 ^^ (b ^^ b')) = ((c.getLsbD 0 ^^ b) ^^ (c'.getLsbD 0 ^^ b')) := by
    rw [BitVec.getLsbD_xor]
    cases c.getLsbD 0 <;> cases c'.getLsbD 0 <;> cases b <;> cases b' <;> rfl
  simp only [feed, hlow, BitVec.ushiftRight_xor_distrib]
  cases c.getLsbD 0 ^^ b <;> cases c'.getLsbD 0 ^^ b'
  · simp
  · simp [BitVec.xor_assoc]
  · simp [BitVec.xor_assoc, BitVec.xor_comm poly]
  · simp [hcancel]

/-- What is xored onto the register below its lowest bit only moves down. -/
theorem shift_xor (c x : BitVec w) :
    shift poly (c ^^^ x) = feed poly c (x.getLsbD 0) ^^^ x >>> 1 := by
  unfold shift feed
  rw [BitVec.getLsbD_xor, BitVec.ushiftRight_xor_distrib]
  split_ifs
  · rw [BitVec.xor_assoc, BitVec.xor_comm (x >>> 1), ← BitVec.xor_assoc]
  · rfl

theorem foldl_feed_xor {m m' : List Bool} (hlen : m.length = m'.length) (c c' : BitVec w) :
    (List.zipWith xor m m').foldl (feed poly) (c ^^^ c') =
      m.foldl (feed poly) c ^^^ m'.foldl (feed poly) c' := by
  induction m generalizing m' c c' with
  | nil =>
    rw [List.length_eq_zero_iff.mp hlen.symm]
    rfl
  | cons b m ih =>
    cases m' with
    | nil => simp at hlen
    | cons b' m' =>
      rw [List.zipWith_cons_cons, List.foldl_cons, List.foldl_cons, List.foldl_cons, feed_xor]
      exact ih (Nat.succ.inj hlen) _ _

/-- The `n` lowest bits of a word, the least significant first. -/
def lowBits (n : ℕ) (x : BitVec w) : List Bool := (List.range n).map x.getLsbD

@[simp] theorem length_lowBits (n : ℕ) (x : BitVec w) : (lowBits n x).length = n := by
  simp [lowBits]

theorem lowBits_succ (n : ℕ) (x : BitVec w) :
    lowBits (n + 1) x = x.getLsbD 0 :: lowBits n (x >>> 1) := by
  rw [lowBits, List.range_succ_eq_map, List.map_cons, List.map_map]
  congr 1
  apply List.map_congr_left
  intro i _
  rw [Function.comp_apply, BitVec.getLsbD_ushiftRight, Nat.add_comm]

/-- `n` turns take in the lowest bits of what was xored onto the register. -/
theorem iterate_shift_xor (n : ℕ) (c x : BitVec w) :
    (shift poly)^[n] (c ^^^ x) = (lowBits n x).foldl (feed poly) c ^^^ x >>> n := by
  induction n generalizing c x with
  | zero => simp [lowBits]
  | succ n ih =>
    calc
      (shift poly)^[n + 1] (c ^^^ x) = (shift poly)^[n] (feed poly c (x.getLsbD 0) ^^^ x >>> 1) := by
        rw [Function.iterate_succ_apply, shift_xor]
      _ = (lowBits n (x >>> 1)).foldl (feed poly) (feed poly c (x.getLsbD 0)) ^^^ x >>> 1 >>> n :=
        ih _ _
      _ = (lowBits (n + 1) x).foldl (feed poly) c ^^^ x >>> (n + 1) := by
        rw [lowBits_succ, List.foldl_cons, ← BitVec.shiftRight_add, Nat.add_comm n]

end Feed

/-! ## Differences -/

section Difference

variable {w : ℕ} {poly : BitVec w} (hpoly : poly.msb = true)

include hpoly

theorem msb_feed (c : BitVec w) (b : Bool) : (feed poly c b).msb = (c.getLsbD 0 ^^ b) := by
  unfold feed
  split_ifs with hlow
  · simp [BitVec.msb_ushiftRight, hpoly, hlow]
  · simpa [BitVec.msb_ushiftRight] using hlow

/-- Correct bits keep a difference, and the lack of one. -/
theorem foldl_feed_eq_zero_iff {e : List Bool} (he : ∀ b ∈ e, b = false) (d : BitVec w) :
    e.foldl (feed poly) d = 0 ↔ d = 0 := by
  induction e generalizing d with
  | nil => rfl
  | cons b e ih =>
    rw [List.foldl_cons, ih fun b hb ↦ he b (List.mem_cons_of_mem _ hb),
      he b List.mem_cons_self, feed_false]
    constructor
    · intro h
      exact shift_injective hpoly (h.trans (shift_zero poly).symm)
    · rintro rfl
      exact shift_zero poly

/-- A register that is zero after at most `w` bits held these bits. -/
theorem getLsbD_of_foldl_feed_eq_zero {e : List Bool} (he : e.length ≤ w) {d : BitVec w}
    (h : e.foldl (feed poly) d = 0) (i : ℕ) : d.getLsbD i = e.getD i false := by
  induction e generalizing d i with
  | nil =>
    rw [List.foldl_nil] at h
    simp [h]
  | cons b e ih =>
    rw [List.length_cons] at he
    have hnext := ih (by omega) h
    have hlow : d.getLsbD 0 = b := by
      have hmsb : (feed poly d b).msb = false := by
        rw [BitVec.msb_eq_getLsbD_last, hnext, List.getD_eq_default _ _ (by omega)]
      rw [msb_feed hpoly] at hmsb
      simpa using hmsb
    cases i with
    | zero => exact hlow
    | succ i =>
      have hshift : feed poly d b = d >>> 1 := by simp [feed, hlow]
      have hbit := hnext i
      rw [hshift, BitVec.getLsbD_ushiftRight, Nat.add_comm] at hbit
      exact hbit

/-- A difference within `w` consecutive bits reaches the register and stays in it. -/
theorem foldl_feed_ne_zero {e : List Bool} {start : ℕ}
    (hwindow : ∀ i, e[i]? = some true → start ≤ i ∧ i < start + w) (he : true ∈ e) :
    e.foldl (feed poly) 0 ≠ 0 := by
  have hsplit : e = e.take start ++ ((e.drop start).take w ++ (e.drop start).drop w) := by
    rw [List.take_append_drop, List.take_append_drop]
  have hbefore : ∀ b ∈ e.take start, b = false := by
    intro b hb
    obtain ⟨i, hi⟩ := List.mem_iff_getElem?.mp hb
    rw [List.getElem?_take] at hi
    split_ifs at hi with hlt
    cases b with
    | false => rfl
    | true => exact absurd (hwindow i hi).1 (by omega)
  have hafter : ∀ b ∈ (e.drop start).drop w, b = false := by
    intro b hb
    obtain ⟨i, hi⟩ := List.mem_iff_getElem?.mp hb
    rw [List.drop_drop, List.getElem?_drop] at hi
    cases b with
    | false => rfl
    | true => exact absurd (hwindow _ hi).2 (by omega)
  intro h
  rw [hsplit, List.foldl_append, List.foldl_append, foldl_feed_eq_zero_iff hpoly hafter,
    (foldl_feed_eq_zero_iff hpoly hbefore 0).mpr rfl] at h
  -- the register came out of the window as zero, so that every bit of the window is correct
  have hwithin : ∀ b ∈ (e.drop start).take w, b = false := by
    intro b hb
    obtain ⟨i, hi⟩ := List.mem_iff_getElem?.mp hb
    have hbit := getLsbD_of_foldl_feed_eq_zero hpoly (List.length_take_le _ _) h i
    rw [List.getD_eq_getElem?_getD, hi] at hbit
    simpa using hbit.symm
  rw [hsplit, List.mem_append, List.mem_append] at he
  rcases he with he | he | he
  · exact absurd (hbefore _ he) (by decide)
  · exact absurd (hwithin _ he) (by decide)
  · exact absurd (hafter _ he) (by decide)

end Difference

/-! ## Messages -/

section Message

variable {w : ℕ} {poly : BitVec w}

/-- The messages are of one length, and all bits in which they differ lie in a window of `n` bits. -/
structure Burst (n : ℕ) (m m' : List Bool) : Prop where
  length_eq : m.length = m'.length
  window : ∃ start, ∀ i, m[i]? ≠ m'[i]? → start ≤ i ∧ i < start + n

theorem getElem?_zipWith_xor {m m' : List Bool} (hlen : m.length = m'.length) (i : ℕ) :
    (List.zipWith xor m m')[i]? = some true ↔ m[i]? ≠ m'[i]? := by
  by_cases hi : i < m.length
  · simp [hi, hlen ▸ hi]
  · rw [List.getElem?_eq_none (by simp; omega), List.getElem?_eq_none (by omega),
      List.getElem?_eq_none (by omega)]
    simp

/-- The register detects every burst no longer than itself. -/
theorem Burst.foldl_ne {m m' : List Bool} (h : Burst w m m') (hpoly : poly.msb = true) (hne : m ≠ m')
    (c : BitVec w) : m.foldl (feed poly) c ≠ m'.foldl (feed poly) c := by
  obtain ⟨hlen, start, hwindow⟩ := h
  have hdiffer : true ∈ List.zipWith xor m m' := by
    by_contra hsame
    apply hne
    apply List.ext_getElem?
    intro i
    by_contra hi
    exact hsame (List.mem_of_getElem? ((getElem?_zipWith_xor hlen i).mpr hi))
  intro heq
  apply @foldl_feed_ne_zero _ _ hpoly _ start _ hdiffer
  · calc
      (List.zipWith xor m m').foldl (feed poly) 0 =
          (List.zipWith xor m m').foldl (feed poly) (c ^^^ c) := by rw [BitVec.xor_self]; rfl
      _ = m.foldl (feed poly) c ^^^ m'.foldl (feed poly) c := foldl_feed_xor poly hlen c c
      _ = 0 := by rw [heq, BitVec.xor_self]; rfl
  · intro i hi
    exact hwindow i ((getElem?_zipWith_xor hlen i).mp hi)

end Message

/-! ## Bytes -/

/-- The bits of a byte string, byte by byte and in each byte the least significant bit first. -/
def bits (data : List UInt8) : List Bool := data.flatMap fun b ↦ lowBits 8 b.toBitVec

@[simp] theorem bits_cons (b : UInt8) (data : List UInt8) :
    bits (b :: data) = lowBits 8 b.toBitVec ++ bits data := rfl

theorem length_bits (data : List UInt8) : (bits data).length = 8 * data.length := by
  induction data with
  | nil => rfl
  | cons b data ih =>
    rw [bits_cons, List.length_append, length_lowBits, ih, List.length_cons]
    omega

theorem lowBits_injective {n : ℕ} : Function.Injective (lowBits n : BitVec n → List Bool) := by
  intro x y heq
  apply BitVec.eq_of_getLsbD_eq
  intro i hi
  exact List.map_inj_left.mp heq i (List.mem_range.mpr hi)

theorem bits_injective : Function.Injective bits := by
  intro xs ys heq
  have hlen : xs.length = ys.length := by
    have hbits := congrArg List.length heq
    rw [length_bits, length_bits] at hbits
    omega
  induction xs generalizing ys with
  | nil => exact (List.length_eq_zero_iff.mp hlen.symm).symm
  | cons x xs ih =>
    cases ys with
    | nil => simp at hlen
    | cons y ys =>
      rw [bits_cons, bits_cons] at heq
      obtain ⟨hfirst, hrest⟩ := List.append_inj heq (by simp)
      rw [UInt8.toBitVec_inj.mp (lowBits_injective hfirst), ih hrest (Nat.succ.inj hlen)]

theorem bits_append (xs ys : List UInt8) : bits (xs ++ ys) = bits xs ++ bits ys :=
  List.flatMap_append

/-- One wrong byte is a burst of at most eight bits. -/
theorem OneOff.burst {xs ys : List UInt8} (h : OneOff xs ys) {n : ℕ} (hn : 8 ≤ n) :
    Burst n (bits xs) (bits ys) := by
  obtain ⟨u, x, y, v, -, rfl, rfl⟩ := h
  refine ⟨by simp [length_bits], (bits u).length, fun i hi ↦ ?_⟩
  rw [bits_append, bits_append, bits_cons, bits_cons] at hi
  constructor
  · by_contra hlow
    rw [List.getElem?_append_left (by omega), List.getElem?_append_left (by omega)] at hi
    exact hi rfl
  · by_contra hhigh
    have hbyte (b : UInt8) : (lowBits 8 b.toBitVec).length ≤ i - (bits u).length := by
      rw [length_lowBits]
      omega
    rw [List.getElem?_append_right (by omega), List.getElem?_append_right (hbyte x),
      List.getElem?_append_right (by omega), List.getElem?_append_right (hbyte y), length_lowBits,
      length_lowBits] at hi
    exact hi rfl

section Bytes

variable {w : ℕ} {poly : BitVec w}

/-- Eight turns take in a byte that was xored onto the register. -/
theorem iterate_shift_byte (hw : 8 ≤ w) (c : BitVec w) (b : BitVec 8) :
    (shift poly)^[8] (c ^^^ b.setWidth w) = (lowBits 8 b).foldl (feed poly) c := by
  have hgone : b.setWidth w >>> 8 = 0 := by
    apply BitVec.eq_of_getLsbD_eq
    intro i _
    rw [BitVec.getLsbD_ushiftRight, BitVec.getLsbD_setWidth, BitVec.getLsbD_of_ge b _ (by omega)]
    simp
  have hlow : lowBits 8 (b.setWidth w) = lowBits 8 b := by
    apply List.map_congr_left
    intro i hi
    have hlt := List.mem_range.mp hi
    rw [BitVec.getLsbD_setWidth, decide_eq_true (by omega), Bool.true_and]
  rw [iterate_shift_xor, hgone, hlow, BitVec.ofNat_eq_ofNat, BitVec.xor_zero]

section Checksum

-- a checksum that keeps the register in a state of type `σ` and takes in a byte by eight turns
variable {σ : Type} {register : σ → BitVec w} {step : σ → UInt8 → σ} (hw : 8 ≤ w)
  (hstep : ∀ s b, register (step s b) =
    (shift poly)^[8] (register s ^^^ b.toBitVec.setWidth w))

include hw hstep

theorem foldl_bits (data : List UInt8) (s : σ) :
    register (data.foldl step s) = (bits data).foldl (feed poly) (register s) := by
  induction data generalizing s with
  | nil => rfl
  | cons b data ih =>
    rw [List.foldl_cons, ih, hstep, iterate_shift_byte hw, bits_cons, List.foldl_append]

theorem Burst.foldl_bytes_ne {xs ys : List UInt8} (h : Burst w (bits xs) (bits ys))
    (hpoly : poly.msb = true) (hne : xs ≠ ys) (s : σ) : xs.foldl step s ≠ ys.foldl step s := by
  intro heq
  apply h.foldl_ne hpoly (bits_injective.ne hne) (register s)
  rw [← foldl_bits hw hstep, ← foldl_bits hw hstep, heq]

end Checksum

end Bytes

end Zenith.Checksum
