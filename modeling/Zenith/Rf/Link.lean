import Zenith.Rf.Fec

/-!
# The simulated link

The modems of `modem.rs` around a channel that may change symbols in any way but keeps their number.
Whatever it does, the receiver gets the encoded stream with some wrong bits and fewer bits of surplus
than a symbol carries.
-/

namespace Zenith.Rf

open BlockCode

structure Complex where
  re : ℚ
  im : ℚ
  deriving DecidableEq, Repr

/-- `Complex::real`. -/
def Complex.real (re : ℚ) : Complex := ⟨re, 0⟩

/-- A `Modulator` that is a `Demodulator`. -/
structure Modem where
  bitsPerSymbol : ℕ
  modulate : List Bool → List Complex
  demodulate : List Complex → List Bool

namespace Bpsk

def modulate (bits : List Bool) : List Complex :=
  bits.map fun b ↦ Complex.real (if b then -1 else 1)

def demodulate (symbols : List Complex) : List Bool := symbols.map fun s ↦ s.re < 0

end Bpsk

def Bpsk : Modem where
  bitsPerSymbol := 1
  modulate := Bpsk.modulate
  demodulate := Bpsk.demodulate

/-- `std::f64::consts::FRAC_1_SQRT_2`. -/
def invSqrt2 : ℚ := 0x16A09E667F3BCD / 2 ^ 53

namespace Qpsk

/-- The body of the loop of `modulate`, on a pair of bits. -/
def symbol (c : List Bool) : Complex :=
  let i := if c.getD 0 false then -invSqrt2 else invSqrt2
  let q := if c.getD 1 false then -invSqrt2 else invSqrt2
  ⟨i, q⟩

def modulate (bits : List Bool) : List Complex := (chunks 2 (padToMultiple bits 2)).map symbol

def demodulate (symbols : List Complex) : List Bool :=
  symbols.flatMap fun s ↦ [decide (s.re < 0), decide (s.im < 0)]

end Qpsk

def Qpsk : Modem where
  bitsPerSymbol := 2
  modulate := Qpsk.modulate
  demodulate := Qpsk.demodulate

/-- `simulate_link`; the channel is its `transmit`. -/
def simulateLink (bits : List Bool) (modem : Modem) (code : Code)
    (transmit : List Complex → List Complex) : List Bool :=
  let coded := code.encode bits
  let symbols := modem.modulate coded
  let noisy := transmit symbols
  let demapped := modem.demodulate noisy
  code.decode demapped

/-! ## Modems -/

/-- What the link relies on: the number of symbols determines that of the bits but for padding, and
symbols that arrive unchanged are read back. -/
structure Modem.Lawful (modem : Modem) : Prop where
  low : ∀ bits symbols, symbols.length = (modem.modulate bits).length →
    bits.length ≤ (modem.demodulate symbols).length
  high : ∀ bits symbols, symbols.length = (modem.modulate bits).length →
    (modem.demodulate symbols).length < bits.length + modem.bitsPerSymbol
  demodulate_modulate : ∀ bits, ∃ padding, modem.demodulate (modem.modulate bits) = bits ++ padding

theorem Bpsk.demodulate_modulate (bits : List Bool) : demodulate (modulate bits) = bits := by
  unfold demodulate modulate
  rw [List.map_map]
  apply List.map_id''
  intro b
  cases b
  · decide
  · decide

theorem lawful_bpsk : Bpsk.Lawful where
  low bits symbols h := by
    change bits.length ≤ (Bpsk.demodulate symbols).length
    change symbols.length = (Bpsk.modulate bits).length at h
    rw [Bpsk.demodulate, List.length_map, h, Bpsk.modulate, List.length_map]
  high bits symbols h := by
    change (Bpsk.demodulate symbols).length < bits.length + 1
    change symbols.length = (Bpsk.modulate bits).length at h
    rw [Bpsk.demodulate, List.length_map, h, Bpsk.modulate, List.length_map]
    exact Nat.lt_succ_self _
  demodulate_modulate bits := ⟨[], by rw [List.append_nil]; exact Bpsk.demodulate_modulate bits⟩

theorem invSqrt2_pos : 0 < invSqrt2 := by norm_num [invSqrt2]

theorem Qpsk.demodulate_symbol {pair : List Bool} (h : pair.length = 2) :
    [decide ((symbol pair).re < 0), decide ((symbol pair).im < 0)] = pair := by
  have hneg : -invSqrt2 < 0 := neg_lt_zero.mpr invSqrt2_pos
  have hpos : ¬invSqrt2 < 0 := not_lt.mpr invSqrt2_pos.le
  obtain ⟨i, q, rfl⟩ := List.length_eq_two.mp h
  cases i <;> cases q <;> simp [symbol, hneg, hpos]

/-- Symbols that arrive unchanged give back the padded bits. -/
theorem Qpsk.demodulate_modulate (bits : List Bool) :
    demodulate (modulate bits) = padToMultiple bits 2 := by
  obtain ⟨pairs, hpairs, hflatten⟩ := exists_blocks_padToMultiple (n := 2) (by decide) bits
  unfold demodulate modulate
  rw [← hflatten, chunks_flatten (by decide) hpairs, List.flatMap_map, List.flatMap_def]
  congr 1
  calc
    pairs.map (fun pair ↦ [decide ((symbol pair).re < 0), decide ((symbol pair).im < 0)]) =
        pairs.map id := List.map_congr_left fun pair hpair ↦ demodulate_symbol (hpairs pair hpair)
    _ = pairs := List.map_id _

theorem Qpsk.length_demodulate (symbols : List Complex) :
    (demodulate symbols).length = 2 * symbols.length := by
  unfold demodulate
  rw [List.length_flatMap]
  simp [Nat.mul_comm]

/-- The number of bits does not depend on what the symbols are. -/
theorem Qpsk.length_demodulate_eq {bits : List Bool} {symbols : List Complex}
    (h : symbols.length = (modulate bits).length) :
    (demodulate symbols).length = bits.length + (2 - bits.length % 2) % 2 := by
  calc
    (demodulate symbols).length = (demodulate (modulate bits)).length := by
      rw [length_demodulate, length_demodulate, h]
    _ = bits.length + (2 - bits.length % 2) % 2 := by
      rw [demodulate_modulate, padToMultiple_eq (by decide), List.length_append,
        List.length_replicate]

theorem lawful_qpsk : Qpsk.Lawful where
  low bits symbols h := by
    change bits.length ≤ (Qpsk.demodulate symbols).length
    rw [Qpsk.length_demodulate_eq h]
    exact Nat.le_add_right _ _
  high bits symbols h := by
    change (Qpsk.demodulate symbols).length < bits.length + 2
    rw [Qpsk.length_demodulate_eq h]
    exact Nat.add_lt_add_left (Nat.mod_lt _ (by decide)) _
  demodulate_modulate bits :=
    ⟨_, (Qpsk.demodulate_modulate bits).trans (padToMultiple_eq (by decide) bits)⟩

/-! ## The link -/

theorem simulateLink_eq {modem : Modem} (hmodem : modem.Lawful) (hbits : modem.bitsPerSymbol ≤ 7)
    {bits : List Bool} {transmit : List Complex → List Complex}
    (hlength : ∀ symbols, (transmit symbols).length = symbols.length)
    (herrors : ∀ i < (Hamming74.encode bits).length / 7,
      errors 7 (Hamming74.encode bits)
        (modem.demodulate (transmit (modem.modulate (Hamming74.encode bits)))) i ≤ 1) :
    simulateLink bits modem Hamming74 transmit = padToMultiple bits 4 := by
  have hsymbols := hlength (modem.modulate (Hamming74.encode bits))
  have hlow := hmodem.low _ _ hsymbols
  have hhigh := hmodem.high _ _ hsymbols
  exact Hamming74.decode_eq hlow (hhigh.trans_le (Nat.add_le_add_left hbits _)) herrors

/-- With at most one wrong bit in every codeword, and so without noise, the link returns the bits it was
given and the padding of the last block. -/
theorem simulateLink_corrects {modem : Modem} (hmodem : modem = Bpsk ∨ modem = Qpsk)
    (bits : List Bool) :
    (∀ transmit : List Complex → List Complex,
      (∀ symbols, (transmit symbols).length = symbols.length) →
      (∀ i < (Hamming74.encode bits).length / 7,
        errors 7 (Hamming74.encode bits)
          (modem.demodulate (transmit (modem.modulate (Hamming74.encode bits)))) i ≤ 1) →
      simulateLink bits modem Hamming74 transmit =
        bits ++ List.replicate ((4 - bits.length % 4) % 4) false) ∧
    simulateLink bits modem Hamming74 id =
      bits ++ List.replicate ((4 - bits.length % 4) % 4) false := by
  have hlawful : modem.Lawful ∧ modem.bitsPerSymbol ≤ 7 := by
    rcases hmodem with rfl | rfl
    · exact ⟨lawful_bpsk, by decide⟩
    · exact ⟨lawful_qpsk, by decide⟩
  rw [← padToMultiple_eq (by decide)]
  constructor
  · intro transmit hlength herrors
    exact simulateLink_eq hlawful.1 hlawful.2 hlength herrors
  · apply simulateLink_eq hlawful.1 hlawful.2 fun _ ↦ rfl
    intro i hi
    obtain ⟨padding, hpadding⟩ := hlawful.1.demodulate_modulate (Hamming74.encode bits)
    have hword : 7 * (i + 1) ≤ (Hamming74.encode bits).length := by omega
    rw [hpadding, errors_append_right hword]
    exact Nat.zero_le 1

/-- A channel that inverts the first symbol in one component. -/
def invertFirst : List Complex → List Complex
  | [] => []
  | s :: rest => ⟨-s.re, s.im⟩ :: rest

theorem simulateLink_corrects_invertFirst :
    simulateLink [true, false, true] Qpsk Hamming74 invertFirst = [true, false, true, false] := by
  apply (simulateLink_corrects (.inr rfl) [true, false, true]).1 invertFirst
  · intro symbols
    cases symbols <;> rfl
  · decide +kernel

end Zenith.Rf
