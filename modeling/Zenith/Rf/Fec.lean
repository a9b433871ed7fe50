import Zenith.Data.BlockCode

/-!
# Forward error correction

The Hamming(7,4) code of `fec.rs`. The syndrome of a word with one wrong bit is the position of that
bit.
-/

namespace Zenith.Rf

open BlockCode

/-- `pad_to_multiple`, which `fec.rs` and `modem.rs` both have. -/
def padToMultiple (bits : List Bool) (n : ℕ) : List Bool :=
  let rem := bits.length % n
  if rem ≠ 0 then bits ++ List.replicate (n - rem) false else bits

theorem padToMultiple_eq {n : ℕ} (hn : 0 < n) (bits : List Bool) :
    padToMultiple bits n = bits ++ List.replicate ((n - bits.length % n) % n) false := by
  have hrem : bits.length % n < n := Nat.mod_lt _ hn
  unfold padToMultiple
  dsimp only
  split_ifs with h
  · rw [Nat.mod_eq_of_lt (show n - bits.length % n < n by omega)]
  · rw [not_not.mp h, Nat.sub_zero, Nat.mod_self, List.replicate_zero, List.append_nil]

/-- What is padded consists of whole blocks. -/
theorem exists_blocks_padToMultiple {n : ℕ} (hn : 0 < n) (bits : List Bool) :
    ∃ blocks : List (List Bool), (∀ b ∈ blocks, b.length = n) ∧
      blocks.flatten = padToMultiple bits n := by
  have hdvd : n ∣ (padToMultiple bits n).length := by
    have hrem : bits.length % n < n := Nat.mod_lt _ hn
    have hdiv := Nat.div_add_mod bits.length n
    unfold padToMultiple
    dsimp only
    split_ifs with h
    · rw [List.length_append, List.length_replicate]
      exact ⟨bits.length / n + 1, by rw [Nat.mul_succ]; omega⟩
    · exact Nat.dvd_of_mod_eq_zero (not_not.mp h)
  obtain ⟨count, hcount⟩ := hdvd
  exact exists_blocks hcount

/-- What the link needs of an `Encoder` that is a `Decoder`. -/
structure Code where
  encode : List Bool → List Bool
  decode : List Bool → List Bool

namespace Hamming74

/-- The body of the loop of `encode`. Only whole blocks are encoded, so that indexing never fails. -/
def encodeBlock (d : List Bool) : List Bool :=
  let d1 := d.getD 0 false
  let d2 := d.getD 1 false
  let d3 := d.getD 2 false
  let d4 := d.getD 3 false
  let p1 := d1 ^^ d2 ^^ d4
  let p2 := d1 ^^ d3 ^^ d4
  let p3 := d2 ^^ d3 ^^ d4
  [p1, p2, d1, p3, d2, d3, d4]

def encode (bits : List Bool) : List Bool :=
  (chunks 4 (padToMultiple bits 4)).flatMap encodeBlock

/-- The body of the loop of `decode`. -/
def decodeBlock (c : List Bool) : List Bool :=
  let pos := false :: c
  let s1 := pos.getD 1 false ^^ pos.getD 3 false ^^ pos.getD 5 false ^^ pos.getD 7 false
  let s2 := pos.getD 2 false ^^ pos.getD 3 false ^^ pos.getD 6 false ^^ pos.getD 7 false
  let s3 := pos.getD 4 false ^^ pos.getD 5 false ^^ pos.getD 6 false ^^ pos.getD 7 false
  let syndrome := s1.toNat + s2.toNat * 2 + s3.toNat * 4
  let pos := if syndrome ≠ 0 then pos.modify syndrome (!·) else pos
  [pos.getD 3 false, pos.getD 5 false, pos.getD 6 false, pos.getD 7 false]

def decode (bits : List Bool) : List Bool :=
  ((chunks 7 bits).filter (·.length = 7)).flatMap decodeBlock

end Hamming74

def Hamming74 : Code where
  encode := Hamming74.encode
  decode := Hamming74.decode

namespace Hamming74

theorem decodeBlock_encodeBlock (d1 d2 d3 d4 : Bool) :
    decodeBlock (encodeBlock [d1, d2, d3, d4]) = [d1, d2, d3, d4] := by
  revert d1 d2 d3 d4
  decide

theorem decodeBlock_flip (d1 d2 d3 d4 : Bool) {j : ℕ} (hj : j < 7) :
    decodeBlock ((encodeBlock [d1, d2, d3, d4]).modify j (!·)) = [d1, d2, d3, d4] := by
  revert d1 d2 d3 d4 j
  decide

theorem corrects : Corrects 4 7 1 encodeBlock decodeBlock where
  length _ := rfl
  decode {block word} hblock hword herrors := by
    obtain ⟨d1, d2, d3, d4, rfl⟩ := List.length_eq_four.mp hblock
    rcases eq_or_flip rfl hword herrors with rfl | ⟨j, hj, rfl⟩
    · exact decodeBlock_encodeBlock d1 d2 d3 d4
    · exact decodeBlock_flip d1 d2 d3 d4 hj

/-- A received stream is decoded to the padded bits if no word has two wrong bits. -/
theorem decode_eq {bits received : List Bool} (hlow : (encode bits).length ≤ received.length)
    (hhigh : received.length < (encode bits).length + 7)
    (herrors : ∀ i < (encode bits).length / 7, errors 7 (encode bits) received i ≤ 1) :
    decode received = padToMultiple bits 4 := by
  obtain ⟨blocks, hblocks, hflatten⟩ := exists_blocks_padToMultiple (n := 4) (by decide) bits
  have hencode : encode bits = blocks.flatMap encodeBlock := by
    rw [encode, ← hflatten, chunks_flatten (by decide) hblocks]
  have hlength : (blocks.flatMap encodeBlock).length = 7 * blocks.length := by
    rw [List.length_flatMap]
    simp [encodeBlock, Nat.mul_comm]
  rw [hencode] at hlow hhigh herrors
  rw [hlength, Nat.mul_div_cancel_left _ (by decide)] at herrors
  rw [← hflatten]
  exact corrects.decode_stream (by decide) hblocks hlow hhigh herrors

end Hamming74

end Zenith.Rf
