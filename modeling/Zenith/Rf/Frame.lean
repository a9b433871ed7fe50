import Mathlib

/-!
# Space packets

The primary header of `frame.rs` packs its fields into three words, which the fields within their ranges
determine and are determined by. A `usize` is a natural number.
-/

namespace Zenith.Rf

inductive PacketType
  | telemetry
  | telecommand
  deriving DecidableEq, Repr

inductive SequenceFlags
  | continuation
  | first
  | last
  | unsegmented
  deriving DecidableEq, Repr

namespace SequenceFlags

def bits : SequenceFlags → UInt8
  | continuation => 0b00
  | first => 0b01
  | last => 0b10
  | unsegmented => 0b11

def fromBits (b : UInt8) : SequenceFlags :=
  match b &&& 0b11 with
  | 0b00 => continuation
  | 0b01 => first
  | 0b10 => last
  | _ => unsegmented

end SequenceFlags

inductive FrameError
  | fieldOutOfRange (field : String) (value : Int64)
  | unsupportedVersion (version : UInt16)
  | truncated
  | lengthMismatch (declared actual : ℕ)
  deriving DecidableEq, Repr

@[ext]
structure SpacePacketHeader where
  apid : UInt16
  packetType : PacketType
  secondaryHeader : Bool
  sequenceFlags : SequenceFlags
  sequenceCount : UInt16
  dataLen : ℕ
  deriving DecidableEq, Repr

def maxApid : UInt16 := 0x7FF
def maxSequenceCount : UInt16 := 0x3FFF
def maxDataLen : ℕ := 0x10000

/-- `u16::to_be_bytes`. -/
def toBeBytes (word : UInt16) : Vector UInt8 2 := #v[(word >>> 8).toUInt8, word.toUInt8]

/-- `u16::from_be_bytes`. -/
def fromBeBytes (high low : UInt8) : UInt16 := high.toUInt16 <<< 8 ||| low.toUInt16

namespace SpacePacketHeader

def typeBit (header : SpacePacketHeader) : UInt16 :=
  match header.packetType with
  | .telemetry => 0
  | .telecommand => 1

/-- Version, type, secondary header flag and APID. -/
def word0 (header : SpacePacketHeader) : UInt16 :=
  (0 : UInt16) <<< 13 ||| header.typeBit <<< 12 ||| header.secondaryHeader.toUInt16 <<< 11 |||
    (header.apid &&& maxApid)

def word1 (header : SpacePacketHeader) : UInt16 :=
  header.sequenceFlags.bits.toUInt16 <<< 14 ||| (header.sequenceCount &&& maxSequenceCount)

def word2 (header : SpacePacketHeader) : UInt16 := UInt16.ofNat (header.dataLen - 1)

def toBytes (header : SpacePacketHeader) : Except FrameError (Vector UInt8 6) :=
  if header.apid > maxApid then
    .error (.fieldOutOfRange "apid" (Int64.ofNat header.apid.toNat))
  else if header.sequenceCount > maxSequenceCount then
    .error (.fieldOutOfRange "sequence_count" (Int64.ofNat header.sequenceCount.toNat))
  else if header.dataLen = 0 ∨ header.dataLen > maxDataLen then
    .error (.fieldOutOfRange "data_len" (Int64.ofNat header.dataLen))
  else .ok (toBeBytes header.word0 ++ toBeBytes header.word1 ++ toBeBytes header.word2)

/-- The header that three words say, but for the version. -/
def ofWords (word0 word1 word2 : UInt16) : SpacePacketHeader where
  apid := word0 &&& maxApid
  packetType := if (word0 >>> 12) &&& 1 = 1 then .telecommand else .telemetry
  secondaryHeader := (word0 >>> 11) &&& 1 = 1
  sequenceFlags := .fromBits (word1 >>> 14).toUInt8
  sequenceCount := word1 &&& maxSequenceCount
  dataLen := word2.toNat + 1

def fromBytes (b : Vector UInt8 6) : Except FrameError SpacePacketHeader :=
  let word0 := fromBeBytes b[0] b[1]
  let word1 := fromBeBytes b[2] b[3]
  let word2 := fromBeBytes b[4] b[5]
  let version := (word0 >>> 13) &&& 0b111
  if version ≠ 0 then .error (.unsupportedVersion version) else .ok (ofWords word0 word1 word2)

end SpacePacketHeader

structure SpacePacket where
  header : SpacePacketHeader
  data : List UInt8
  deriving DecidableEq, Repr

/-- The first six bytes. -/
def headerBytes (bytes : List UInt8) (h : 6 ≤ bytes.length) : Vector UInt8 6 :=
  ⟨(bytes.take 6).toArray, by simpa using h⟩

namespace SpacePacket

/-- `SpacePacket::new`. -/
def new (header : SpacePacketHeader) (data : List UInt8) : Except FrameError SpacePacket := do
  let header := { header with dataLen := data.length }
  let _ ← header.toBytes
  .ok { header, data }

def toBytes (p : SpacePacket) : Except FrameError (List UInt8) := do
  let out ← p.header.toBytes
  .ok (out.toList ++ p.data)

def fromBytes (bytes : List UInt8) : Except FrameError SpacePacket :=
  if h : 6 ≤ bytes.length then do
    let header ← SpacePacketHeader.fromBytes (headerBytes bytes h)
    let data := bytes.drop 6
    if data.length ≠ header.dataLen then .error (.lengthMismatch header.dataLen data.length)
    else .ok { header, data }
  else .error .truncated

end SpacePacket

/-! ## Words -/

/-- Bits below a multiple of `2 ^ w` are added to it. -/
theorem or_eq_add {a b w : ℕ} (ha : 2 ^ w ∣ a) (hb : b < 2 ^ w) : a ||| b = a + b := by
  obtain ⟨c, rfl⟩ := ha
  exact (Nat.two_pow_add_eq_or_of_lt hb c).symm

theorem toNat_shiftLeft_of_lt {x : UInt16} {k : ℕ} (hk : k < 16) (hx : x.toNat * 2 ^ k < 2 ^ 16) :
    (x <<< UInt16.ofNat k).toNat = x.toNat * 2 ^ k := by
  have hshift : (UInt16.ofNat k).toNat % 16 = k := by
    rw [UInt16.toNat_ofNat']
    omega
  rw [UInt16.toNat_shiftLeft, hshift, Nat.shiftLeft_eq, Nat.mod_eq_of_lt hx]

theorem toNat_fromBeBytes (high low : UInt8) :
    (fromBeBytes high low).toNat = high.toNat * 2 ^ 8 + low.toNat := by
  have hhigh : high.toUInt16.toNat * 2 ^ 8 < 2 ^ 16 := by
    rw [UInt8.toNat_toUInt16]
    have := high.toNat_lt
    omega
  have hshift : (high.toUInt16 <<< 8 : UInt16).toNat = high.toUInt16.toNat * 2 ^ 8 :=
    toNat_shiftLeft_of_lt (by decide) hhigh
  unfold fromBeBytes
  rw [UInt16.toNat_or, hshift, UInt8.toNat_toUInt16, UInt8.toNat_toUInt16]
  exact or_eq_add ⟨high.toNat, mul_comm _ _⟩ low.toNat_lt

theorem toNat_high (word : UInt16) : (word >>> 8).toUInt8.toNat = word.toNat / 2 ^ 8 := by
  have hword := word.toNat_lt
  have hshift : (word >>> 8).toNat = word.toNat / 2 ^ 8 := by
    rw [UInt16.toNat_shiftRight, Nat.shiftRight_eq_div_pow]
    rfl
  rw [UInt16.toNat_toUInt8, hshift]
  omega

theorem fromBeBytes_toBeBytes (word : UInt16) :
    fromBeBytes (toBeBytes word)[0] (toBeBytes word)[1] = word := by
  apply UInt16.toNat_inj.mp
  have hlow : word.toUInt8.toNat = word.toNat % 2 ^ 8 := word.toNat_toUInt8
  calc
    (fromBeBytes (toBeBytes word)[0] (toBeBytes word)[1]).toNat =
        (word >>> 8).toUInt8.toNat * 2 ^ 8 + word.toUInt8.toNat := toNat_fromBeBytes _ _
    _ = word.toNat / 2 ^ 8 * 2 ^ 8 + word.toNat % 2 ^ 8 := by rw [toNat_high, hlow]
    _ = word.toNat := Nat.div_add_mod' _ _

theorem toBeBytes_fromBeBytes (high low : UInt8) :
    toBeBytes (fromBeBytes high low) = #v[high, low] := by
  have hword := toNat_fromBeBytes high low
  have hbound := low.toNat_lt
  have hhigh : ((fromBeBytes high low) >>> 8).toUInt8 = high := by
    apply UInt8.toNat_inj.mp
    rw [toNat_high, hword]
    omega
  have hlow : (fromBeBytes high low).toUInt8 = low := by
    apply UInt8.toNat_inj.mp
    rw [UInt16.toNat_toUInt8, hword]
    omega
  simp only [toBeBytes, hhigh, hlow]

theorem toNat_and_mask (x : UInt16) {mask : UInt16} {w : ℕ} (hmask : mask.toNat = 2 ^ w - 1) :
    (x &&& mask).toNat = x.toNat % 2 ^ w := by
  rw [UInt16.toNat_and, hmask, Nat.and_two_pow_sub_one_eq_mod]

theorem toNat_shiftRight_of_lt (x : UInt16) {k : ℕ} (hk : k < 16) :
    (x >>> UInt16.ofNat k).toNat = x.toNat / 2 ^ k := by
  have hshift : (UInt16.ofNat k).toNat % 16 = k := by
    rw [UInt16.toNat_ofNat']
    omega
  rw [UInt16.toNat_shiftRight, hshift, Nat.shiftRight_eq_div_pow]

/-- The bit at position `k`. -/
theorem bit_eq_one_iff (x : UInt16) {k : ℕ} (hk : k < 16) :
    (x >>> UInt16.ofNat k) &&& 1 = 1 ↔ x.toNat / 2 ^ k % 2 = 1 := by
  rw [← UInt16.toNat_inj, toNat_and_mask (w := 1) _ rfl, toNat_shiftRight_of_lt x hk]
  rfl

/-! ## Fields of the header -/

theorem SequenceFlags.bits_lt (flags : SequenceFlags) : flags.bits.toNat < 4 := by
  cases flags <;> decide

theorem SequenceFlags.fromBits_bits (flags : SequenceFlags) : fromBits flags.bits = flags := by
  cases flags <;> rfl

theorem SequenceFlags.bits_fromBits {b : UInt8} (h : b.toNat < 4) : (fromBits b).bits = b := by
  have hb : b = 0 ∨ b = 1 ∨ b = 2 ∨ b = 3 := by
    simp only [← UInt8.toNat_inj]
    change b.toNat = 0 ∨ b.toNat = 1 ∨ b.toNat = 2 ∨ b.toNat = 3
    omega
  rcases hb with rfl | rfl | rfl | rfl <;> rfl

theorem toNat_flagBits (word1 : UInt16) :
    (word1 >>> 14).toUInt8.toNat = word1.toNat / 2 ^ 14 := by
  have hword := word1.toNat_lt
  have hshift : (word1 >>> 14).toNat = word1.toNat / 2 ^ 14 :=
    toNat_shiftRight_of_lt (k := 14) word1 (by decide)
  rw [UInt16.toNat_toUInt8, hshift]
  omega

namespace SpacePacketHeader

variable (header : SpacePacketHeader)

theorem typeBit_lt : header.typeBit.toNat < 2 := by
  unfold typeBit
  cases header.packetType <;> decide

theorem toNat_toUInt16 (flag : Bool) : flag.toUInt16.toNat = flag.toNat := by
  cases flag <;> rfl

theorem toNat_word0 : header.word0.toNat =
    header.typeBit.toNat * 2 ^ 12 + header.secondaryHeader.toNat * 2 ^ 11 +
      header.apid.toNat % 2 ^ 11 := by
  have htype := header.typeBit_lt
  have hsecondary : header.secondaryHeader.toNat < 2 := Bool.toNat_lt _
  have hversion : ((0 : UInt16) <<< 13).toNat = 0 := rfl
  have htypeBit : (header.typeBit <<< 12).toNat = header.typeBit.toNat * 2 ^ 12 :=
    toNat_shiftLeft_of_lt (k := 12) (by decide) (by omega)
  have hflag : (header.secondaryHeader.toUInt16 <<< 11).toNat =
      header.secondaryHeader.toNat * 2 ^ 11 := by
    rw [← toNat_toUInt16]
    apply toNat_shiftLeft_of_lt (k := 11) (by decide)
    rw [toNat_toUInt16]
    omega
  have hapid : (header.apid &&& maxApid).toNat = header.apid.toNat % 2 ^ 11 :=
    toNat_and_mask _ rfl
  have hlow := Nat.mod_lt header.apid.toNat (show 2 ^ 11 > 0 by decide)
  unfold word0
  rw [UInt16.toNat_or, UInt16.toNat_or, UInt16.toNat_or, hversion, htypeBit, hflag, hapid,
    Nat.zero_or, or_eq_add (w := 12) ⟨_, mul_comm _ _⟩ (by omega), or_eq_add (w := 11) (by omega) hlow]

theorem toNat_word1 : header.word1.toNat =
    header.sequenceFlags.bits.toNat * 2 ^ 14 + header.sequenceCount.toNat % 2 ^ 14 := by
  have hbits := header.sequenceFlags.bits_lt
  have hflags : (header.sequenceFlags.bits.toUInt16 <<< 14).toNat =
      header.sequenceFlags.bits.toNat * 2 ^ 14 := by
    rw [← UInt8.toNat_toUInt16]
    apply toNat_shiftLeft_of_lt (k := 14) (by decide)
    rw [UInt8.toNat_toUInt16]
    omega
  have hcount : (header.sequenceCount &&& maxSequenceCount).toNat =
      header.sequenceCount.toNat % 2 ^ 14 := toNat_and_mask _ rfl
  have hlow := Nat.mod_lt header.sequenceCount.toNat (show 2 ^ 14 > 0 by decide)
  unfold word1
  rw [UInt16.toNat_or, hflags, hcount, or_eq_add ⟨_, mul_comm _ _⟩ hlow]

theorem toNat_word2 (h : header.dataLen ≤ maxDataLen) : header.word2.toNat = header.dataLen - 1 := by
  unfold maxDataLen at h
  unfold word2
  rw [UInt16.toNat_ofNat']
  omega

/-- What `to_bytes` checks. -/
structure InRange : Prop where
  apid : header.apid.toNat ≤ 2047
  sequenceCount : header.sequenceCount.toNat ≤ 16383
  dataLen_pos : 1 ≤ header.dataLen
  dataLen_le : header.dataLen ≤ 65536

variable {header}

theorem typeBit_eq_one_iff : header.typeBit.toNat = 1 ↔ header.packetType = .telecommand := by
  unfold typeBit
  cases header.packetType <;> decide

/-- The words determine a header within its ranges. -/
theorem InRange.ofWords_words (h : header.InRange) :
    ofWords header.word0 header.word1 header.word2 = header := by
  have htype := header.typeBit_lt
  have hbits := header.sequenceFlags.bits_lt
  have hsecondary : header.secondaryHeader.toNat < 2 := Bool.toNat_lt _
  have hword0 := header.toNat_word0
  have hword1 := header.toNat_word1
  have hword2 := header.toNat_word2 h.dataLen_le
  have hcount := h.sequenceCount
  have hapid := h.apid
  have hpos := h.dataLen_pos
  apply SpacePacketHeader.ext
  · apply UInt16.toNat_inj.mp
    exact (toNat_and_mask (w := 11) _ rfl).trans (by omega)
  · have hbit : header.word0.toNat / 2 ^ 12 % 2 = header.typeBit.toNat := by omega
    have hiff : header.word0 >>> 12 &&& 1 = 1 ↔ header.packetType = .telecommand := by
      rw [← typeBit_eq_one_iff, ← hbit]
      exact bit_eq_one_iff (k := 12) _ (by decide)
    apply (if_congr hiff rfl rfl).trans
    cases header.packetType <;> rfl
  · have hbit : header.word0.toNat / 2 ^ 11 % 2 = header.secondaryHeader.toNat := by omega
    have hiff : header.word0 >>> 11 &&& 1 = 1 ↔ header.secondaryHeader = true := by
      rw [← Bool.toNat_eq_one, ← hbit]
      exact bit_eq_one_iff (k := 11) _ (by decide)
    apply (decide_eq_decide.mpr hiff).trans
    exact Bool.decide_coe _
  · have hflags : (header.word1 >>> 14).toUInt8 = header.sequenceFlags.bits := by
      apply UInt8.toNat_inj.mp
      rw [toNat_flagBits]
      omega
    exact (congrArg SequenceFlags.fromBits hflags).trans header.sequenceFlags.fromBits_bits
  · apply UInt16.toNat_inj.mp
    exact (toNat_and_mask (w := 14) _ rfl).trans (by omega)
  · change header.word2.toNat + 1 = header.dataLen
    omega

theorem version_eq (word0 : UInt16) : (word0 >>> 13 &&& 0b111).toNat = word0.toNat / 2 ^ 13 := by
  have hword := word0.toNat_lt
  have hshift : (word0 >>> 13).toNat = word0.toNat / 2 ^ 13 :=
    toNat_shiftRight_of_lt (k := 13) word0 (by decide)
  rw [toNat_and_mask (w := 3) _ rfl, hshift]
  omega

theorem version_word0 (header : SpacePacketHeader) : header.word0 >>> 13 &&& 0b111 = 0 := by
  have htype := header.typeBit_lt
  have hsecondary : header.secondaryHeader.toNat < 2 := Bool.toNat_lt _
  have hword0 := header.toNat_word0
  apply UInt16.toNat_inj.mp
  rw [version_eq]
  change header.word0.toNat / 2 ^ 13 = 0
  omega

section OfWords

variable (word0 word1 word2 : UInt16)

theorem inRange_ofWords : (ofWords word0 word1 word2).InRange := by
  have hapid : (word0 &&& maxApid).toNat = word0.toNat % 2 ^ 11 := toNat_and_mask _ rfl
  have hcount : (word1 &&& maxSequenceCount).toNat = word1.toNat % 2 ^ 14 := toNat_and_mask _ rfl
  have hword := word2.toNat_lt
  refine ⟨?_, ?_, Nat.le_add_left 1 _, hword⟩
  · change (word0 &&& maxApid).toNat ≤ 2047
    omega
  · change (word1 &&& maxSequenceCount).toNat ≤ 16383
    omega

theorem word0_ofWords (h : word0 >>> 13 &&& 0b111 = 0) :
    (ofWords word0 word1 word2).word0 = word0 := by
  have hversion : word0.toNat / 2 ^ 13 = 0 := by
    rw [← version_eq, h]
    rfl
  have htype : (ofWords word0 word1 word2).typeBit.toNat = word0.toNat / 2 ^ 12 % 2 := by
    have hiff : word0 >>> 12 &&& 1 = 1 ↔ word0.toNat / 2 ^ 12 % 2 = 1 :=
      bit_eq_one_iff (k := 12) _ (by decide)
    unfold typeBit ofWords
    by_cases hbit : word0 >>> 12 &&& 1 = 1
    · rw [if_pos hbit]
      exact (hiff.mp hbit).symm
    · rw [if_neg hbit]
      exact (Nat.mod_two_ne_one.mp (mt hiff.mpr hbit)).symm
  have hflag : (ofWords word0 word1 word2).secondaryHeader.toNat = word0.toNat / 2 ^ 11 % 2 := by
    have hiff : word0 >>> 11 &&& 1 = 1 ↔ word0.toNat / 2 ^ 11 % 2 = 1 :=
      bit_eq_one_iff (k := 11) _ (by decide)
    unfold ofWords
    by_cases hbit : word0 >>> 11 &&& 1 = 1
    · rw [decide_eq_true hbit, hiff.mp hbit]
      rfl
    · rw [decide_eq_false hbit, Nat.mod_two_ne_one.mp (mt hiff.mpr hbit)]
      rfl
  have hapid : (ofWords word0 word1 word2).apid.toNat = word0.toNat % 2 ^ 11 :=
    toNat_and_mask _ rfl
  apply UInt16.toNat_inj.mp
  rw [toNat_word0, htype, hflag, hapid]
  omega

theorem word1_ofWords : (ofWords word0 word1 word2).word1 = word1 := by
  have hword := word1.toNat_lt
  have hbits : (ofWords word0 word1 word2).sequenceFlags.bits = (word1 >>> 14).toUInt8 := by
    apply SequenceFlags.bits_fromBits
    rw [toNat_flagBits]
    omega
  have hcount : (ofWords word0 word1 word2).sequenceCount.toNat = word1.toNat % 2 ^ 14 :=
    toNat_and_mask _ rfl
  apply UInt16.toNat_inj.mp
  rw [toNat_word1, hbits, hcount, toNat_flagBits]
  omega

theorem word2_ofWords : (ofWords word0 word1 word2).word2 = word2 := by
  apply UInt16.toNat_inj.mp
  rw [toNat_word2 _ (inRange_ofWords word0 word1 word2).dataLen_le]
  rfl

end OfWords

/-! ## Serializing headers -/

/-- The six bytes of three words. -/
def wire (header : SpacePacketHeader) : Vector UInt8 6 :=
  toBeBytes header.word0 ++ toBeBytes header.word1 ++ toBeBytes header.word2

theorem toBytes_eq_ok {header : SpacePacketHeader} {b : Vector UInt8 6} :
    header.toBytes = .ok b ↔ header.InRange ∧ header.wire = b := by
  have hapid : header.apid > maxApid ↔ ¬header.apid.toNat ≤ 2047 := by
    rw [not_le]
    exact UInt16.lt_iff_toNat_lt
  have hcount : header.sequenceCount > maxSequenceCount ↔ ¬header.sequenceCount.toNat ≤ 16383 := by
    rw [not_le]
    exact UInt16.lt_iff_toNat_lt
  have hlen : header.dataLen = 0 ∨ header.dataLen > maxDataLen ↔
      ¬(1 ≤ header.dataLen ∧ header.dataLen ≤ 65536) := by
    unfold maxDataLen
    omega
  unfold toBytes
  constructor
  · intro h
    split_ifs at h with h1 h2 h3
    rw [hapid, not_not] at h1
    rw [hcount, not_not] at h2
    rw [hlen, not_not] at h3
    exact ⟨⟨h1, h2, h3.1, h3.2⟩, Except.ok.inj h⟩
  · intro ⟨hrange, hb⟩
    rw [if_neg (hapid.not.mpr (not_not.mpr hrange.apid)),
      if_neg (hcount.not.mpr (not_not.mpr hrange.sequenceCount)),
      if_neg (hlen.not.mpr (not_not.mpr ⟨hrange.dataLen_pos, hrange.dataLen_le⟩))]
    exact congrArg Except.ok hb

theorem fromBytes_wire {header : SpacePacketHeader} (h : header.InRange) :
    fromBytes header.wire = .ok header := by
  have h0 : fromBeBytes header.wire[0] header.wire[1] = header.word0 := fromBeBytes_toBeBytes _
  have h1 : fromBeBytes header.wire[2] header.wire[3] = header.word1 := fromBeBytes_toBeBytes _
  have h2 : fromBeBytes header.wire[4] header.wire[5] = header.word2 := fromBeBytes_toBeBytes _
  unfold fromBytes
  dsimp only
  rw [h0, h1, h2, if_neg (not_not.mpr header.version_word0), h.ofWords_words]

theorem fromBytes_eq_ok {b : Vector UInt8 6} {header : SpacePacketHeader} :
    fromBytes b = .ok header ↔ header.InRange ∧ header.wire = b := by
  constructor
  · intro h
    unfold fromBytes at h
    dsimp only at h
    split_ifs at h with hversion
    rw [not_not] at hversion
    rw [← Except.ok.inj h]
    refine ⟨inRange_ofWords _ _ _, ?_⟩
    unfold wire
    rw [word0_ofWords _ _ _ hversion, word1_ofWords, word2_ofWords, toBeBytes_fromBeBytes,
      toBeBytes_fromBeBytes, toBeBytes_fromBeBytes]
    ext i hi
    interval_cases i <;> rfl
  · rintro ⟨hrange, rfl⟩
    exact fromBytes_wire hrange

end SpacePacketHeader

/-! ## Packets -/

namespace SpacePacket

theorem toBytes_eq_ok {p : SpacePacket} {bytes : List UInt8} :
    p.toBytes = .ok bytes ↔ p.header.InRange ∧ p.header.wire.toList ++ p.data = bytes := by
  unfold toBytes
  constructor
  · intro h
    cases hheader : p.header.toBytes with
    | error err =>
      rw [hheader] at h
      cases h
    | ok out =>
      rw [hheader] at h
      obtain ⟨hrange, rfl⟩ := SpacePacketHeader.toBytes_eq_ok.mp hheader
      exact ⟨hrange, Except.ok.inj h⟩
  · intro ⟨hrange, hbytes⟩
    rw [SpacePacketHeader.toBytes_eq_ok.mpr ⟨hrange, rfl⟩]
    exact congrArg Except.ok hbytes

theorem headerBytes_append (b : Vector UInt8 6) (data : List UInt8)
    (h : 6 ≤ (b.toList ++ data).length) : headerBytes (b.toList ++ data) h = b := by
  apply Vector.toList_inj.mp
  change (b.toList ++ data).take 6 = b.toList
  exact List.take_left' b.length_toList

theorem headerBytes_toList (bytes : List UInt8) (h : 6 ≤ bytes.length) :
    (headerBytes bytes h).toList ++ bytes.drop 6 = bytes := List.take_append_drop 6 bytes

theorem fromBytes_eq_ok {p : SpacePacket} {bytes : List UInt8} :
    fromBytes bytes = .ok p ↔ p.header.InRange ∧ p.header.dataLen = p.data.length ∧
      p.header.wire.toList ++ p.data = bytes := by
  constructor
  · intro h
    unfold fromBytes at h
    split_ifs at h with hlen
    cases hheader : SpacePacketHeader.fromBytes (headerBytes bytes hlen) with
    | error err =>
      rw [hheader] at h
      cases h
    | ok header =>
      rw [hheader] at h
      change (if (bytes.drop 6).length ≠ header.dataLen then Except.error _ else _) = _ at h
      split_ifs at h with hdata
      rw [← Except.ok.inj h]
      obtain ⟨hrange, hwire⟩ := SpacePacketHeader.fromBytes_eq_ok.mp hheader
      refine ⟨hrange, (not_not.mp hdata).symm, ?_⟩
      dsimp only
      rw [hwire, headerBytes_toList]
  · rintro ⟨hrange, hdata, rfl⟩
    have hlen : 6 ≤ (p.header.wire.toList ++ p.data).length := by simp
    have hdrop : (p.header.wire.toList ++ p.data).drop 6 = p.data :=
      List.drop_left' p.header.wire.length_toList
    unfold fromBytes
    rw [dif_pos hlen, headerBytes_append, SpacePacketHeader.fromBytes_wire hrange, hdrop]
    exact if_neg (not_not.mpr hdata.symm)

theorem new_eq_ok {header : SpacePacketHeader} {data : List UInt8} {p : SpacePacket} :
    new header data = .ok p ↔
      p.header.InRange ∧ p = ⟨{ header with dataLen := data.length }, data⟩ := by
  unfold new
  constructor
  · intro h
    cases hheader : { header with dataLen := data.length : SpacePacketHeader }.toBytes with
    | error err =>
      simp [hheader, bind, Except.bind] at h
    | ok out =>
      simp only [hheader, bind, Except.bind, Except.ok.injEq] at h
      subst h
      exact ⟨(SpacePacketHeader.toBytes_eq_ok.mp hheader).1, rfl⟩
  · rintro ⟨hrange, rfl⟩
    simp only [SpacePacketHeader.toBytes_eq_ok.mpr ⟨hrange, rfl⟩, bind, Except.bind]

/-- `to_bytes` succeeds exactly within the ranges of the fields and `from_bytes` undoes it; `to_bytes`
gives back every byte string that `from_bytes` accepts. -/
theorem codec_bijective :
    (∀ p : SpacePacket, p.header.dataLen = p.data.length →
      ((∃ bytes, p.toBytes = .ok bytes) ↔ p.header.apid ≤ 2047 ∧ p.header.sequenceCount ≤ 16383 ∧
        1 ≤ p.data.length ∧ p.data.length ≤ 65536) ∧
      ∀ bytes, p.toBytes = .ok bytes → fromBytes bytes = .ok p) ∧
    (∀ (bytes : List UInt8) (p : SpacePacket), fromBytes bytes = .ok p → p.toBytes = .ok bytes) ∧
    ∀ (header : SpacePacketHeader) (data : List UInt8) (p : SpacePacket), new header data = .ok p →
      p.header.dataLen = p.data.length ∧
        ∃ bytes, p.toBytes = .ok bytes ∧ fromBytes bytes = .ok p := by
  refine ⟨fun p hdata ↦ ⟨?_, fun bytes h ↦ ?_⟩, fun bytes p h ↦ ?_, fun header data p h ↦ ?_⟩
  · constructor
    · intro ⟨bytes, h⟩
      obtain ⟨hrange, -⟩ := toBytes_eq_ok.mp h
      rw [← hdata]
      exact ⟨UInt16.le_iff_toNat_le.mpr hrange.apid, UInt16.le_iff_toNat_le.mpr hrange.sequenceCount,
        hrange.dataLen_pos, hrange.dataLen_le⟩
    · intro ⟨hapid, hcount, hpos, hle⟩
      rw [← hdata] at hpos hle
      exact ⟨_, toBytes_eq_ok.mpr ⟨⟨UInt16.le_iff_toNat_le.mp hapid,
        UInt16.le_iff_toNat_le.mp hcount, hpos, hle⟩, rfl⟩⟩
  · obtain ⟨hrange, hbytes⟩ := toBytes_eq_ok.mp h
    exact fromBytes_eq_ok.mpr ⟨hrange, hdata, hbytes⟩
  · obtain ⟨hrange, -, hbytes⟩ := fromBytes_eq_ok.mp h
    exact toBytes_eq_ok.mpr ⟨hrange, hbytes⟩
  · obtain ⟨hrange, rfl⟩ := new_eq_ok.mp h
    exact ⟨rfl, _, toBytes_eq_ok.mpr ⟨hrange, rfl⟩, fromBytes_eq_ok.mpr ⟨hrange, rfl, rfl⟩⟩

/-- Telemetry of one byte. -/
def samplePacket : SpacePacket where
  header := ⟨42, .telemetry, false, .unsegmented, 100, 1⟩
  data := [7]

theorem codec_bijective_samplePacket :
    fromBytes [0, 42, 192, 100, 0, 0, 7] = .ok samplePacket :=
  (codec_bijective.1 samplePacket rfl).2 _ (by decide)

end SpacePacket

end Zenith.Rf
