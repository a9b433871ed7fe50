import Zenith.Bpv7.Eid

/-!
# Blocks and bundles

The data of a bundle, the identity under which nodes know it, its expiry, and the two checksums.
-/

namespace Zenith.Bpv7

open Go Cbor

/-! ## DTN time and checksums -/

/-- 2000-01-01T00:00:00Z. -/
def dtnEpoch : Time := 946684800 * second

/-- `FromDTNTime`: the conversion to a `time.Duration` and the product both wrap. -/
def FromDTNTime (ms : UInt64) : Time :=
  dtnEpoch + wrapInt64 (wrapInt64 ms.toNat * millisecond)

/-- `DTNTime`: instants before the epoch count as the epoch. -/
def DTNTime (t : Time) : UInt64 :=
  let ms := (timeSub t dtnEpoch).tdiv millisecond
  if ms < 0 then 0 else UInt64.ofNat ms.toNat

structure CreationTimestamp where
  time : UInt64
  sequenceNumber : UInt64
  deriving DecidableEq, Repr

/-- One turn of the inner loop of `crc16X25`. -/
def crc16Shift (crc : UInt16) : UInt16 :=
  if crc &&& 1 ≠ 0 then crc >>> 1 ^^^ 0x8408 else crc >>> 1

def crc16Byte (crc : UInt16) (b : UInt8) : UInt16 :=
  crc16Shift^[8] (crc ^^^ b.toUInt16)

def crc16X25 (data : List UInt8) : UInt16 := data.foldl crc16Byte 0xFFFF ^^^ 0xFFFF

def crc32Shift (crc : UInt32) : UInt32 :=
  if crc &&& 1 ≠ 0 then crc >>> 1 ^^^ 0x82f63b78 else crc >>> 1

def crc32Byte (crc : UInt32) (b : UInt8) : UInt32 :=
  crc32Shift^[8] (crc ^^^ b.toUInt32)

/-- `crc32.Checksum` with the Castagnoli table, bit by bit. -/
def crc32c (data : List UInt8) : UInt32 := data.foldl crc32Byte 0xFFFFFFFF ^^^ 0xFFFFFFFF

/-! ## Blocks -/

def CRCNone : UInt64 := 0
def CRC16 : UInt64 := 1
def CRC32 : UInt64 := 2

def BlockTypePayload : UInt64 := 1

def PayloadBlockNumber : UInt64 := 1

def FlagIsFragment : UInt64 := (1 : UInt64) <<< 0

structure PrimaryBlock where
  version : UInt64
  flags : UInt64
  crcType : UInt64
  destination : EndpointID
  source : EndpointID
  reportTo : EndpointID
  creationTime : CreationTimestamp
  lifetime : UInt64
  fragmentOffset : UInt64
  totalADULength : UInt64
  deriving DecidableEq, Repr

def PrimaryBlock.isFragment (p : PrimaryBlock) : Bool := p.flags &&& FlagIsFragment ≠ 0

structure CanonicalBlock where
  type : UInt64
  number : UInt64
  flags : UInt64
  crcType : UInt64
  data : List UInt8
  deriving DecidableEq, Repr

def crcLen (crcType : UInt64) : Except BundleError ℕ :=
  if crcType = CRCNone then .ok 0
  else if crcType = CRC16 then .ok 2
  else if crcType = CRC32 then .ok 4
  else .error (.unknownCRCType crcType)

/-! ## Bundles -/

def Version : UInt64 := 7

structure Bundle where
  primary : PrimaryBlock
  canonical : List CanonicalBlock
  deriving DecidableEq, Repr

namespace Bundle

/-- The payload block's data, or `nil`. -/
def payload (b : Bundle) : Option (List UInt8) :=
  (b.canonical.find? (·.type = BlockTypePayload)).map (·.data)

/-- `ID`. -/
def id (b : Bundle) : GoString :=
  let p := b.primary
  let id := p.source.string ++ lit "|" ++ decimal p.creationTime.time.toNat ++ lit "|" ++
    decimal p.creationTime.sequenceNumber.toNat
  if p.isFragment then
    id ++ lit "|" ++ decimal p.fragmentOffset.toNat ++ lit "|" ++ decimal p.totalADULength.toNat
  else id

/-- `Expired`; the lifetime wraps like the creation time. -/
def expired (b : Bundle) (now : Time) : Bool :=
  if b.primary.creationTime.time = 0 then false
  else
    let created := FromDTNTime b.primary.creationTime.time
    let deadline := created + wrapInt64 (wrapInt64 b.primary.lifetime.toNat * millisecond)
    deadline < now

/-! ## Expiry in exact arithmetic -/

/-- The end of the lifetime, computed without wrapping. -/
def deadline (b : Bundle) : Time :=
  dtnEpoch + b.primary.creationTime.time.toNat * millisecond +
    b.primary.lifetime.toNat * millisecond

/-- The deadline that `Expired` compares with: each of the two products is wrapped. -/
def wrappedDeadline (b : Bundle) : Time :=
  dtnEpoch + wrapInt64 (b.primary.creationTime.time.toNat * millisecond) +
    wrapInt64 (b.primary.lifetime.toNat * millisecond)

/-- A number of milliseconds fits a `time.Duration`. -/
def FitsMillis (ms : UInt64) : Prop := (ms.toNat : ℤ) * millisecond < 2 ^ 63

theorem expired_eq_true_iff {b : Bundle} (hclock : b.primary.creationTime.time ≠ 0) (now : Time) :
    b.expired now = true ↔ b.wrappedDeadline < now := by
  unfold expired wrappedDeadline FromDTNTime
  rw [if_neg hclock]
  simp only [wrapInt64_wrapInt64_mul, decide_eq_true_eq]

theorem wrapInt64_millis_le (ms : UInt64) :
    wrapInt64 (ms.toNat * millisecond) ≤ ms.toNat * millisecond := by
  apply wrapInt64_le
  unfold millisecond
  omega

theorem wrapInt64_millis_eq_iff (ms : UInt64) :
    wrapInt64 (ms.toNat * millisecond) = ms.toNat * millisecond ↔ FitsMillis ms := by
  apply wrapInt64_eq_self_iff
  unfold millisecond
  omega

/-- Wrapping only ever shortens a lifetime. -/
theorem wrappedDeadline_le (b : Bundle) : b.wrappedDeadline ≤ b.deadline := by
  have hcreated := wrapInt64_millis_le b.primary.creationTime.time
  have hlifetime := wrapInt64_millis_le b.primary.lifetime
  unfold wrappedDeadline deadline
  linarith

theorem wrappedDeadline_eq_iff (b : Bundle) :
    b.wrappedDeadline = b.deadline ↔
      FitsMillis b.primary.creationTime.time ∧ FitsMillis b.primary.lifetime := by
  have hcreated := wrapInt64_millis_le b.primary.creationTime.time
  have hlifetime := wrapInt64_millis_le b.primary.lifetime
  rw [← wrapInt64_millis_eq_iff, ← wrapInt64_millis_eq_iff]
  unfold wrappedDeadline deadline
  constructor
  · intro heq
    constructor <;> linarith
  · intro ⟨hcreated', hlifetime'⟩
    rw [hcreated', hlifetime']

/-- A bundle expires when its lifetime has elapsed, at every instant, exactly when its creation time
and its lifetime each fit a `time.Duration`; otherwise it is dropped early, and only early. -/
theorem expired_exact_iff (b : Bundle) (hclock : b.primary.creationTime.time ≠ 0) :
    ((∀ now, b.expired now = true ↔ b.deadline < now) ↔
        FitsMillis b.primary.creationTime.time ∧ FitsMillis b.primary.lifetime) ∧
      ∀ now, (b.expired now = true ↔ b.deadline < now) ↔
        now ≤ b.wrappedDeadline ∨ b.deadline < now := by
  have hle := b.wrappedDeadline_le
  constructor
  · rw [← wrappedDeadline_eq_iff]
    simp only [expired_eq_true_iff hclock]
    constructor
    · intro hexact
      apply le_antisymm hle
      by_contra hearly
      have hlater := (hexact b.deadline).mp (not_le.mp hearly)
      exact lt_irrefl _ hlater
    · intro heq now
      rw [heq]
  · intro now
    rw [expired_eq_true_iff hclock]
    constructor
    · intro hexact
      by_contra hnone
      push Not at hnone
      exact absurd (hexact.mp hnone.1) (not_lt.mpr hnone.2)
    · intro hcondition
      rcases hcondition with hbefore | hafter
      · exact iff_of_false (not_lt.mpr hbefore) (not_lt.mpr (hbefore.trans hle))
      · exact iff_of_true (hle.trans_lt hafter) hafter

/-- A bundle of the first millisecond of DTN time. -/
def createdFirst (lifetime : UInt64) : Bundle where
  primary := ⟨Version, 0, CRCNone, IPN 2 1, IPN 1 1, NullEndpoint, ⟨1, 0⟩, lifetime, 0, 0⟩
  canonical := [⟨BlockTypePayload, PayloadBlockNumber, 0, CRCNone, []⟩]

theorem expired_exact_iff_oneHour : FitsMillis (createdFirst 3600000).primary.lifetime ∧
    ∀ now, (createdFirst 3600000).expired now = true ↔ (createdFirst 3600000).deadline < now := by
  have hlifetime : FitsMillis (createdFirst 3600000).primary.lifetime := by
    unfold FitsMillis
    decide
  refine ⟨hlifetime, (expired_exact_iff (createdFirst 3600000) (by decide)).1.mpr ⟨?_, hlifetime⟩⟩
  unfold FitsMillis
  decide

/-- A lifetime of 292 years and four months has elapsed a second after the bundle was made. -/
theorem expired_early : (createdFirst 9223372036855).expired (dtnEpoch + second) = true ∧
    ¬(createdFirst 9223372036855).deadline < dtnEpoch + second := by
  decide +kernel

end Bundle

end Zenith.Bpv7
