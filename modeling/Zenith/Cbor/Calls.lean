import Zenith.Cbor.Reads

/-!
# How often `decode` is called

The decoder with a counter that each call of `decode` increments. Without the counter it is the
decoder of the source. A call that returns has read at least one byte more than the calls below it,
so that the calls are paid for by the bytes that are left, whatever counts the heads declare; only the
call that fails may have found nothing left to read.
-/

namespace Zenith.Cbor

open Go

/-! ## The decoder with a counter -/

namespace Counted

abbrev DecodeM (α : Type) := Action (Decoder × ℕ) DecodeError α

section Containers

variable (decode : DecodeM Value)

def decodeArrayItems : ℕ → List Value → DecodeM (List Value)
  | 0, out => pure out
  | count + 1, out => do
    let v ← decode
    decodeArrayItems count (out ++ [v])

def decodeArrayUntilBreak : ℕ → List Value → DecodeM (List Value)
  | 0, _ => Action.exhausted
  | fuel + 1, out => do
    let v ← decode
    if v.isBreakMarker then pure out else decodeArrayUntilBreak fuel (out ++ [v])

def decodeArray (fuel : ℕ) (arg : UInt64) (indef : Bool) : DecodeM Value :=
  if indef then do
    let out ← decodeArrayUntilBreak decode fuel []
    pure (.array out)
  else do
    let out ← decodeArrayItems decode arg.toNat []
    pure (.array out)

def decodeMapEntries : ℕ → List (Value × Value) → DecodeM (List (Value × Value))
  | 0, out => pure out
  | count + 1, out => do
    let k ← decode
    let v ← decode
    let out ← Action.lift (assign out k v)
    decodeMapEntries count out

def decodeMapUntilBreak : ℕ → List (Value × Value) → DecodeM (List (Value × Value))
  | 0, _ => Action.exhausted
  | fuel + 1, out => do
    let k ← decode
    if k.isBreakMarker then pure out
    else do
      let v ← decode
      let out ← Action.lift (assign out k v)
      decodeMapUntilBreak fuel out

def decodeMap (fuel : ℕ) (arg : UInt64) (indef : Bool) : DecodeM Value :=
  if indef then do
    let out ← decodeMapUntilBreak decode fuel []
    pure (.map out)
  else do
    let out ← decodeMapEntries decode arg.toNat []
    pure (.map out)

def decodeChunks (major : UInt8) (invalid : DecodeError) : ℕ → List UInt8 → DecodeM (List UInt8)
  | 0, _ => Action.exhausted
  | fuel + 1, out => do
    let v ← decode
    if v.isBreakMarker then pure out
    else match chunkOf major v with
      | none => Action.throw invalid
      | some chunk => decodeChunks major invalid fuel (out ++ chunk)

def decodeIndefBytes (fuel : ℕ) : DecodeM Value := do
  let out ← decodeChunks decode majorBytes .invalidBytesChunk fuel []
  pure (.bytes out)

def decodeIndefText (fuel : ℕ) : DecodeM Value := do
  let out ← decodeChunks decode majorText .invalidTextChunk fuel []
  pure (.text out)

def decodeContent (fuel : ℕ) (major : UInt8) (arg : UInt64) (indef : Bool) : DecodeM Value :=
  if major = majorUint then pure (.uint64 arg)
  else if major = majorNint then pure (.int64 (-1 - arg.toInt64))
  else if major = majorBytes then
    if indef then decodeIndefBytes decode fuel
    else do
      let raw ← Action.lift (readN (wrapInt64 arg.toNat))
      pure (.bytes raw)
  else if major = majorText then
    if indef then decodeIndefText decode fuel
    else do
      let raw ← Action.lift (readN (wrapInt64 arg.toNat))
      pure (.text raw)
  else if major = majorArray then decodeArray decode fuel arg indef
  else if major = majorMap then decodeMap decode fuel arg indef
  else if major = majorTag then do
    let content ← decode
    pure (.tag arg content)
  else Action.throw (.unknownMajor major)

end Containers

/-- The counter goes up on entry. -/
def decode : ℕ → DecodeM Value
  | 0 => Action.exhausted
  | fuel + 1 => do
    Action.tick
    let b ← Action.lift readByte
    if b >>> 5 = majorSimple then Action.lift (decodeSimple (b &&& 0x1f))
    else do
      let (arg, indef) ← Action.lift (readArg (b &&& 0x1f))
      decodeContent (decode fuel) fuel (b >>> 5) arg indef

/-- What `Unmarshal` returns, and the number of calls of `decode` that it makes. -/
def unmarshal (data : List UInt8) : (Outcome DecodeError Value × ℕ) × ℕ :=
  let (result, d, calls) := decode (data.length + 1) (⟨data, 0⟩, 0)
  ((result, d.pos), calls)

/-! ## Bytes pay for calls -/

section Containers

variable {decode : DecodeM Value} {plain : Cbor.DecodeM Value}
  (h : Action.Counts Decoder.remaining decode plain)

theorem readN_counts (n : ℤ) :
    Action.Counts Decoder.remaining (Action.lift (readN n)) (readN n) := .lift (readN_halts 0 n)

theorem assign_counts (out : List (Value × Value)) (k v : Value) :
    Action.Counts Decoder.remaining (Action.lift (assign out k v)) (assign out k v) :=
  .lift (assign_halts 0 out k v)

include h

theorem decodeArrayItems_counts (count : ℕ) (out : List Value) :
    Action.Counts Decoder.remaining (decodeArrayItems decode count out)
      (Cbor.decodeArrayItems plain count out) := by
  induction count generalizing out with
  | zero => exact .pure _
  | succ count ih => exact h.bind fun v ↦ ih _

theorem decodeArrayUntilBreak_counts (fuel : ℕ) (out : List Value) :
    Action.Counts Decoder.remaining (decodeArrayUntilBreak decode fuel out)
      (Cbor.decodeArrayUntilBreak plain fuel out) := by
  induction fuel generalizing out with
  | zero => exact .exhausted
  | succ fuel ih => exact h.bind fun v ↦ .ite (.pure _) (ih _)

theorem decodeArray_counts (fuel : ℕ) (arg : UInt64) (indef : Bool) :
    Action.Counts Decoder.remaining (decodeArray decode fuel arg indef)
      (Cbor.decodeArray plain fuel arg indef) := by
  apply Action.Counts.ite
  · exact (decodeArrayUntilBreak_counts h _ _).bind fun _ ↦ .pure _
  · exact (decodeArrayItems_counts h _ _).bind fun _ ↦ .pure _

theorem decodeMapEntries_counts (count : ℕ) (out : List (Value × Value)) :
    Action.Counts Decoder.remaining (decodeMapEntries decode count out)
      (Cbor.decodeMapEntries plain count out) := by
  induction count generalizing out with
  | zero => exact .pure _
  | succ count ih =>
    exact h.bind fun k ↦ h.bind fun v ↦ (assign_counts out k v).bind fun _ ↦ ih _

theorem decodeMapUntilBreak_counts (fuel : ℕ) (out : List (Value × Value)) :
    Action.Counts Decoder.remaining (decodeMapUntilBreak decode fuel out)
      (Cbor.decodeMapUntilBreak plain fuel out) := by
  induction fuel generalizing out with
  | zero => exact .exhausted
  | succ fuel ih =>
    refine h.bind fun k ↦ .ite (.pure _) ?_
    exact h.bind fun v ↦ (assign_counts out k v).bind fun _ ↦ ih _

theorem decodeMap_counts (fuel : ℕ) (arg : UInt64) (indef : Bool) :
    Action.Counts Decoder.remaining (decodeMap decode fuel arg indef)
      (Cbor.decodeMap plain fuel arg indef) := by
  apply Action.Counts.ite
  · exact (decodeMapUntilBreak_counts h _ _).bind fun _ ↦ .pure _
  · exact (decodeMapEntries_counts h _ _).bind fun _ ↦ .pure _

theorem decodeChunks_counts (major : UInt8) (invalid : DecodeError) (fuel : ℕ) (out : List UInt8) :
    Action.Counts Decoder.remaining (decodeChunks decode major invalid fuel out)
      (Cbor.decodeChunks plain major invalid fuel out) := by
  induction fuel generalizing out with
  | zero => exact .exhausted
  | succ fuel ih =>
    refine h.bind fun v ↦ .ite (.pure _) ?_
    cases chunkOf major v with
    | none => exact .throw _
    | some chunk => exact ih _

theorem decodeContent_counts (fuel : ℕ) (major : UInt8) (arg : UInt64) (indef : Bool) :
    Action.Counts Decoder.remaining (decodeContent decode fuel major arg indef)
      (Cbor.decodeContent plain fuel major arg indef) := by
  unfold decodeContent Cbor.decodeContent
  split_ifs
  · exact .pure _
  · exact .pure _
  · exact (decodeChunks_counts h _ _ _ _).bind fun _ ↦ .pure _
  · exact (readN_counts _).bind fun _ ↦ .pure _
  · exact (decodeChunks_counts h _ _ _ _).bind fun _ ↦ .pure _
  · exact (readN_counts _).bind fun _ ↦ .pure _
  · exact decodeArray_counts h _ _ _
  · exact decodeMap_counts h _ _ _
  · exact h.bind fun _ ↦ .pure _
  · exact .throw _

end Containers

/-- A call that returns has made no more calls than it has read bytes, and one that fails at most one
more than there were bytes left. -/
theorem decode_counts (fuel : ℕ) :
    Action.Counts Decoder.remaining (decode fuel) (Cbor.decode fuel) := by
  induction fuel with
  | zero => exact .exhausted
  | succ fuel ih =>
    refine .tick_bind readByte_lowers fun b ↦ .ite ?_ ?_
    · exact .lift (decodeSimple_halts 0 _)
    · exact .bind (.lift (readArg_halts 0 _)) fun _ ↦ decodeContent_counts ih _ _ _ _

theorem unmarshal_fst (data : List UInt8) : (unmarshal data).1 = Cbor.unmarshal data := by
  have h := (decode_counts (data.length + 1)).erases (⟨data, 0⟩, 0)
  unfold unmarshal Cbor.unmarshal
  dsimp only
  rw [← h]

theorem unmarshal_snd_le (data : List UInt8) : (unmarshal data).2 ≤ data.length + 1 := by
  have hends := (decode_counts (data.length + 1)).paid.ends (⟨data, 0⟩, 0)
  rw [Nat.zero_add] at hends
  exact hends

end Counted

/-- `Unmarshal` comes back after at most one call of `decode` more than there are bytes, whatever the
heads declare. -/
theorem unmarshal_calls_le {data : List UInt8} (hdata : data.length < 2 ^ 63) :
    (Counted.unmarshal data).1 = unmarshal data ∧ (unmarshal data).1 ≠ .outOfFuel ∧
      (Counted.unmarshal data).2 ≤ data.length + 1 :=
  ⟨Counted.unmarshal_fst data, unmarshal_ne_outOfFuel hdata, Counted.unmarshal_snd_le data⟩

/-- An array that declares `2 ^ 64 - 1` elements and has two is given up in the fourth call. -/
theorem unmarshal_calls_truncated :
    (Counted.unmarshal [0x9b, 0xff, 0xff, 0xff, 0xff, 0xff, 0xff, 0xff, 0xff, 0x01, 0x02]).2 = 4 ∧
      (unmarshal [0x9b, 0xff, 0xff, 0xff, 0xff, 0xff, 0xff, 0xff, 0xff, 0x01, 0x02]).1 ≠ .outOfFuel :=
  ⟨rfl, (@unmarshal_calls_le [0x9b, 0xff, 0xff, 0xff, 0xff, 0xff, 0xff, 0xff, 0xff, 0x01, 0x02]
    (by decide)).2.1⟩

/-- The bound is attained. -/
example : (Counted.unmarshal [0x81]).2 = 2 := rfl

end Zenith.Cbor
