import Zenith.Cbor.Encoder

/-!
# The CBOR decoder

The methods of `decoder` are actions on the receiver. `decode` and the container decoders call each
other in the source; here each container decoder takes the recursive call as an argument and
`decode` ties the knot on a fuel that bounds the nesting and, for a loop up to a break, its
iterations. `unmarshal` starts with more fuel than the input has bytes.
-/

namespace Zenith.Cbor

open Go

/-- The errors of the decoder. -/
inductive DecodeError
  | unexpectedEOF
  | reservedInformation (ai : UInt8)
  | unknownMajor (major : UInt8)
  | unsupportedSimple (ai : UInt8)
  | invalidBytesChunk
  | invalidTextChunk
  deriving DecidableEq, Repr

def DecodeError.text : DecodeError → String
  | unexpectedEOF => "unexpected EOF"
  | reservedInformation ai => "cbor: reserved additional information " ++ toString ai
  | unknownMajor major => "cbor: unknown major type " ++ toString major
  | unsupportedSimple ai => "cbor: unsupported simple value " ++ toString ai
  | invalidBytesChunk => "cbor: invalid chunk in indefinite byte string"
  | invalidTextChunk => "cbor: invalid chunk in indefinite text string"

structure Decoder where
  data : List UInt8
  pos : ℕ

abbrev DecodeM (α : Type) := Action Decoder DecodeError α

/-! ## Reading bytes -/

def readByte : DecodeM UInt8 := fun d ↦
  match d.data[d.pos]? with
  | none => (.error .unexpectedEOF, d)
  | some b => (.ok b, { d with pos := d.pos + 1 })

/-- `readN` on an `int`. The sum `d.pos+n` wraps, and the slice expression that follows the check
panics on bounds out of order. -/
def readN (n : ℤ) : DecodeM (List UInt8) := fun d ↦
  let stop := wrapInt64 (d.pos + n)
  if n < 0 ∨ (d.data.length : ℤ) < stop then (.error .unexpectedEOF, d)
  else if stop < d.pos then (.panic .sliceBounds, d)
  else (.ok ((d.data.drop d.pos).take (stop - d.pos).toNat), { d with pos := stop.toNat })

def bigEndianUint16 (b : List UInt8) : UInt16 := UInt16.ofNat (BigEndian.decode b)

def bigEndianUint32 (b : List UInt8) : UInt32 := UInt32.ofNat (BigEndian.decode b)

def bigEndianUint64 (b : List UInt8) : UInt64 := UInt64.ofNat (BigEndian.decode b)

/-- The argument and whether the item has indefinite length. -/
def readArg (ai : UInt8) : DecodeM (UInt64 × Bool) :=
  if ai < 24 then pure (ai.toUInt64, false)
  else if ai = 24 then do
    let b ← readByte
    pure (b.toUInt64, false)
  else if ai = 25 then do
    let b ← readN 2
    pure ((bigEndianUint16 b).toUInt64, false)
  else if ai = 26 then do
    let b ← readN 4
    pure ((bigEndianUint32 b).toUInt64, false)
  else if ai = 27 then do
    let b ← readN 8
    pure (bigEndianUint64 b, false)
  else if ai = indefinite then pure (0, true)
  else Action.throw (.reservedInformation ai)

/-! ## Simple values and floats -/

/-- The loop that normalizes a subnormal; ten shifts reach the hidden bit from any position. -/
def normalizeHalf : ℕ → UInt32 → Int32 → UInt32 × Int32
  | 0, mant, e => (mant, e)
  | fuel + 1, mant, e =>
    if mant &&& 0x400 = 0 then normalizeHalf fuel (mant <<< 1) (e - 1) else (mant, e)

def halfToFloat32bits (h : UInt16) : UInt32 :=
  let sign := (h &&& 0x8000).toUInt32 <<< 16
  let exp := (h >>> 10).toUInt32 &&& 0x1f
  let mant := (h &&& 0x3ff).toUInt32
  if exp = 0 then
    if mant = 0 then sign
    else
      let (mant, e) := normalizeHalf 10 mant (-1)
      let mant := mant &&& 0x3ff
      let exp32 := ((127 - 15 : Int32) + e + 1).toUInt32
      sign ||| exp32 <<< 23 ||| mant <<< 13
  else if exp = 0x1f then sign ||| (0xff : UInt32) <<< 23 ||| mant <<< 13
  else sign ||| (exp + (127 - 15)) <<< 23 ||| mant <<< 13

/-- The conversion `float64(x)` of a `float32`, on bit patterns: exact, and quieting a NaN. -/
def widenFloat32 (x : UInt32) : UInt64 :=
  let sign := (x >>> 31).toUInt64 <<< 63
  let exp := (x >>> 23 &&& 0xff).toUInt64
  let mant := (x &&& 0x7fffff).toUInt64
  if exp = 0xff then
    if mant = 0 then sign ||| (0x7ff : UInt64) <<< 52
    else sign ||| (0xfff : UInt64) <<< 51 ||| mant <<< 29
  else if exp = 0 then
    if mant = 0 then sign
    else
      let top := mant.toNat.log2
      sign ||| UInt64.ofNat (874 + top) <<< 52
        ||| UInt64.ofNat ((mant.toNat - 2 ^ top) * 2 ^ (52 - top))
  else sign ||| (exp + 896) <<< 52 ||| mant <<< 29

def decodeSimple (ai : UInt8) : DecodeM Value :=
  if ai = 20 then pure (.bool false)
  else if ai = 21 then pure (.bool true)
  else if ai = 22 ∨ ai = 23 then pure .null
  else if ai = indefinite then pure .breakMarker
  else if ai = 25 then do
    let b ← readN 2
    pure (.float64 (widenFloat32 (halfToFloat32bits (bigEndianUint16 b))))
  else if ai = 26 then do
    let b ← readN 4
    pure (.float64 (widenFloat32 (bigEndianUint32 b)))
  else if ai = 27 then do
    let b ← readN 8
    pure (.float64 (bigEndianUint64 b))
  else Action.throw (.unsupportedSimple ai)

/-! ## Containers -/

/-- The type assertion `v.(breakMarker)`. -/
def Value.isBreakMarker : Value → Bool
  | .breakMarker => true
  | _ => false

section Containers

variable (decode : DecodeM Value)

/-- The counted loop of `decodeArray`; `count` is what is left of `arg`. -/
def decodeArrayItems : ℕ → List Value → DecodeM (List Value)
  | 0, out => pure out
  | count + 1, out => do
    let v ← decode
    decodeArrayItems count (out ++ [v])

/-- The loop of `decodeArray` up to a break. -/
def decodeArrayUntilBreak : ℕ → List Value → DecodeM (List Value)
  | 0, _ => Action.exhausted
  | fuel + 1, out => do
    let v ← decode
    if v.isBreakMarker then pure out else decodeArrayUntilBreak fuel (out ++ [v])

def decodeArray (fuel : ℕ) (arg : UInt64) (indef : Bool) : DecodeM Value :=
  if indef then do
    let out ← decodeArrayUntilBreak decode fuel []
    pure (.array out)
  else do
    let out ← decodeArrayItems decode arg.toNat []
    pure (.array out)

/-- `out[k] = v`, which panics when the runtime cannot hash the key. -/
def assign (out : List (Value × Value)) (k v : Value) : DecodeM (List (Value × Value)) :=
  if k.hashable then pure (Value.upsert out k v) else Action.crash .unhashableKey

def decodeMapEntries : ℕ → List (Value × Value) → DecodeM (List (Value × Value))
  | 0, out => pure out
  | count + 1, out => do
    let k ← decode
    let v ← decode
    let out ← assign out k v
    decodeMapEntries count out

def decodeMapUntilBreak : ℕ → List (Value × Value) → DecodeM (List (Value × Value))
  | 0, _ => Action.exhausted
  | fuel + 1, out => do
    let k ← decode
    if k.isBreakMarker then pure out
    else do
      let v ← decode
      let out ← assign out k v
      decodeMapUntilBreak fuel out

def decodeMap (fuel : ℕ) (arg : UInt64) (indef : Bool) : DecodeM Value :=
  if indef then do
    let out ← decodeMapUntilBreak decode fuel []
    pure (.map out)
  else do
    let out ← decodeMapEntries decode arg.toNat []
    pure (.map out)

/-- The type assertion on a chunk: `v.([]byte)` for major type 2, `v.(string)` for major type 3. -/
def chunkOf (major : UInt8) : Value → Option (List UInt8)
  | .bytes data => if major = majorBytes then some data else none
  | .text data => if major = majorText then some data else none
  | _ => none

/-- The one loop of `decodeIndefBytes` and `decodeIndefText`. -/
def decodeChunks (major : UInt8) (invalid : DecodeError) : ℕ → List UInt8 → DecodeM (List UInt8)
  | 0, _ => Action.exhausted
  | fuel + 1, out => do
    let v ← decode
    if v.isBreakMarker then pure out
    else match chunkOf major v with
      | none => Action.throw invalid
      | some chunk => decodeChunks major invalid fuel (out ++ chunk)

def decodeIndefBytes (fuel : ℕ) : DecodeM Value := do
  let out ← decodeChunks decode majorBytes .invalidBytesChunk fuel []
  pure (.bytes out)

def decodeIndefText (fuel : ℕ) : DecodeM Value := do
  let out ← decodeChunks decode majorText .invalidTextChunk fuel []
  pure (.text out)

/-- What follows the head, for every major type but 7. -/
def decodeContent (fuel : ℕ) (major : UInt8) (arg : UInt64) (indef : Bool) : DecodeM Value :=
  if major = majorUint then pure (.uint64 arg)
  else if major = majorNint then pure (.int64 (-1 - arg.toInt64))
  else if major = majorBytes then
    if indef then decodeIndefBytes decode fuel
    else do
      let raw ← readN (wrapInt64 arg.toNat)
      pure (.bytes raw)
  else if major = majorText then
    if indef then decodeIndefText decode fuel
    else do
      let raw ← readN (wrapInt64 arg.toNat)
      pure (.text raw)
  else if major = majorArray then decodeArray decode fuel arg indef
  else if major = majorMap then decodeMap decode fuel arg indef
  else if major = majorTag then do
    let content ← decode
    pure (.tag arg content)
  else Action.throw (.unknownMajor major)

section Majors

variable (fuel : ℕ) (arg : UInt64) (indef : Bool)

theorem decodeContent_uint : decodeContent decode fuel majorUint arg indef = pure (.uint64 arg) := rfl

theorem decodeContent_nint :
    decodeContent decode fuel majorNint arg indef = pure (.int64 (-1 - arg.toInt64)) := rfl

theorem decodeContent_bytes : decodeContent decode fuel majorBytes arg indef =
    if indef then decodeIndefBytes decode fuel
    else readN (wrapInt64 arg.toNat) >>= fun raw ↦ pure (.bytes raw) := by
  rw [decodeContent, if_neg (by decide), if_neg (by decide), if_pos rfl]

theorem decodeContent_text : decodeContent decode fuel majorText arg indef =
    if indef then decodeIndefText decode fuel
    else readN (wrapInt64 arg.toNat) >>= fun raw ↦ pure (.text raw) := by
  rw [decodeContent, if_neg (by decide), if_neg (by decide), if_neg (by decide), if_pos rfl]

theorem decodeContent_array :
    decodeContent decode fuel majorArray arg indef = decodeArray decode fuel arg indef := rfl

theorem decodeContent_map :
    decodeContent decode fuel majorMap arg indef = decodeMap decode fuel arg indef := rfl

theorem decodeContent_tag : decodeContent decode fuel majorTag arg indef =
    (decode >>= fun content ↦ pure (.tag arg content)) := rfl

end Majors

end Containers

def decode : ℕ → DecodeM Value
  | 0 => Action.exhausted
  | fuel + 1 => do
    let b ← readByte
    if b >>> 5 = majorSimple then decodeSimple (b &&& 0x1f)
    else do
      let (arg, indef) ← readArg (b &&& 0x1f)
      decodeContent (decode fuel) fuel (b >>> 5) arg indef

/-- `Unmarshal`: the outcome and the number of bytes consumed. -/
def unmarshal (data : List UInt8) : Outcome DecodeError Value × ℕ :=
  let (result, d) := decode (data.length + 1) ⟨data, 0⟩
  (result, d.pos)

end Zenith.Cbor
