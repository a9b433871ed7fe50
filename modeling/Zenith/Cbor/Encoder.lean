import Zenith.Cbor.Item
import Zenith.Cbor.Value

/-!
# The CBOR encoder

`encode` appends to a buffer in the source; here it returns what it appends. A map is written in the
order in which its entries are presented, so every iteration order Go may choose is the encoding of
some `Value.Reordered` presentation.
-/

namespace Zenith.Cbor

open Go

def majorUint : UInt8 := 0
def majorNint : UInt8 := 1
def majorBytes : UInt8 := 2
def majorText : UInt8 := 3
def majorArray : UInt8 := 4
def majorMap : UInt8 := 5
def majorTag : UInt8 := 6
def majorSimple : UInt8 := 7

/-- The additional information of an indefinite-length item, and of the break code. -/
def indefinite : UInt8 := 31

/-- `fmt.Errorf("%w: %T", ErrUnsupported, v)`. -/
structure EncodeError where
  goType : String
  deriving DecidableEq, Repr

def EncodeError.text (e : EncodeError) : String := "cbor: unsupported value: " ++ e.goType

/-- `binary.BigEndian.PutUint16` into a fresh two-byte array. -/
def putUint16 (x : UInt16) : List UInt8 := BigEndian.encode 2 x.toNat

def putUint32 (x : UInt32) : List UInt8 := BigEndian.encode 4 x.toNat

def putUint64 (x : UInt64) : List UInt8 := BigEndian.encode 8 x.toNat

@[simp] theorem length_putUint16 (x : UInt16) : (putUint16 x).length = 2 :=
  BigEndian.length_encode 2 _

@[simp] theorem length_putUint32 (x : UInt32) : (putUint32 x).length = 4 :=
  BigEndian.length_encode 4 _

@[simp] theorem length_putUint64 (x : UInt64) : (putUint64 x).length = 8 :=
  BigEndian.length_encode 8 _

@[simp] theorem decode_putUint16 (x : UInt16) : BigEndian.decode (putUint16 x) = x.toNat :=
  BigEndian.decode_encode x.toNat_lt

@[simp] theorem decode_putUint32 (x : UInt32) : BigEndian.decode (putUint32 x) = x.toNat :=
  BigEndian.decode_encode x.toNat_lt

@[simp] theorem decode_putUint64 (x : UInt64) : BigEndian.decode (putUint64 x) = x.toNat :=
  BigEndian.decode_encode x.toNat_lt

def writeHead (major : UInt8) (arg : UInt64) : List UInt8 :=
  let mt := major <<< 5
  if arg < 24 then [mt ||| arg.toUInt8]
  else if arg < (1 : UInt64) <<< 8 then [mt ||| 24, arg.toUInt8]
  else if arg < (1 : UInt64) <<< 16 then (mt ||| 25) :: putUint16 arg.toUInt16
  else if arg < (1 : UInt64) <<< 32 then (mt ||| 26) :: putUint32 arg.toUInt32
  else (mt ||| 27) :: putUint64 arg

def encodeInt (x : Int64) : List UInt8 :=
  if x ≥ 0 then writeHead majorUint x.toUInt64
  else writeHead majorNint (-1 - x).toUInt64

/-- `uint64(len(x))`. -/
def lenUint64 {α : Type} (x : List α) : UInt64 := UInt64.ofNat x.length

mutual

def encode : Value → Except EncodeError (List UInt8)
  | .null => .ok [majorSimple <<< 5 ||| 22]
  | .bool x => .ok [majorSimple <<< 5 ||| if x then 21 else 20]
  | .uint x => .ok (writeHead majorUint x)
  | .uint8 x => .ok (writeHead majorUint x.toUInt64)
  | .uint16 x => .ok (writeHead majorUint x.toUInt64)
  | .uint32 x => .ok (writeHead majorUint x.toUInt64)
  | .uint64 x => .ok (writeHead majorUint x)
  | .int x => .ok (encodeInt x)
  | .int8 x => .ok (encodeInt x.toInt64)
  | .int16 x => .ok (encodeInt x.toInt64)
  | .int32 x => .ok (encodeInt x.toInt64)
  | .int64 x => .ok (encodeInt x)
  | .float64 bits => .ok ((majorSimple <<< 5 ||| 27) :: putUint64 bits)
  | .bytes data => .ok (writeHead majorBytes (lenUint64 data) ++ data)
  | .text data => .ok (writeHead majorText (lenUint64 data) ++ data)
  | .array items => do
    let body ← encodeItems items
    .ok (writeHead majorArray (lenUint64 items) ++ body)
  | .indefArray items => do
    let body ← encodeItems items
    .ok ((majorArray <<< 5 ||| indefinite) :: body ++ [majorSimple <<< 5 ||| indefinite])
  | .map entries => do
    let body ← encodeEntries entries
    .ok (writeHead majorMap (lenUint64 entries) ++ body)
  | .tag number content => do
    let body ← encode content
    .ok (writeHead majorTag number ++ body)
  | .breakMarker => .error ⟨Value.goType .breakMarker⟩
termination_by structural v => v

def encodeItems : List Value → Except EncodeError (List UInt8)
  | [] => .ok []
  | item :: rest => do
    let first ← encode item
    let body ← encodeItems rest
    .ok (first ++ body)
termination_by structural items => items

def encodeEntries : List (Value × Value) → Except EncodeError (List UInt8)
  | [] => .ok []
  | (key, value) :: rest => do
    let first ← encode key
    let second ← encode value
    let body ← encodeEntries rest
    .ok (first ++ second ++ body)
termination_by structural entries => entries

end

/-- `Marshal`. -/
def marshal (v : Value) : Except EncodeError (List UInt8) := encode v

end Zenith.Cbor
