import Zenith.Bpv7.Corruption

/-!
# Messages of the Space-AI bridge, and what a received byte string can do to a node

`Decode` reads an application message from the payload of a bundle. It and the bundle parser only
inspect the value that the CBOR decoder returned, so the three entry points of received bytes crash
on the same inputs.
-/

namespace Zenith.Bridge

open Go Cbor

/-! ## Messages -/

def MsgModelUpload : UInt64 := 1
def MsgInferenceRequest : UInt64 := 2
def MsgInferenceResponse : UInt64 := 3

structure ModelUpload where
  modelID : GoString
  kind : GoString
  params : List UInt8
  deriving DecidableEq, Repr

structure InferenceRequest where
  requestID : GoString
  modelID : GoString
  inputID : GoString
  deriving DecidableEq, Repr

structure InferenceResponse where
  requestID : GoString
  modelID : GoString
  ok : Bool
  result : List UInt8
  summary : GoString
  inputBytes : UInt64
  outputBytes : UInt64
  deriving DecidableEq, Repr

inductive Message
  | upload (m : ModelUpload)
  | request (m : InferenceRequest)
  | response (m : InferenceResponse)
  deriving DecidableEq, Repr

/-- The errors of `Decode`. -/
inductive MessageError
  | decode (err : DecodeError)
  | notArray
  | messageType (err : MessageError)
  | uploadFields (count : ℕ)
  | requestFields (count : ℕ)
  | responseFields (count : ℕ)
  | unknownType (messageType : UInt64)
  | negative (x : Int64)
  | notUnsigned (goType : String)
  | notText (goType : String)
  | notBytes (goType : String)
  | notBool (goType : String)
  deriving DecidableEq, Repr

/-- The format string of an error; its arguments are those of the constructor. -/
def MessageError.format : MessageError → String
  | decode _ => "spaceaibridge: decode: %w"
  | notArray => "spaceaibridge: message must be a non-empty array"
  | messageType _ => "spaceaibridge: message type: %w"
  | uploadFields _ => "spaceaibridge: model upload needs 3 fields, got %d"
  | requestFields _ => "spaceaibridge: inference request needs 3 fields, got %d"
  | responseFields _ => "spaceaibridge: inference response needs 7 fields, got %d"
  | unknownType _ => "spaceaibridge: unknown message type %d"
  | negative _ => "spaceaibridge: negative value %d where unsigned expected"
  | notUnsigned _ => "spaceaibridge: expected unsigned integer, got %T"
  | notText _ => "spaceaibridge: expected text string, got %T"
  | notBytes _ => "spaceaibridge: expected byte string, got %T"
  | notBool _ => "spaceaibridge: expected boolean, got %T"

def asUint64 (v : Value) : Except MessageError UInt64 :=
  match v with
  | .uint64 x => .ok x
  | .int64 x => if x < 0 then .error (.negative x) else .ok x.toUInt64
  | v => .error (.notUnsigned v.goType)

def asString (v : Value) : Except MessageError GoString :=
  match v with
  | .text s => .ok s
  | v => .error (.notText v.goType)

def asBytes (v : Value) : Except MessageError (List UInt8) :=
  match v with
  | .bytes b => .ok b
  | v => .error (.notBytes v.goType)

def asBool (v : Value) : Except MessageError Bool :=
  match v with
  | .bool b => .ok b
  | v => .error (.notBool v.goType)

def parseUpload (body : List Value) : Except MessageError Message :=
  match body with
  | [id, kind, params] => do
    let modelID ← asString id
    let kind ← asString kind
    let params ← asBytes params
    .ok (.upload { modelID, kind, params })
  | body => .error (.uploadFields body.length)

def parseRequest (body : List Value) : Except MessageError Message :=
  match body with
  | [reqID, modelID, inputID] => do
    let requestID ← asString reqID
    let modelID ← asString modelID
    let inputID ← asString inputID
    .ok (.request { requestID, modelID, inputID })
  | body => .error (.requestFields body.length)

def parseResponse (body : List Value) : Except MessageError Message :=
  match body with
  | [reqID, modelID, okv, result, summary, inBytes, outBytes] => do
    let requestID ← asString reqID
    let modelID ← asString modelID
    let ok ← asBool okv
    let result ← asBytes result
    let summary ← asString summary
    let inputBytes ← asUint64 inBytes
    let outputBytes ← asUint64 outBytes
    .ok (.response { requestID, modelID, ok, result, summary, inputBytes, outputBytes })
  | body => .error (.responseFields body.length)

/-- What `Decode` does with the decoded value. -/
def parseMessage (v : Value) : Except MessageError Message :=
  match v with
  | .array (first :: body) =>
    match asUint64 first with
    | .error err => .error (.messageType err)
    | .ok mt =>
      if mt = MsgModelUpload then parseUpload body
      else if mt = MsgInferenceRequest then parseRequest body
      else if mt = MsgInferenceResponse then parseResponse body
      else .error (.unknownType mt)
  | _ => .error .notArray

/-- `Decode`; a panic of the decoder is nowhere recovered. -/
def decode (data : List UInt8) : Outcome MessageError Message :=
  match (unmarshal data).1 with
  | .error err => .error (.decode err)
  | .panic reason => .panic reason
  | .outOfFuel => .outOfFuel
  | .ok v =>
    match parseMessage v with
    | .error err => .error err
    | .ok m => .ok m

/-! ## Received bytes -/

theorem decode_returns_iff (data : List UInt8) :
    (decode data).Returns ↔ (unmarshal data).1.Returns := by
  unfold decode
  cases (unmarshal data).1 with
  | ok v =>
    dsimp only
    cases parseMessage v <;> simp
  | error err => simp
  | panic reason => simp
  | outOfFuel => simp

/-- Received bytes are answered with a value or an error, by all three parsers, unless the decoder
runs into one of the places that `Decoder.Crashes` describes. -/
theorem received_bytes_return_iff {data : List UInt8} (hdata : data.length < 2 ^ 63) :
    (unmarshal data).1.Returns ∧ (Bpv7.unmarshal data).Returns ∧ (decode data).Returns ↔
      ¬(Decoder.start data).Crashes := by
  rw [decode_returns_iff, Bpv7.bundle_returns_iff, and_self, and_self, unmarshal_returns_iff hdata]

/-- A list of a map from a text to a list, and a text in two chunks, of which only the inner list has a
definite length. -/
theorem received_nested_returns :
    ¬(Decoder.start [0x9f, 0xbf, 0x62, 0x69, 0x64, 0x82, 0x01, 0x20, 0xff, 0x7f, 0x61, 0x61, 0x61, 0x62,
      0xff, 0xff]).Crashes :=
  (received_bytes_return_iff (by decide)).mp ⟨trivial, trivial, trivial⟩

/-- A map with a byte string for a key crashes all three. -/
theorem received_bytes_key_crashes :
    ¬∀ data : List UInt8, data.length < 2 ^ 63 →
      (unmarshal data).1.Returns ∧ (Bpv7.unmarshal data).Returns ∧ (decode data).Returns := by
  intro h
  exact (h [0xa1, 0x40, 0x00] (by decide)).1

end Zenith.Bridge
