import Zenith.Bridge.Message

/-!
# Messages on the wire

`Encode` puts the type of a message before its fields, each as the CBOR type that `Decode` looks for, so
that every message is read back as it was.
-/

namespace Zenith.Bridge

open Go Cbor

def ModelUpload.fields (m : ModelUpload) : List Value :=
  [.text m.modelID, .text m.kind, .bytes m.params]

def InferenceRequest.fields (r : InferenceRequest) : List Value :=
  [.text r.requestID, .text r.modelID, .text r.inputID]

def InferenceResponse.fields (r : InferenceResponse) : List Value :=
  [.text r.requestID, .text r.modelID, .bool r.ok, .bytes r.result, .text r.summary,
    .uint64 r.inputBytes, .uint64 r.outputBytes]

namespace Message

def messageType : Message → UInt64
  | upload _ => MsgModelUpload
  | request _ => MsgInferenceRequest
  | response _ => MsgInferenceResponse

def fields : Message → List Value
  | upload m => m.fields
  | request m => m.fields
  | response m => m.fields

/-- The array that `Encode` marshals. -/
def value (msg : Message) : Value := .array (.uint64 msg.messageType :: msg.fields)

end Message

/-- `Encode`. -/
def encode (msg : Message) : Except EncodeError (List UInt8) := marshal msg.value

namespace Message

/-- The types of the fields of messages. -/
inductive FieldValue : Value → Prop
  | text (s : GoString) : FieldValue (.text s)
  | bytes (data : List UInt8) : FieldValue (.bytes data)
  | bool (x : Bool) : FieldValue (.bool x)
  | uint64 (x : UInt64) : FieldValue (.uint64 x)

theorem FieldValue.encodable {v : Value} (h : FieldValue v) : v.Encodable := by
  cases h with
  | text s => exact .text s
  | bytes data => exact .bytes data
  | bool x => exact .bool x
  | uint64 x => exact .uint64 x

theorem FieldValue.not_hasIndefArray {v : Value} (h : FieldValue v) : ¬v.HasIndefArray := by
  intro hindef
  cases h <;> cases hindef

theorem fieldValue_fields (msg : Message) :
    ∀ v ∈ Value.uint64 msg.messageType :: msg.fields, FieldValue v := by
  cases msg with
  | upload m => simp [fields, ModelUpload.fields, FieldValue.text, FieldValue.bytes, FieldValue.uint64]
  | request m => simp [fields, InferenceRequest.fields, FieldValue.text, FieldValue.uint64]
  | response m =>
    simp [fields, InferenceResponse.fields, FieldValue.text, FieldValue.bytes, FieldValue.bool,
      FieldValue.uint64]

theorem encodable_value (msg : Message) : msg.value.Encodable :=
  .array fun v hv ↦ (msg.fieldValue_fields v hv).encodable

theorem definite_value (msg : Message) : msg.value.definite = msg.value := by
  apply Value.definite_eq_self
  intro hindef
  cases hindef with
  | item hmem hnested => exact (msg.fieldValue_fields _ hmem).not_hasIndefArray hnested

theorem parseMessage_value (msg : Message) : parseMessage msg.value = .ok msg := by
  cases msg <;> rfl

end Message

theorem encode_eq (msg : Message) : encode msg = .ok (Item.ofValue msg.value).bytes :=
  msg.encodable_value.marshal_eq

/-- A message is read back from its encoding. -/
theorem decode_encode {msg : Message} {enc : List UInt8} (h : encode msg = .ok enc)
    (hlen : enc.length < 2 ^ 63) : decode enc = .ok msg := by
  rw [encode_eq, Except.ok.injEq] at h
  subst h
  have hread := msg.encodable_value.unmarshal_bytes [] (by simpa using hlen)
  rw [List.append_nil, msg.definite_value] at hread
  unfold decode
  rw [hread]
  dsimp only
  rw [msg.parseMessage_value]

end Zenith.Bridge
