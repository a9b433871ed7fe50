import Zenith.Bpv7.WellFormed
import Zenith.Bridge.Codec

/-!
# A message on its way through the stack

The payload of a received bundle decodes to the message that was put into it. Of the endpoints only
what `toCBOR` writes of them matters, so that the report-to endpoint may be any of a supported scheme.
-/

namespace Zenith.Bpv7

open Go Cbor

/-! ## Endpoints with the same CBOR form -/

/-- One of the schemes that `eidFromCBOR` knows. -/
def EndpointID.Supported (e : EndpointID) : Prop := e.scheme = SchemeDTN ∨ e.scheme = SchemeIPN

/-- What remains of an endpoint that its CBOR form is read from. -/
def EndpointID.reread (e : EndpointID) : EndpointID :=
  if e.scheme = SchemeDTN then if e.isNull then NullEndpoint else DTN e.ssp
  else IPN e.node e.service

theorem EndpointID.made_reread (e : EndpointID) : e.reread.Made := by
  unfold reread
  split_ifs
  · exact .null
  · exact .dtn _
  · exact .ipn _ _

theorem EndpointID.Supported.toCBOR_reread {e : EndpointID} (h : e.Supported) :
    e.reread.toCBOR = e.toCBOR := by
  unfold reread
  split_ifs with hdtn hnull
  · simp [toCBOR, hdtn, hnull, NullEndpoint]
  · simp [toCBOR, hdtn, hnull, DTN, zero]
  · have hipn : e.scheme = SchemeIPN := h.resolve_left hdtn
    simp [toCBOR, hipn, IPN, SchemeIPN, SchemeDTN]

/-! ## Making bundles -/

/-- The bundle with another report-to endpoint. -/
def Bundle.reportingTo (b : Bundle) (e : EndpointID) : Bundle :=
  { b with primary := { b.primary with reportTo := e } }

/-- The image depends on the report-to endpoint through its CBOR form. -/
theorem Bundle.image_reportingTo {b : Bundle} {e : EndpointID}
    (h : e.toCBOR = b.primary.reportTo.toCBOR) : (b.reportingTo e).image = b.image := by
  have hfragment : (b.reportingTo e).primary.fragmentFields = b.primary.fragmentFields := rfl
  have hplain : (b.reportingTo e).primary.plainFields = b.primary.plainFields := by
    unfold PrimaryBlock.plainFields
    rw [hfragment]
    simp only [reportingTo, h]
  have hfields : (b.reportingTo e).primary.fields = b.primary.fields := by
    unfold PrimaryBlock.fields
    rw [hplain]
    rfl
  unfold image value
  rw [hfields]
  rfl

/-- The data of a block is part of the image. -/
theorem Bundle.length_data_le_image {b : Bundle} {c : CanonicalBlock} (hc : c ∈ b.canonical) :
    c.data.length ≤ b.image.length := by
  have hdata : Value.bytes c.data ∈ c.fields := by
    simp [CanonicalBlock.fields, CanonicalBlock.plainFields]
  have hfields : Value.array c.fields ∈
      Value.array b.primary.fields :: b.canonical.map fun c ↦ .array c.fields :=
    List.mem_cons_of_mem _ (List.mem_map_of_mem hc)
  calc
    c.data.length ≤ (Item.ofValue (.bytes c.data)).bytes.length := Item.length_le_ofValue_bytes _
    _ ≤ (Item.ofValue (.array c.fields)).bytes.length := Item.length_le_ofValue_array hdata
    _ ≤ b.image.length := Item.length_le_ofValue_indefArray hfields

/-- What `NewBundle` is called with. -/
structure Sending where
  now : Time
  source : EndpointID
  destination : EndpointID
  opts : Options

namespace Sending

/-- Source and destination made by the constructors, a report-to endpoint that is unset or of a
supported scheme, and CRC types among 0, 1 and 2. -/
structure Proper (s : Sending) : Prop where
  source : s.source.Made
  destination : s.destination.Made
  reportTo : s.opts.reportTo = .zero ∨ s.opts.reportTo.Supported
  crcType : KnownCRC s.opts.crcType
  payloadCRCType : KnownCRC s.opts.payloadCRCType

/-- The bundle around a payload. -/
def bundle (s : Sending) (payload : List UInt8) : Bundle :=
  NewBundle s.now s.source s.destination payload s.opts

variable {s : Sending}

theorem knownCRC_default {crcType : UInt64} (h : KnownCRC crcType) :
    KnownCRC (if crcType = 0 then CRC32 else crcType) := by
  split_ifs
  · exact .inr (.inr rfl)
  · exact h

theorem marshal_bundle (hcrc : KnownCRC s.opts.crcType) (hpayload : KnownCRC s.opts.payloadCRCType)
    (payload : List UInt8) : (s.bundle payload).marshal = .ok (s.bundle payload).image := by
  apply Bundle.marshal_eq (knownCRC_default hcrc)
  intro c hc
  rw [List.mem_singleton.mp hc]
  exact knownCRC_default hpayload

theorem length_le_image (payload : List UInt8) :
    payload.length ≤ (s.bundle payload).image.length := by
  have hmem : (⟨BlockTypePayload, PayloadBlockNumber, 0,
      if s.opts.payloadCRCType = 0 then CRC32 else s.opts.payloadCRCType, payload⟩ :
        CanonicalBlock) ∈ (s.bundle payload).canonical := List.mem_singleton_self _
  exact Bundle.length_data_le_image hmem

theorem Proper.supported_reportTo (h : s.Proper) (payload : List UInt8) :
    (s.bundle payload).primary.reportTo.Supported := by
  change (if s.opts.reportTo = .zero then NullEndpoint else s.opts.reportTo).Supported
  split_ifs with hzero
  · exact .inl rfl
  · exact h.reportTo.resolve_left hzero

/-- A received bundle is the one that was sent, but for fields of the report-to endpoint that have no
place in its CBOR form. -/
theorem Proper.unmarshal_image (h : s.Proper) {payload : List UInt8}
    (hlen : (s.bundle payload).image.length < 2 ^ 63) :
    unmarshal (s.bundle payload).image =
      .ok ((s.bundle payload).reportingTo (s.bundle payload).primary.reportTo.reread) := by
  have hreport := (h.supported_reportTo payload).toCBOR_reread
  have hsound : ((s.bundle payload).reportingTo
      (s.bundle payload).primary.reportTo.reread).Sound := by
    refine ⟨⟨knownCRC_default h.crcType, h.destination, h.source, EndpointID.made_reread _,
      fun _ ↦ ⟨rfl, rfl⟩⟩, List.cons_ne_nil _ _, fun c hc ↦ ?_⟩
    rw [List.mem_singleton.mp hc]
    exact knownCRC_default h.payloadCRCType
  have himage := Bundle.image_reportingTo hreport
  have hread : unmarshal (((s.bundle payload).reportingTo
      (s.bundle payload).primary.reportTo.reread).image ++ []) = .ok _ :=
    hsound.unmarshal_image (by simpa [himage] using hlen)
  rwa [List.append_nil, himage] at hread

end Sending

end Zenith.Bpv7

namespace Zenith.Bridge

open Go Cbor Bpv7

/-! ## Messages in bundles -/

/-- The bytes are those of a bundle with the encoded message for a payload. -/
def Carries (s : Sending) (msg : Message) (wire : List UInt8) : Prop :=
  ∃ enc, encode msg = .ok enc ∧ (s.bundle enc).marshal = .ok wire

/-- What the payload of a received bundle decodes to. -/
def Receives (wire : List UInt8) (msg : Message) : Prop :=
  ∃ b, Bpv7.unmarshal wire = .ok b ∧ decode (b.payload.getD []) = .ok msg

theorem Carries.receives {s : Sending} (hs : s.Proper) {msg : Message} {wire : List UInt8}
    (h : Carries s msg wire) (hlen : wire.length < 2 ^ 63) : Receives wire msg := by
  obtain ⟨enc, henc, hwire⟩ := h
  rw [Sending.marshal_bundle hs.crcType hs.payloadCRCType, Except.ok.injEq] at hwire
  subst hwire
  have hfits : enc.length < 2 ^ 63 := (Sending.length_le_image enc).trans_lt hlen
  exact ⟨_, hs.unmarshal_image hlen, decode_encode henc hfits⟩

/-- A message is encoded and put into a bundle, the bytes of the bundle are read back to it, and no
other message in any bundle has the same bytes. -/
theorem message_survives_stack {s : Sending} (hs : s.Proper) (msg : Message) :
    ∃ wire, Carries s msg wire ∧ (wire.length < 2 ^ 63 → Receives wire msg ∧
      ∀ (s' : Sending) (msg' : Message), s'.Proper → Carries s' msg' wire → msg' = msg) := by
  have hcarries : Carries s msg _ :=
    ⟨_, encode_eq msg, Sending.marshal_bundle hs.crcType hs.payloadCRCType _⟩
  refine ⟨_, hcarries, fun hlen ↦ ?_⟩
  have hreceives := hcarries.receives hs hlen
  refine ⟨hreceives, fun s' msg' hs' hcarries' ↦ ?_⟩
  obtain ⟨b, hread, hmsg⟩ := hreceives
  obtain ⟨b', hread', hmsg'⟩ := hcarries'.receives hs' hlen
  rw [hread, Outcome.ok.injEq] at hread'
  rw [← hread', hmsg, Outcome.ok.injEq] at hmsg'
  exact hmsg'.symm

/-- A sending with the defaults of `Options`, at a fixed creation time. -/
def plainSending : Sending :=
  ⟨0, DTN (lit "//ground"), IPN 7 1, { Options.zero with creationTime := 1 }⟩

def sampleRequest : Message := .request ⟨lit "r1", lit "m1", lit "i1"⟩

theorem message_survives_stack_plainSending :
    ∃ wire, Carries plainSending sampleRequest wire ∧ (wire.length < 2 ^ 63 →
      Receives wire sampleRequest ∧ ∀ (s' : Sending) (msg' : Message), s'.Proper →
        Carries s' msg' wire → msg' = sampleRequest) :=
  message_survives_stack ⟨.dtn _, .ipn 7 1, .inl rfl, .inl rfl, .inl rfl⟩ sampleRequest

/-- A sending with a report-to endpoint of no known scheme. -/
def unreportableSending : Sending :=
  { plainSending with
    opts := { plainSending.opts with reportTo := { EndpointID.zero with scheme := 3 } } }

theorem unmarshal_unreportable :
    Bpv7.unmarshal (unreportableSending.bundle (Item.ofValue sampleRequest.value).bytes).image =
      .error (.unsupportedScheme 3) := by
  decide +kernel

/-- The bundle is made and serialized, and cannot be read. -/
theorem message_lost_in_stack : ¬∀ (s : Sending) (msg : Message), s.source.Made →
    s.destination.Made → KnownCRC s.opts.crcType → KnownCRC s.opts.payloadCRCType →
      ∃ wire, Carries s msg wire ∧ (wire.length < 2 ^ 63 → Receives wire msg) := by
  intro h
  obtain ⟨wire, ⟨enc, henc, hwire⟩, hreceives⟩ :=
    h unreportableSending sampleRequest (.dtn _) (.ipn 7 1) (.inl rfl) (.inl rfl)
  rw [encode_eq, Except.ok.injEq] at henc
  subst henc
  have himage : wire =
      (unreportableSending.bundle (Item.ofValue sampleRequest.value).bytes).image := by
    rw [Sending.marshal_bundle (.inl rfl) (.inl rfl), Except.ok.injEq] at hwire
    exact hwire.symm
  rw [himage] at hreceives
  obtain ⟨b, hread, -⟩ := hreceives (by decide +kernel)
  rw [unmarshal_unreportable] at hread
  cases hread

end Zenith.Bridge
