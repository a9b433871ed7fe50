import Zenith.Bpv7.RoundTrip

/-!
# Well-formed bundles

`NewBundle` makes them. `Unmarshal` does not look at the version nor at the types and numbers of the
blocks, so that its result is well formed only where the received array says so.
-/

namespace Zenith.Bpv7

open Go Cbor

/-- A bundle of this version with exactly one payload block, which has its number. -/
structure Bundle.WellFormed (b : Bundle) : Prop where
  version : b.primary.version = Version
  payload : ∃ c, b.canonical.filter (·.type = BlockTypePayload) = [c] ∧
    c.number = PayloadBlockNumber ∧ b.payload = some c.data

/-- The first block of type payload is the only one. -/
theorem Bundle.payload_of_filter {b : Bundle} {c : CanonicalBlock}
    (h : b.canonical.filter (·.type = BlockTypePayload) = [c]) : b.payload = some c.data := by
  rw [payload, ← List.head?_filter, h]
  rfl

/-! ## Making bundles -/

structure Options where
  lifetime : Duration
  reportTo : EndpointID
  flags : UInt64
  crcType : UInt64
  payloadCRCType : UInt64
  creationTime : UInt64
  sequenceNumber : UInt64
  deriving DecidableEq, Repr

/-- `Options{}`. -/
def Options.zero : Options := ⟨0, .zero, 0, 0, 0, 0, 0⟩

/-- `NewBundle`, with the wall clock at `now`. -/
def NewBundle (now : Time) (source destination : EndpointID) (payload : List UInt8)
    (opts : Options) : Bundle where
  primary := {
    version := Version
    flags := opts.flags
    crcType := if opts.crcType = 0 then CRC32 else opts.crcType
    destination := destination
    source := source
    reportTo := if opts.reportTo = .zero then NullEndpoint else opts.reportTo
    creationTime := {
      time := if opts.creationTime = 0 then DTNTime now else opts.creationTime
      sequenceNumber := opts.sequenceNumber }
    lifetime := UInt64.ofInt ((if opts.lifetime = 0 then 3600 * second else opts.lifetime).tdiv
      millisecond)
    fragmentOffset := 0
    totalADULength := 0 }
  canonical := [{
    type := BlockTypePayload
    number := PayloadBlockNumber
    flags := 0
    crcType := if opts.payloadCRCType = 0 then CRC32 else opts.payloadCRCType
    data := payload }]

theorem payload_newBundle (now : Time) (source destination : EndpointID) (payload : List UInt8)
    (opts : Options) : (NewBundle now source destination payload opts).payload = some payload := rfl

theorem wellFormed_newBundle (now : Time) (source destination : EndpointID) (payload : List UInt8)
    (opts : Options) : (NewBundle now source destination payload opts).WellFormed :=
  ⟨rfl, _, rfl, rfl, rfl⟩

/-! ## Received bundles -/

/-- Element `i` of the array is the number `x`. -/
def holdsAt (i : ℕ) (x : UInt64) : Value → Bool
  | .array items => items[i]?.any fun item ↦
    match asUint64 item with
    | .ok y => y = x
    | .error _ => false
  | _ => false

/-- The first block starts with the version, and exactly one other block with the payload type, there
followed by the payload number. -/
def WellFormedBlocks (v : Value) : Prop :=
  ∃ primary raws raw, v = .array (primary :: raws) ∧ holdsAt 0 Version primary = true ∧
    raws.filter (holdsAt 0 BlockTypePayload) = [raw] ∧ holdsAt 1 PayloadBlockNumber raw = true

theorem holdsAt_of_reads {i : ℕ} {items : List Value} {item : Value} {y : UInt64}
    (hitem : items[i]? = some item) (hreads : unsigned item = .uint64 y) (x : UInt64) :
    holdsAt i x (.array items) = decide (y = x) := by
  rw [holdsAt, hitem]
  simp [asUint64_eq_ok.mpr hreads]

/-- A field of a block is where the serialization puts it. -/
theorem holdsAt_of_field {i : ℕ} {fields plain rest : List Value} {y : UInt64}
    (hfields : fields.map unsigned = plain) (hplain : plain[i]? = some (.uint64 y)) (x : UInt64) :
    holdsAt i x (.array (fields ++ rest)) = decide (y = x) := by
  subst hfields
  rw [List.getElem?_map, Option.map_eq_some_iff] at hplain
  obtain ⟨item, hitem, hreads⟩ := hplain
  have hlt : i < fields.length := (List.getElem?_eq_some_iff.mp hitem).1
  apply holdsAt_of_reads _ hreads
  rw [List.getElem?_append_left hlt, hitem]

theorem holdsAt_version {arr : List Value} {p : PrimaryBlock} (h : parsePrimary arr = .ok p)
    (x : UInt64) : holdsAt 0 x (.array arr) = decide (p.version = x) := by
  obtain ⟨-, fields, surplus, hfields, rfl⟩ := parsePrimary_eq_ok.mp h
  exact holdsAt_of_field hfields rfl x

theorem holdsAt_type {v : Value} {c : CanonicalBlock} (h : ReadsCanonical v c) (x : UInt64) :
    holdsAt 0 x v = decide (c.type = x) := by
  obtain ⟨arr, rfl, hparse⟩ := h
  obtain ⟨-, fields, surplus, hfields, rfl⟩ := parseCanonical_eq_ok.mp hparse
  exact holdsAt_of_field hfields rfl x

theorem holdsAt_number {v : Value} {c : CanonicalBlock} (h : ReadsCanonical v c) (x : UInt64) :
    holdsAt 1 x v = decide (c.number = x) := by
  obtain ⟨arr, rfl, hparse⟩ := h
  obtain ⟨-, fields, surplus, hfields, rfl⟩ := parseCanonical_eq_ok.mp hparse
  exact holdsAt_of_field hfields rfl x

/-- The payload blocks of a bundle were read from the blocks of payload type. -/
theorem payloadBlocks_read {raws : List Value} {cs : List CanonicalBlock}
    (h : List.Forall₂ ReadsCanonical raws cs) :
    List.Forall₂ ReadsCanonical (raws.filter (holdsAt 0 BlockTypePayload))
      (cs.filter (·.type = BlockTypePayload)) := by
  apply List.rel_filter _ h
  intro v c hreads
  simp only [holdsAt_type hreads]

theorem parseBundle_wellFormed_iff {v : Value} {b : Bundle} (h : parseBundle v = .ok b) :
    b.WellFormed ↔ WellFormedBlocks v := by
  obtain ⟨arr, raws, rfl, -, hprimary, hcanonical⟩ := parseBundle_eq_ok.mp h
  have hblocks := payloadBlocks_read hcanonical
  constructor
  · intro ⟨hversion, c, hfilter, hnumber, _⟩
    rw [hfilter, List.forall₂_cons_right_iff] at hblocks
    obtain ⟨raw, rest, hreads, hrest, hraws⟩ := hblocks
    rw [List.forall₂_nil_right_iff.mp hrest] at hraws
    refine ⟨_, raws, raw, rfl, ?_, hraws, ?_⟩
    · simp [holdsAt_version hprimary, hversion]
    · simp [holdsAt_number hreads, hnumber]
  · intro ⟨primary, raws', raw, hv, hversion, hfilter, hnumber⟩
    simp only [Value.array.injEq, List.cons.injEq] at hv
    obtain ⟨rfl, rfl⟩ := hv
    rw [hfilter, List.forall₂_cons_left_iff] at hblocks
    obtain ⟨c, rest, hreads, hrest, hcs⟩ := hblocks
    rw [List.forall₂_nil_left_iff.mp hrest] at hcs
    rw [holdsAt_version hprimary, decide_eq_true_iff] at hversion
    rw [holdsAt_number hreads, decide_eq_true_iff] at hnumber
    exact ⟨hversion, c, hcs, hnumber, Bundle.payload_of_filter hcs⟩

/-- An accepted byte string yields a well-formed bundle exactly if its blocks are well formed. -/
theorem unmarshal_wellFormed_iff {data : List UInt8} {b : Bundle} (h : unmarshal data = .ok b) :
    b.WellFormed ↔ ∃ v, (Cbor.unmarshal data).1 = .ok v ∧ WellFormedBlocks v := by
  obtain ⟨v, n, hread, hparse⟩ := unmarshal_eq_ok.mp h
  rw [parseBundle_wellFormed_iff hparse, hread]
  constructor
  · intro hblocks
    exact ⟨v, rfl, hblocks⟩
  · intro ⟨v', hv, hblocks⟩
    rwa [Outcome.ok.inj hv]

/-- A bundle of version 6 with two payload blocks. -/
def doublePayload : Bundle where
  primary := ⟨6, 0, CRCNone, NullEndpoint, NullEndpoint, NullEndpoint, ⟨0, 0⟩, 0, 0, 0⟩
  canonical := [⟨BlockTypePayload, 1, 0, CRCNone, [1]⟩, ⟨BlockTypePayload, 2, 0, CRCNone, [2]⟩]

theorem unmarshal_doublePayload : unmarshal (doublePayload.image ++ []) = .ok doublePayload := by
  have hsound : doublePayload.Sound :=
    ⟨⟨.inl rfl, .null, .null, .null, fun _ ↦ ⟨rfl, rfl⟩⟩, by simp [doublePayload],
      by simp [doublePayload, KnownCRC]⟩
  exact hsound.unmarshal_image (by decide +kernel)

theorem unmarshal_wellFormed_iff_doublePayload :
    doublePayload.WellFormed ↔
      ∃ v, (Cbor.unmarshal (doublePayload.image ++ [])).1 = .ok v ∧ WellFormedBlocks v :=
  unmarshal_wellFormed_iff unmarshal_doublePayload

theorem unmarshal_not_wellFormed :
    ¬∀ (data : List UInt8) (b : Bundle), unmarshal data = .ok b → b.WellFormed := by
  intro hall
  have hwell := hall _ _ unmarshal_doublePayload
  exact absurd hwell.version (by decide)

end Zenith.Bpv7
