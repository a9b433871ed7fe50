import Zenith.Bpv7.Codec

/-!
# Parsing undoes serialization

The parsers read back the fields that the serializers write: they recompute each CRC from the very
fields it was computed from. `Bundle.Sound` is what the round trip needs and what every parsed bundle
has.
-/

namespace Zenith.Bpv7

open Go Cbor

/-- The CRC types of the specification. -/
def KnownCRC (crcType : UInt64) : Prop := crcType = CRCNone ∨ crcType = CRC16 ∨ crcType = CRC32

/-- A primary block that its own serialization determines. -/
structure PrimaryBlock.Sound (p : PrimaryBlock) : Prop where
  crcType : KnownCRC p.crcType
  destination : p.destination.Made
  source : p.source.Made
  reportTo : p.reportTo.Made
  fragment : p.isFragment = false → p.fragmentOffset = 0 ∧ p.totalADULength = 0

structure Bundle.Sound (b : Bundle) : Prop where
  primary : b.primary.Sound
  nonempty : b.canonical ≠ []
  crcTypes : ∀ c ∈ b.canonical, KnownCRC c.crcType

/-! ## The CRC field -/

theorem crcLen_eq_ok {crcType : UInt64} {n : ℕ} :
    crcLen crcType = .ok n ↔ crcType = CRCNone ∧ n = 0 ∨ crcType = CRC16 ∧ n = 2 ∨
      crcType = CRC32 ∧ n = 4 := by
  unfold crcLen
  split_ifs with h0 h1 h2
  · simp [h0, CRCNone, CRC16, CRC32, eq_comm]
  · simp [h1, CRCNone, CRC16, CRC32, eq_comm]
  · simp [h2, CRCNone, CRC16, CRC32, eq_comm]
  · simp [h0, h1, h2]

theorem knownCRC_of_crcLen {crcType : UInt64} {n : ℕ} (h : crcLen crcType = .ok n) :
    KnownCRC crcType := by
  rcases crcLen_eq_ok.mp h with ⟨h, -⟩ | ⟨h, -⟩ | ⟨h, -⟩
  · exact .inl h
  · exact .inr (.inl h)
  · exact .inr (.inr h)

theorem cborMarshal_eq {v : Value} (hv : v.Encodable) :
    cborMarshal v = .ok (Item.ofValue v).bytes := by
  rw [cborMarshal, hv.marshal_eq]

/-- The width of the CRC field. -/
def crcWidth (crcType : UInt64) : ℕ :=
  if crcType = CRC16 then 2 else if crcType = CRC32 then 4 else 0

/-- The block that the CRC of `fields` is computed over. -/
def zeroed (fields : List Value) (crcType : UInt64) : Value :=
  .array (fields ++ [.bytes (List.replicate (crcWidth crcType) 0)])

/-- What `appendCRC` appends. -/
def crcField (fields : List Value) (crcType : UInt64) : List Value :=
  if crcType = CRCNone then []
  else [.bytes (crcBytes crcType (Item.ofValue (zeroed fields crcType)).bytes)]

theorem appendCRC_eq {fields : List Value} {crcType : UInt64} (hcrc : KnownCRC crcType)
    (hfields : ∀ v ∈ fields, v.Encodable) :
    appendCRC fields crcType = .ok (fields ++ crcField fields crcType) := by
  have hzeroed : (zeroed fields crcType).Encodable := by
    apply Value.Encodable.array
    intro v hv
    rcases List.mem_append.mp hv with hv | hv
    · exact hfields v hv
    · rw [List.mem_singleton.mp hv]
      exact .bytes _
  have hmarshal := cborMarshal_eq hzeroed
  unfold appendCRC
  rcases hcrc with rfl | rfl | rfl
  · simp [crcLen, crcField, bind, Except.bind]
  · simp [crcLen, crcField, zeroed, crcWidth, bind, Except.bind, CRC16, CRCNone] at hmarshal ⊢
    rw [hmarshal]
  · simp [crcLen, crcField, zeroed, crcWidth, bind, Except.bind, CRC16, CRCNone, CRC32] at hmarshal ⊢
    rw [hmarshal]

theorem verifyCRC_eq_ok {fields : List Value} {want got : List UInt8} :
    verifyCRC (fields ++ [.bytes want]) got = .ok () ↔ want = got := by
  have hlast : (fields ++ [Value.bytes want]).getLast? = some (.bytes want) := by simp
  rw [verifyCRC, hlast]
  dsimp only
  split_ifs with hlen heq
  · simp only [false_iff]
    rintro rfl
    exact hlen rfl
  · simp [heq]
  · simp [heq]

/-! ## Fields -/

/-- The values that `Marshal` puts into blocks. -/
inductive FieldValue : Value → Prop
  | uint64 (x : UInt64) : FieldValue (.uint64 x)
  | bytes (data : List UInt8) : FieldValue (.bytes data)
  | text (data : GoString) : FieldValue (.text data)
  | array {items : List Value} (nested : ∀ v ∈ items, FieldValue v) : FieldValue (.array items)

theorem FieldValue.pair {a b : Value} (ha : FieldValue a) (hb : FieldValue b) :
    FieldValue (.array [a, b]) :=
  .array (by simpa using ⟨ha, hb⟩)

theorem FieldValue.encodable {v : Value} (h : FieldValue v) : v.Encodable := by
  induction h with
  | uint64 x => exact .uint64 x
  | bytes data => exact .bytes data
  | text data => exact .text data
  | array _ ih => exact .array ih

theorem map_eq_self {items : List Value} {f : Value → Value} (h : ∀ v ∈ items, f v = v) :
    items.map f = items :=
  (List.map_congr_left h).trans (List.map_id _)

/-- Blocks contain no `IndefArray`. -/
theorem FieldValue.definite_eq {v : Value} (h : FieldValue v) : v.definite = v := by
  induction h with
  | uint64 x => rfl
  | bytes data => rfl
  | text data => rfl
  | array _ ih => rw [Value.definite_array, map_eq_self ih]

theorem EndpointID.fieldValue_toCBOR (e : EndpointID) : FieldValue (.array e.toCBOR) := by
  unfold toCBOR
  split_ifs
  · exact .pair (.uint64 _) (.uint64 _)
  · exact .pair (.uint64 _) (.text _)
  · exact .pair (.uint64 _) (.pair (.uint64 _) (.uint64 _))
  · exact .pair (.uint64 _) (.text _)

theorem PrimaryBlock.fieldValue_plainFields (p : PrimaryBlock) :
    ∀ v ∈ p.plainFields, FieldValue v := by
  have hfragment : ∀ v ∈ p.fragmentFields, FieldValue v := by
    unfold fragmentFields
    split_ifs
    · simpa using ⟨FieldValue.uint64 _, FieldValue.uint64 _⟩
    · simp
  intro v hv
  simp only [plainFields, List.mem_append, List.mem_cons, List.not_mem_nil, or_false] at hv
  rcases hv with (rfl | rfl | rfl | rfl | rfl | rfl | rfl | rfl) | hv
  · exact .uint64 _
  · exact .uint64 _
  · exact .uint64 _
  · exact p.destination.fieldValue_toCBOR
  · exact p.source.fieldValue_toCBOR
  · exact p.reportTo.fieldValue_toCBOR
  · exact .pair (.uint64 _) (.uint64 _)
  · exact .uint64 _
  · exact hfragment v hv

theorem CanonicalBlock.fieldValue_plainFields (c : CanonicalBlock) :
    ∀ v ∈ c.plainFields, FieldValue v := by
  intro v hv
  simp only [plainFields, List.mem_cons, List.not_mem_nil, or_false] at hv
  rcases hv with rfl | rfl | rfl | rfl | rfl
  · exact .uint64 _
  · exact .uint64 _
  · exact .uint64 _
  · exact .uint64 _
  · exact .bytes _

theorem fieldValue_append_crcField {fields : List Value} (h : ∀ v ∈ fields, FieldValue v)
    (plain : List Value) (crcType : UInt64) :
    ∀ v ∈ fields ++ crcField plain crcType, FieldValue v := by
  intro v hv
  rcases List.mem_append.mp hv with hv | hv
  · exact h v hv
  · unfold crcField at hv
    split_ifs at hv
    · exact absurd hv List.not_mem_nil
    · rw [List.mem_singleton.mp hv]
      exact .bytes _

/-- The fields of a primary block, CRC included. -/
def PrimaryBlock.fields (p : PrimaryBlock) : List Value :=
  p.plainFields ++ crcField p.plainFields p.crcType

/-- The fields of a canonical block, CRC included. -/
def CanonicalBlock.fields (c : CanonicalBlock) : List Value :=
  c.plainFields ++ crcField c.plainFields c.crcType

theorem PrimaryBlock.fieldValue_fields (p : PrimaryBlock) : FieldValue (.array p.fields) :=
  .array (fieldValue_append_crcField p.fieldValue_plainFields _ _)

theorem CanonicalBlock.fieldValue_fields (c : CanonicalBlock) : FieldValue (.array c.fields) :=
  .array (fieldValue_append_crcField c.fieldValue_plainFields _ _)

theorem primaryFields_eq {p : PrimaryBlock} (h : KnownCRC p.crcType) :
    primaryFields p = .ok p.fields :=
  appendCRC_eq h fun v hv ↦ (p.fieldValue_plainFields v hv).encodable

theorem canonicalFields_eq {c : CanonicalBlock} (h : KnownCRC c.crcType) :
    canonicalFields c = .ok c.fields :=
  appendCRC_eq h fun v hv ↦ (c.fieldValue_plainFields v hv).encodable

/-- The blocks of a bundle as one value. -/
def Bundle.value (b : Bundle) : Value :=
  .indefArray (.array b.primary.fields :: b.canonical.map fun c ↦ .array c.fields)

theorem Bundle.fieldValue_blocks (b : Bundle) :
    ∀ v ∈ Value.array b.primary.fields :: b.canonical.map fun c ↦ .array c.fields,
      FieldValue v := by
  intro v hv
  rcases List.mem_cons.mp hv with rfl | hv
  · exact b.primary.fieldValue_fields
  · obtain ⟨c, -, rfl⟩ := List.mem_map.mp hv
    exact c.fieldValue_fields

theorem Bundle.encodable_value (b : Bundle) : b.value.Encodable :=
  .indefArray fun v hv ↦ (b.fieldValue_blocks v hv).encodable

theorem canonicalElems_eq {cs : List CanonicalBlock} (h : ∀ c ∈ cs, KnownCRC c.crcType) :
    canonicalElems cs = .ok (cs.map fun c ↦ .array c.fields) := by
  induction cs with
  | nil => rfl
  | cons c cs ih =>
    rw [canonicalElems, canonicalFields_eq (h c (by simp)), ih fun c' hc' ↦ h c' (by simp [hc'])]
    rfl

/-- The wire image of a bundle. -/
def Bundle.image (b : Bundle) : List UInt8 := (Item.ofValue b.value).bytes

theorem Bundle.marshal_eq {b : Bundle} (hprimary : KnownCRC b.primary.crcType)
    (hcanonical : ∀ c ∈ b.canonical, KnownCRC c.crcType) : b.marshal = .ok b.image := by
  rw [Bundle.marshal, primaryFields_eq hprimary, canonicalElems_eq hcanonical]
  exact cborMarshal_eq b.encodable_value

/-! ## Reading fields -/

mutual

/-- A value as the parsers take it: a non-negative `int64` counts as the `uint64` it equals. -/
def unsigned : Value → Value
  | .int64 x => if x < 0 then .int64 x else .uint64 x.toUInt64
  | .array items => .array (unsignedItems items)
  | v => v
termination_by structural v => v

def unsignedItems : List Value → List Value
  | [] => []
  | item :: rest => unsigned item :: unsignedItems rest
termination_by structural items => items

end

theorem unsignedItems_eq_map (items : List Value) : unsignedItems items = items.map unsigned := by
  induction items with
  | nil => simp [unsignedItems]
  | cons item rest ih => simp [unsignedItems, ih]

@[simp] theorem unsigned_array (items : List Value) :
    unsigned (.array items) = .array (items.map unsigned) := by
  rw [unsigned, unsignedItems_eq_map]

@[simp] theorem unsigned_text (s : GoString) : unsigned (.text s) = .text s := by
  rw [unsigned]
  all_goals simp

theorem asUint64_eq_ok {v : Value} {x : UInt64} :
    asUint64 v = .ok x ↔ unsigned v = .uint64 x := by
  cases v with
  | uint64 y => simp [asUint64, unsigned]
  | int64 y =>
    by_cases hneg : y < 0
    · simp [asUint64, unsigned, hneg]
    · simp [asUint64, unsigned, hneg]
  | array items => simp [asUint64]
  | _ => simp [asUint64, unsigned]

theorem unsigned_eq_text {v : Value} {s : GoString} : unsigned v = .text s ↔ v = .text s := by
  cases v with
  | int64 y => by_cases hneg : y < 0 <;> simp [unsigned, hneg]
  | array items => simp
  | _ => simp [unsigned]

theorem unsigned_eq_bytes {v : Value} {s : List UInt8} : unsigned v = .bytes s ↔ v = .bytes s := by
  cases v with
  | int64 y => by_cases hneg : y < 0 <;> simp [unsigned, hneg]
  | array items => simp
  | _ => simp [unsigned]

theorem unsigned_eq_array {v : Value} {items : List Value} :
    unsigned v = .array items ↔ ∃ raw, v = .array raw ∧ raw.map unsigned = items := by
  cases v with
  | int64 y => by_cases hneg : y < 0 <;> simp [unsigned, hneg]
  | array raw => simp
  | _ => simp [unsigned]

theorem unsigned_eq_pair {v first second : Value} :
    unsigned v = .array [first, second] ↔
      ∃ a b, v = .array [a, b] ∧ unsigned a = first ∧ unsigned b = second := by
  rw [unsigned_eq_array]
  constructor
  · rintro ⟨raw, rfl, hraw⟩
    match raw, hraw with
    | [a, b], hraw =>
      simp only [List.map_cons, List.map_nil, List.cons.injEq, and_true] at hraw
      exact ⟨a, b, rfl, hraw⟩
  · rintro ⟨a, b, rfl, rfl, rfl⟩
    exact ⟨[a, b], rfl, rfl⟩

/-- `eidFromCBOR` inverts `toCBOR` up to the form of integers. -/
theorem eidFromCBOR_eq_ok {v : Value} {e : EndpointID} :
    eidFromCBOR v = .ok e ↔ e.Made ∧ unsigned v = .array e.toCBOR := by
  constructor
  · intro h
    refine ⟨made_of_eidFromCBOR h, ?_⟩
    obtain ⟨first, ssp, rfl, ⟨hscheme, hdtn⟩ | ⟨hscheme, hipn⟩⟩ := eidFromCBOR_eq_branch.mp h
    · rw [asUint64_eq_ok] at hscheme
      rcases dtnFromCBOR_eq_ok.mp hdtn with ⟨hzero, rfl⟩ | ⟨text, rfl, rfl⟩
      · rw [asUint64_eq_ok] at hzero
        simp [hscheme, hzero, EndpointID.toCBOR, NullEndpoint]
      · simp [hscheme, EndpointID.toCBOR, DTN, EndpointID.zero]
    · obtain ⟨_, _, node, service, rfl, hnode, hservice, rfl⟩ := ipnFromCBOR_eq_ok.mp hipn
      rw [asUint64_eq_ok] at hscheme hnode hservice
      simp [hscheme, hnode, hservice, EndpointID.toCBOR, IPN, SchemeIPN, SchemeDTN]
  · rintro ⟨hmade, hv⟩
    rw [eidFromCBOR_eq_branch]
    cases hmade with
    | null =>
      obtain ⟨a, b, rfl, ha, hb⟩ := unsigned_eq_pair.mp hv
      rw [← asUint64_eq_ok] at ha hb
      exact ⟨a, b, rfl, .inl ⟨ha, dtnFromCBOR_eq_ok.mpr (.inl ⟨hb, rfl⟩)⟩⟩
    | dtn ssp =>
      obtain ⟨a, b, rfl, ha, hb⟩ := unsigned_eq_pair.mp hv
      rw [← asUint64_eq_ok] at ha
      rw [unsigned_eq_text] at hb
      exact ⟨a, b, rfl, .inl ⟨ha, dtnFromCBOR_eq_ok.mpr (.inr ⟨ssp, hb, rfl⟩)⟩⟩
    | ipn node service =>
      obtain ⟨a, b, rfl, ha, hb⟩ := unsigned_eq_pair.mp hv
      obtain ⟨c, d, rfl, hc, hd⟩ := unsigned_eq_pair.mp hb
      rw [← asUint64_eq_ok] at ha hc hd
      exact ⟨a, _, rfl, .inr ⟨ha, ipnFromCBOR_eq_ok.mpr ⟨c, d, node, service, rfl, hc, hd, rfl⟩⟩⟩

theorem parseTimestamp_eq_ok {v : Value} {t : CreationTimestamp} :
    parseTimestamp v = .ok t ↔ unsigned v = .array [.uint64 t.time, .uint64 t.sequenceNumber] := by
  constructor
  · intro h
    unfold parseTimestamp at h
    split at h
    · obtain ⟨time, htime, hrest⟩ := bind_eq_ok.mp h
      obtain ⟨sequenceNumber, hsequence, hok⟩ := bind_eq_ok.mp hrest
      rw [asUint64_eq_ok] at htime hsequence
      rw [← Except.ok.inj hok]
      simp [htime, hsequence]
    · simp at h
  · intro h
    obtain ⟨a, b, rfl, ha, hb⟩ := unsigned_eq_pair.mp h
    simp [parseTimestamp, asUint64_eq_ok.mpr ha, asUint64_eq_ok.mpr hb, bind, Except.bind]

/-! ## Reading blocks -/

/-- A CRC is verified against the fields that the serialization would have, and equals the last. -/
theorem verifyCRC_appendCRC {plain : List Value} {crcType : UInt64} {got : List UInt8}
    (hcrc : crcType ≠ CRCNone) (hplain : ∀ v ∈ plain, v.Encodable) :
    (∃ fields, appendCRC plain crcType = .ok fields ∧ verifyCRC fields got = .ok ()) ↔
      KnownCRC crcType ∧ crcField plain crcType = [.bytes got] := by
  have hverify : verifyCRC (plain ++ crcField plain crcType) got = .ok () ↔
      crcField plain crcType = [.bytes got] := by
    rw [crcField, if_neg hcrc, verifyCRC_eq_ok]
    simp
  constructor
  · rintro ⟨fields, hfields, h⟩
    obtain ⟨n, hlen, -⟩ := bind_eq_ok.mp hfields
    have hknown := knownCRC_of_crcLen hlen
    rw [appendCRC_eq hknown hplain, Except.ok.injEq] at hfields
    rw [← hfields] at h
    exact ⟨hknown, hverify.mp h⟩
  · rintro ⟨hknown, hfield⟩
    exact ⟨_, appendCRC_eq hknown hplain, hverify.mpr hfield⟩

/-- What follows the plain fields of a block with a CRC is a byte string that holds the CRC. -/
theorem exists_crcField {plain rest : List Value} {crcType : UInt64} (hcrc : crcType ≠ CRCNone) :
    (∃ got surplus, rest = .bytes got :: surplus ∧
        KnownCRC crcType ∧ crcField plain crcType = [.bytes got]) ↔
      KnownCRC crcType ∧ ∃ surplus, rest = crcField plain crcType ++ surplus := by
  constructor
  · rintro ⟨got, surplus, rfl, hknown, hfield⟩
    refine ⟨hknown, surplus, ?_⟩
    rw [hfield]
    rfl
  · rintro ⟨hknown, surplus, rfl⟩
    have hfield : crcField plain crcType =
        [.bytes (crcBytes crcType (Item.ofValue (zeroed plain crcType)).bytes)] := if_neg hcrc
    refine ⟨_, surplus, ?_, hknown, hfield⟩
    rw [hfield]
    rfl

theorem verifyPrimaryCRC_eq_ok {p : PrimaryBlock} (hcrc : p.crcType ≠ CRCNone) {got : List UInt8} :
    verifyPrimaryCRC p got = .ok () ↔
      KnownCRC p.crcType ∧ crcField p.plainFields p.crcType = [.bytes got] := by
  rw [← verifyCRC_appendCRC hcrc fun v hv ↦ (p.fieldValue_plainFields v hv).encodable,
    verifyPrimaryCRC, bind_eq_ok]
  apply exists_congr
  intro fields
  apply and_congr_right
  intro _
  cases verifyCRC fields got with
  | error err => simp
  | ok => simp

/-- The CRC that a parsed block carries is the one its serialization would carry. -/
theorem checkPrimaryCRC_eq_ok {p : PrimaryBlock} {rest : List Value} :
    checkPrimaryCRC p rest = .ok () ↔
      KnownCRC p.crcType ∧ ∃ surplus, rest = crcField p.plainFields p.crcType ++ surplus := by
  unfold checkPrimaryCRC
  split_ifs with hcrc
  · rw [← exists_crcField hcrc]
    constructor
    · intro h
      split at h
      · simp at h
      · next got surplus => exact ⟨got, surplus, rfl, (verifyPrimaryCRC_eq_ok hcrc).mp h⟩
      · simp at h
    · rintro ⟨got, surplus, rfl, h⟩
      exact (verifyPrimaryCRC_eq_ok hcrc).mpr h
  · have hnone : p.crcType = CRCNone := not_not.mp hcrc
    simp [KnownCRC, crcField, hnone]

theorem checkCanonicalCRC_eq_ok {c : CanonicalBlock} {rest : List Value} :
    checkCanonicalCRC c rest = .ok () ↔
      KnownCRC c.crcType ∧ ∃ surplus, rest = crcField c.plainFields c.crcType ++ surplus := by
  unfold checkCanonicalCRC
  split_ifs with hcrc
  · rw [← exists_crcField hcrc]
    have hverify (got : List UInt8) := @verifyCRC_appendCRC _ _ got hcrc
      fun v hv ↦ (c.fieldValue_plainFields v hv).encodable
    constructor
    · intro h
      split at h
      · simp at h
      · next got surplus =>
        obtain ⟨fields, hfields, hcheck⟩ := bind_eq_ok.mp h
        split at hcheck
        · simp at hcheck
        · next hsame => exact ⟨got, surplus, rfl, (hverify got).mp ⟨fields, hfields, hsame⟩⟩
      · simp at h
    · rintro ⟨got, surplus, rfl, h⟩
      obtain ⟨fields, hfields, hsame⟩ := (hverify got).mpr h
      refine bind_eq_ok.mpr ⟨fields, hfields, ?_⟩
      rw [hsame]
  · have hnone : c.crcType = CRCNone := not_not.mp hcrc
    simp [KnownCRC, crcField, hnone]

theorem PrimaryBlock.withoutFragment_eq {p : PrimaryBlock} (hoffset : p.fragmentOffset = 0)
    (hlength : p.totalADULength = 0) :
    { p with fragmentOffset := 0, totalADULength := 0 } = p := by
  cases p
  simp_all

theorem parseFragment_eq_ok {p p' : PrimaryBlock} {rest rest' : List Value}
    (hzero : p.fragmentOffset = 0 ∧ p.totalADULength = 0) :
    parseFragment p rest = .ok (p', rest') ↔
      p = { p' with fragmentOffset := 0, totalADULength := 0 } ∧
        (p'.isFragment = false → p'.fragmentOffset = 0 ∧ p'.totalADULength = 0) ∧
        ∃ fields, rest = fields ++ rest' ∧ fields.map unsigned = p'.fragmentFields := by
  obtain ⟨hoffset, hlength⟩ := hzero
  have hself := (PrimaryBlock.withoutFragment_eq hoffset hlength).symm
  unfold parseFragment
  split_ifs with hfragment
  · constructor
    · intro h
      split at h
      · next first second tail =>
        obtain ⟨x, hx, hrest⟩ := bind_eq_ok.mp h
        obtain ⟨y, hy, hok⟩ := bind_eq_ok.mp hrest
        rw [asUint64_eq_ok] at hx hy
        simp only [Except.ok.injEq, Prod.mk.injEq] at hok
        obtain ⟨rfl, rfl⟩ := hok
        have hflag : PrimaryBlock.isFragment { p with fragmentOffset := x, totalADULength := y } =
            true := hfragment
        refine ⟨hself, fun hclear ↦ ?_, [first, second], rfl, ?_⟩
        · rw [hflag] at hclear
          exact absurd hclear (by decide)
        · simp [PrimaryBlock.fragmentFields, hflag, hx, hy]
      · simp at h
    · rintro ⟨hp, -, fields, rfl, hfields⟩
      have hflag : p'.isFragment = true := by
        rw [hp] at hfragment
        exact hfragment
      simp only [PrimaryBlock.fragmentFields, hflag, if_true, List.map_eq_cons_iff,
        List.map_eq_nil_iff] at hfields
      obtain ⟨a, _, rfl, ha, b, _, rfl, hb, rfl⟩ := hfields
      simp only [List.cons_append, List.nil_append, asUint64_eq_ok.mpr ha, asUint64_eq_ok.mpr hb,
        bind, Except.bind, hp]
  · constructor
    · intro h
      simp only [Except.ok.injEq, Prod.mk.injEq] at h
      obtain ⟨rfl, rfl⟩ := h
      refine ⟨hself, fun _ ↦ ⟨hoffset, hlength⟩, [], rfl, ?_⟩
      simp [PrimaryBlock.fragmentFields, hfragment]
    · rintro ⟨hp, hclear, fields, rfl, hfields⟩
      have hflag : p'.isFragment = false := by
        rw [hp] at hfragment
        exact Bool.not_eq_true _ ▸ hfragment
      have hfieldsNil : fields = [] := by
        simpa [PrimaryBlock.fragmentFields, hflag] using hfields
      obtain ⟨hoffset', hlength'⟩ := hclear hflag
      rw [hfieldsNil, hp, PrimaryBlock.withoutFragment_eq hoffset' hlength']
      rfl

/-- A primary block is read from its own fields, in any integer form, the CRC of its serialization,
and whatever comes after them. -/
theorem parsePrimary_eq_ok {arr : List Value} {p : PrimaryBlock} :
    parsePrimary arr = .ok p ↔ p.Sound ∧ ∃ fields surplus, fields.map unsigned = p.plainFields ∧
      arr = fields ++ (crcField p.plainFields p.crcType ++ surplus) := by
  constructor
  · intro h
    unfold parsePrimary at h
    split at h
    · next version flags crcType destination source reportTo timestamp lifetime rest =>
      obtain ⟨version', hversion, h⟩ := bind_eq_ok.mp h
      obtain ⟨flags', hflags, h⟩ := bind_eq_ok.mp h
      obtain ⟨crcType', hcrcType, h⟩ := bind_eq_ok.mp h
      obtain ⟨destination', hdestination, h⟩ := bind_eq_ok.mp h
      obtain ⟨source', hsource, h⟩ := bind_eq_ok.mp h
      obtain ⟨reportTo', hreportTo, h⟩ := bind_eq_ok.mp h
      obtain ⟨timestamp', htimestamp, h⟩ := bind_eq_ok.mp h
      obtain ⟨lifetime', hlifetime, h⟩ := bind_eq_ok.mp h
      obtain ⟨⟨p', rest'⟩, hfragment, h⟩ := bind_eq_ok.mp h
      obtain ⟨⟨⟩, hcheck, h⟩ := bind_eq_ok.mp h
      obtain rfl := Except.ok.inj h
      obtain ⟨hknown, surplus, rfl⟩ := checkPrimaryCRC_eq_ok.mp hcheck
      obtain ⟨hp, hclear, fields, rfl, hfields⟩ := (parseFragment_eq_ok ⟨rfl, rfl⟩).mp hfragment
      simp only [PrimaryBlock.mk.injEq] at hp
      obtain ⟨rfl, rfl, rfl, rfl, rfl, rfl, rfl, rfl, -, -⟩ := hp
      rw [asUint64_eq_ok] at hversion hflags hcrcType hlifetime
      rw [eidFromCBOR_eq_ok] at hdestination hsource hreportTo
      rw [parseTimestamp_eq_ok] at htimestamp
      refine ⟨⟨hknown, hdestination.1, hsource.1, hreportTo.1, hclear⟩,
        [version, flags, crcType, destination, source, reportTo, timestamp, lifetime] ++ fields,
        surplus, ?_, by simp⟩
      rw [List.map_append, hfields]
      simp only [List.map_cons, List.map_nil, hversion, hflags, hcrcType, hdestination.2,
        hsource.2, hreportTo.2, htimestamp, hlifetime]
      rfl
    · simp at h
  · rintro ⟨hsound, fields, surplus, hfields, rfl⟩
    rw [PrimaryBlock.plainFields, List.map_eq_append_iff] at hfields
    obtain ⟨plain, fragment, rfl, hplain, hfragment⟩ := hfields
    simp only [List.map_eq_cons_iff, List.map_eq_nil_iff] at hplain
    obtain ⟨version, _, rfl, hversion, flags, _, rfl, hflags, crcType, _, rfl, hcrcType,
      destination, _, rfl, hdestination, source, _, rfl, hsource, reportTo, _, rfl, hreportTo,
      timestamp, _, rfl, htimestamp, lifetime, _, rfl, hlifetime, rfl⟩ := hplain
    have hparse := (@parseFragment_eq_ok { p with fragmentOffset := 0, totalADULength := 0 } p
      (fragment ++ (crcField p.plainFields p.crcType ++ surplus)) _ ⟨rfl, rfl⟩).mpr
      ⟨rfl, hsound.fragment, fragment, rfl, hfragment⟩
    have hcheck := checkPrimaryCRC_eq_ok.mpr ⟨hsound.crcType, surplus, rfl⟩
    simp only [parsePrimary, List.cons_append, List.nil_append, asUint64_eq_ok.mpr hversion,
      asUint64_eq_ok.mpr hflags, asUint64_eq_ok.mpr hcrcType, asUint64_eq_ok.mpr hlifetime,
      eidFromCBOR_eq_ok.mpr ⟨hsound.destination, hdestination⟩,
      eidFromCBOR_eq_ok.mpr ⟨hsound.source, hsource⟩,
      eidFromCBOR_eq_ok.mpr ⟨hsound.reportTo, hreportTo⟩, parseTimestamp_eq_ok.mpr htimestamp,
      bind, Except.bind, hparse, hcheck]

theorem parseCanonical_eq_ok {arr : List Value} {c : CanonicalBlock} :
    parseCanonical arr = .ok c ↔ KnownCRC c.crcType ∧
      ∃ fields surplus, fields.map unsigned = c.plainFields ∧
        arr = fields ++ (crcField c.plainFields c.crcType ++ surplus) := by
  constructor
  · intro h
    unfold parseCanonical at h
    split at h
    · next type number flags crcType data rest =>
      obtain ⟨type', htype, h⟩ := bind_eq_ok.mp h
      obtain ⟨number', hnumber, h⟩ := bind_eq_ok.mp h
      obtain ⟨flags', hflags, h⟩ := bind_eq_ok.mp h
      obtain ⟨crcType', hcrcType, h⟩ := bind_eq_ok.mp h
      cases data with
      | bytes data =>
        obtain ⟨⟨⟩, hcheck, h⟩ := bind_eq_ok.mp h
        obtain rfl := Except.ok.inj h
        obtain ⟨hknown, surplus, rfl⟩ := checkCanonicalCRC_eq_ok.mp hcheck
        rw [asUint64_eq_ok] at htype hnumber hflags hcrcType
        refine ⟨hknown, [type, number, flags, crcType, .bytes data], surplus, ?_, rfl⟩
        have hdata : unsigned (.bytes data) = .bytes data := unsigned_eq_bytes.mpr rfl
        simp only [List.map_cons, List.map_nil, htype, hnumber, hflags, hcrcType, hdata]
        rfl
      | _ => simp at h
    · simp at h
  · rintro ⟨hknown, fields, surplus, hfields, rfl⟩
    rw [CanonicalBlock.plainFields] at hfields
    simp only [List.map_eq_cons_iff, List.map_eq_nil_iff] at hfields
    obtain ⟨type, _, rfl, htype, number, _, rfl, hnumber, flags, _, rfl, hflags, crcType, _, rfl,
      hcrcType, data, _, rfl, hdata, rfl⟩ := hfields
    rw [unsigned_eq_bytes] at hdata
    subst hdata
    have hcheck := checkCanonicalCRC_eq_ok.mpr ⟨hknown, surplus, rfl⟩
    simp only [parseCanonical, List.cons_append, List.nil_append, asUint64_eq_ok.mpr htype,
      asUint64_eq_ok.mpr hnumber, asUint64_eq_ok.mpr hflags, asUint64_eq_ok.mpr hcrcType, bind,
      Except.bind, hcheck]

/-! ## Reading bundles -/

/-- The blocks of a bundle after the primary one, as values. -/
def ReadsCanonical (v : Value) (c : CanonicalBlock) : Prop :=
  ∃ arr, v = .array arr ∧ parseCanonical arr = .ok c

theorem parseCanonicals_eq_ok {raws : List Value} {cs : List CanonicalBlock} :
    parseCanonicals raws = .ok cs ↔ List.Forall₂ ReadsCanonical raws cs := by
  induction raws generalizing cs with
  | nil => simp [parseCanonicals, eq_comm]
  | cons raw raws ih =>
    constructor
    · intro h
      cases raw with
      | array arr =>
        obtain ⟨c, hc, hafter⟩ := bind_eq_ok.mp h
        obtain ⟨rest, hrest, hok⟩ := bind_eq_ok.mp hafter
        obtain rfl := Except.ok.inj hok
        exact .cons ⟨arr, rfl, hc⟩ (ih.mp hrest)
      | _ => simp [parseCanonicals] at h
    · rintro (_ | ⟨⟨arr, rfl, hc⟩, hrest⟩)
      simp only [parseCanonicals, hc, ih.mpr hrest, bind, Except.bind]

theorem parseBundle_eq_ok {v : Value} {b : Bundle} :
    parseBundle v = .ok b ↔ ∃ arr raws, v = .array (.array arr :: raws) ∧ raws ≠ [] ∧
      parsePrimary arr = .ok b.primary ∧ List.Forall₂ ReadsCanonical raws b.canonical := by
  constructor
  · intro h
    unfold parseBundle at h
    split at h
    · next first second raws =>
      cases first with
      | array arr =>
        obtain ⟨primary, hprimary, hrest⟩ := bind_eq_ok.mp h
        obtain ⟨canonical, hcanonical, hok⟩ := bind_eq_ok.mp hrest
        obtain rfl := Except.ok.inj hok
        exact ⟨arr, second :: raws, rfl, by simp, hprimary, parseCanonicals_eq_ok.mp hcanonical⟩
      | _ => simp at h
    · simp at h
  · rintro ⟨arr, raws, rfl, hne, hprimary, hcanonical⟩
    obtain ⟨second, raws, rfl⟩ := List.exists_cons_of_ne_nil hne
    simp only [parseBundle, hprimary, parseCanonicals_eq_ok.mpr hcanonical, bind, Except.bind]

theorem unmarshal_eq_ok {data : List UInt8} {b : Bundle} :
    unmarshal data = .ok b ↔ ∃ v n, Cbor.unmarshal data = (.ok v, n) ∧ parseBundle v = .ok b := by
  unfold unmarshal
  rcases hread : Cbor.unmarshal data with ⟨_ | _ | _ | _, n⟩
  · next v =>
    cases hparse : parseBundle v with
    | error err => simp [hparse]
    | ok b' => simp [hparse]
  · simp
  · simp
  · simp

theorem bundle_returns_iff (data : List UInt8) :
    (unmarshal data).Returns ↔ (Cbor.unmarshal data).1.Returns := by
  unfold unmarshal
  cases (Cbor.unmarshal data).1 with
  | ok v =>
    dsimp only
    cases parseBundle v <;> simp
  | error err => simp
  | panic reason => simp
  | outOfFuel => simp

/-- Every bundle that `Unmarshal` returns is sound. -/
theorem sound_of_unmarshal {data : List UInt8} {b : Bundle} (h : unmarshal data = .ok b) :
    b.Sound := by
  obtain ⟨v, n, -, hparse⟩ := unmarshal_eq_ok.mp h
  obtain ⟨arr, raws, rfl, hne, hprimary, hcanonical⟩ := parseBundle_eq_ok.mp hparse
  refine ⟨(parsePrimary_eq_ok.mp hprimary).1, ?_, ?_⟩
  · intro hnil
    rw [hnil] at hcanonical
    exact hne (List.forall₂_nil_right_iff.mp hcanonical)
  · intro c hc
    obtain ⟨i, hi, rfl⟩ := List.getElem_of_mem hc
    have hlen := hcanonical.length_eq
    obtain ⟨arr, -, hparse⟩ := hcanonical.get (by omega) hi
    exact (parseCanonical_eq_ok.mp hparse).1

/-! ## The round trip -/

@[simp] theorem unsigned_uint64 (x : UInt64) : unsigned (.uint64 x) = .uint64 x := by
  rw [unsigned]
  all_goals simp

@[simp] theorem unsigned_bytes (data : List UInt8) : unsigned (.bytes data) = .bytes data :=
  unsigned_eq_bytes.mpr rfl

/-- Serialization writes every number as an unsigned integer. -/
theorem FieldValue.unsigned_eq {v : Value} (h : FieldValue v) : unsigned v = v := by
  induction h with
  | uint64 x => exact unsigned_uint64 x
  | bytes data => exact unsigned_bytes data
  | text data => exact unsigned_text data
  | array _ ih => rw [unsigned_array, map_eq_self ih]

theorem Bundle.definite_value (b : Bundle) :
    b.value.definite =
      .array (.array b.primary.fields :: b.canonical.map fun c ↦ .array c.fields) := by
  rw [Bundle.value, Value.definite_indefArray,
    map_eq_self fun v hv ↦ (b.fieldValue_blocks v hv).definite_eq]

theorem PrimaryBlock.Sound.parsePrimary_fields {p : PrimaryBlock} (h : p.Sound) :
    parsePrimary p.fields = .ok p := by
  have hfields := map_eq_self fun v hv ↦ (p.fieldValue_plainFields v hv).unsigned_eq
  exact parsePrimary_eq_ok.mpr ⟨h, p.plainFields, [], hfields, by simp [fields]⟩

theorem parseCanonical_fields {c : CanonicalBlock} (h : KnownCRC c.crcType) :
    parseCanonical c.fields = .ok c := by
  have hfields := map_eq_self fun v hv ↦ (c.fieldValue_plainFields v hv).unsigned_eq
  exact parseCanonical_eq_ok.mpr ⟨h, c.plainFields, [], hfields, by simp [CanonicalBlock.fields]⟩

theorem Bundle.Sound.parseBundle_value {b : Bundle} (h : b.Sound) :
    parseBundle b.value.definite = .ok b := by
  rw [Bundle.definite_value, parseBundle_eq_ok]
  refine ⟨b.primary.fields, _, rfl, by simpa using h.nonempty, h.primary.parsePrimary_fields, ?_⟩
  rw [List.forall₂_map_left_iff, List.forall₂_same]
  intro c hc
  exact ⟨c.fields, rfl, parseCanonical_fields (h.crcTypes c hc)⟩

/-- The wire image of a sound bundle is read back, whatever follows it. -/
theorem Bundle.Sound.unmarshal_image {b : Bundle} (h : b.Sound) {tail : List UInt8}
    (hlen : b.image.length + tail.length < 2 ^ 63) : unmarshal (b.image ++ tail) = .ok b := by
  have hread := b.encodable_value.unmarshal_bytes tail hlen
  exact unmarshal_eq_ok.mpr ⟨_, _, hread, h.parseBundle_value⟩

/-- A sound bundle, and with it every bundle that `Unmarshal` ever returned, is serialized and read
back unchanged, under the same identity. -/
theorem unmarshal_marshal_bundle {b : Bundle}
    (h : b.Sound ∨ ∃ data : List UInt8, data.length < 2 ^ 63 ∧ unmarshal data = .ok b) :
    ∃ bs, b.marshal = .ok bs ∧
      (bs.length < 2 ^ 63 → ∃ b', unmarshal bs = .ok b' ∧ b' = b ∧ b'.id = b.id) := by
  have hsound : b.Sound := by
    rcases h with hsound | ⟨data, -, hread⟩
    · exact hsound
    · exact sound_of_unmarshal hread
  refine ⟨b.image, Bundle.marshal_eq hsound.primary.crcType hsound.crcTypes, fun hlen ↦ ?_⟩
  have hread : unmarshal (b.image ++ []) = .ok b := hsound.unmarshal_image (by simpa using hlen)
  rw [List.append_nil] at hread
  exact ⟨b, hread, rfl, rfl⟩

/-- A fragment from a dtn to an ipn endpoint, with an extension block and both kinds of CRC. -/
def relayedFragment : Bundle where
  primary := ⟨Version, FlagIsFragment, CRC16, IPN 2 1, DTN (lit "//ground-1/inbox"), NullEndpoint,
    ⟨820454400000, 3⟩, 3600000, 100, 4096⟩
  canonical := [⟨10, 2, 0, CRC32, [0x18, 0x20]⟩, ⟨BlockTypePayload, 1, 0, CRC16, lit "scene data"⟩]

theorem sound_relayedFragment : relayedFragment.Sound where
  primary := ⟨.inr (.inl rfl), .ipn 2 1, .dtn _, .null, fun h ↦ absurd h (by decide)⟩
  nonempty := by simp [relayedFragment]
  crcTypes := by simp [relayedFragment, KnownCRC]

theorem marshal_relayedFragment : relayedFragment.marshal = .ok relayedFragment.image :=
  Bundle.marshal_eq sound_relayedFragment.primary.crcType sound_relayedFragment.crcTypes

theorem length_image_relayedFragment : relayedFragment.image.length = 89 := by decide +kernel

theorem unmarshal_marshal_relayedFragment : relayedFragment.marshal = .ok relayedFragment.image ∧
    ∃ b', unmarshal relayedFragment.image = .ok b' ∧ b' = relayedFragment ∧
      b'.id = relayedFragment.id := by
  obtain ⟨bs, hbs, hread⟩ := unmarshal_marshal_bundle (.inl sound_relayedFragment)
  cases marshal_relayedFragment.symm.trans hbs
  exact ⟨hbs, hread (by rw [length_image_relayedFragment]; decide)⟩

end Zenith.Bpv7
