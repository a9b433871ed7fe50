import Zenith.Bpv7.Detection

/-!
# Single-bit corruption of a CRC-protected bundle

A corrupted copy that keeps the layout of the image is detected, so in particular one whose block
data are corrupted. Two bits of every protected bundle escape the CRCs. One turns the outer array
into a map, whose first key then cannot be hashed. The other turns the CRC type of the primary block
into "none": the parser takes the CRC field for a surplus element and checks nothing.
-/

namespace Zenith.Bpv7

open Go Cbor

/-- The data with one bit inverted; bit `i` is bit `i % 8` of byte `i / 8`. -/
def flipBit (data : List UInt8) (i : ℕ) : List UInt8 :=
  data.modify (i / 8) (· ^^^ (1 : UInt8) <<< UInt8.ofNat (i % 8))

theorem modify_append_cons {α : Type} (before after : List α) (a : α) (f : α → α) :
    (before ++ a :: after).modify before.length f = before ++ f a :: after := by
  induction before with
  | nil => rfl
  | cons x before ih => simp [ih]

theorem flipBit_append (before after : List UInt8) (b : UInt8) {j : ℕ} (hj : j < 8) :
    flipBit (before ++ b :: after) (8 * before.length + j) =
      before ++ (b ^^^ (1 : UInt8) <<< UInt8.ofNat j) :: after := by
  have hbyte : (8 * before.length + j) / 8 = before.length := by omega
  have hbit : (8 * before.length + j) % 8 = j := by omega
  rw [flipBit, hbyte, hbit]
  exact modify_append_cons before after b _

theorem exists_byte_of_bit {data : List UInt8} {i : ℕ} (hi : i < 8 * data.length) :
    ∃ u x v j, data = u ++ x :: v ∧ i = 8 * u.length + j ∧ j < 8 := by
  have hbyte : i / 8 < data.length := by omega
  refine ⟨data.take (i / 8), data[i / 8], data.drop (i / 8 + 1), i % 8, by simp, ?_, by omega⟩
  rw [List.length_take]
  omega

/-! ## A map in the place of the array -/

/-- An indefinite-length map panics when its first key is an array. -/
theorem crashes_of_array_key {k v : Item} {rest : List UInt8} {arr : List Value}
    (hk : k.Accepted) (hv : v.Accepted) (hvalue : k.value = .array arr) :
    (Decoder.start (0xbf :: k.bytes ++ v.bytes ++ rest)).Crashes := by
  have hmap : (Head.mk 0xbf []).major = majorMap := by decide
  have hcount : (Head.mk 0xbf []).childCount = none := by decide
  have hbreak : ¬k.IsBreak := by
    intro h
    have hmarker := Item.isBreakMarker_value.mpr h
    rw [hvalue] at hmarker
    exact Bool.false_ne_true hmarker
  have hcontainer : (Head.mk 0xbf []).major = majorBytes ∨ (Head.mk 0xbf []).major = majorText ∨
      (Head.mk 0xbf []).major = majorArray ∨ (Head.mk 0xbf []).major = majorMap ∨
      (Head.mk 0xbf []).major = majorTag := .inr (.inr (.inr (.inl hmap)))
  have hnotString : ¬((Head.mk 0xbf []).major = majorBytes ∨
      (Head.mk 0xbf []).major = majorText) := by decide
  apply @Decoder.Crashes.key _ _ ⟨0xbf, []⟩ [] k v rfl
  · simp [Decoder.Sees, Decoder.start, Head.bytes]
  · exact hmap
  · refine ⟨?_, ?_, rfl⟩
    · simpa using ⟨hk, hv⟩
    · simp [Decoder.Sees, Decoder.start, Decoder.advance]
  · rfl
  · exact ⟨hcontainer, by simp [hcount], by simp, fun h ↦ absurd h hnotString,
      by simp [KeysHashable]⟩
  · refine ⟨hcontainer, by simp [hcount], ?_, fun h ↦ absurd h hnotString,
      by simp [KeysHashable]⟩
    intro _ i c hc _
    have hmem := List.mem_of_getElem? hc
    obtain rfl : c = k := by simpa using hmem
    exact hbreak
  · rw [hvalue]
    rfl

theorem unmarshal_panic_of_crashes {data : List UInt8} (hdata : data.length < 2 ^ 63)
    (h : (Decoder.start data).Crashes) : ∃ reason, unmarshal data = .panic reason := by
  obtain ⟨reason, hpanic⟩ := (unmarshal_panics_iff hdata).mpr h
  refine ⟨reason, ?_⟩
  rw [unmarshal, hpanic]

theorem accepted_break : (Item.node ⟨0xff, []⟩ [] []).Accepted :=
  Item.accepted_simple rfl (by decide) (.inr (.inr (.inr (.inr (.inr (.inr (.inr rfl)))))))

/-- What `Marshal` puts into blocks is read back as it is. -/
theorem FieldValue.denotes {v : Value} (hv : FieldValue v)
    (hlen : (Item.ofValue v).bytes.length < 2 ^ 63) : (Item.ofValue v).Denotes v := by
  have hdenotes := hv.encodable.denotes hlen
  rwa [hv.definite_eq] at hdenotes

/-- Inverting bit 5 of the first byte makes `Unmarshal` panic. -/
theorem Bundle.panics_of_flipBit {b : Bundle} (hlen : b.image.length < 2 ^ 63) :
    ∃ reason, unmarshal (flipBit b.image 5) = .panic reason := by
  have himage := b.image_eq
  have hflip : flipBit b.image 5 = 0xbf :: Item.bytesList (Item.ofValue (.array b.primary.fields) ::
      b.canonical.map fun c ↦ Item.ofValue (.array c.fields)) ++ [0xff] := by
    rw [himage]
    rfl
  have hlenFlip : (flipBit b.image 5).length < 2 ^ 63 := by simpa [flipBit] using hlen
  apply unmarshal_panic_of_crashes hlenFlip
  have hlenBlock {v : Value} (hv : Item.ofValue v ∈ Item.ofValue (.array b.primary.fields) ::
      b.canonical.map fun c ↦ Item.ofValue (.array c.fields)) :
      (Item.ofValue v).bytes.length < 2 ^ 63 := by
    have hle := Item.length_bytes_le_of_mem hv
    rw [himage] at hlen
    simp only [List.length_append, List.length_cons] at hlen
    omega
  have hprimary := b.primary.fieldValue_fields.denotes (hlenBlock (by simp))
  rw [hflip]
  cases hcanonical : b.canonical with
  | nil =>
    have hcrash := @crashes_of_array_key _ _ [] _ hprimary.accepted accepted_break
      hprimary.value_eq
    rw [accepted_break.1.bytes_of_isBreak rfl] at hcrash
    simpa using hcrash
  | cons c cs =>
    have hfirst := c.fieldValue_fields.denotes (hlenBlock (by simp [hcanonical]))
    have hcrash := @crashes_of_array_key _ _ (Item.bytesList (cs.map fun c ↦
      Item.ofValue (.array c.fields)) ++ [0xff]) _ hprimary.accepted hfirst.accepted
      hprimary.value_eq
    simpa using hcrash

/-! ## A CRC type of zero -/

/-- The bytes of a bundle around the CRC type of its primary block. -/
def Bundle.beforeCRCType (b : Bundle) : List UInt8 :=
  0x9f :: writeHead majorArray (lenUint64 b.primary.fields) ++
    writeHead majorUint b.primary.version ++ writeHead majorUint b.primary.flags

def Bundle.afterCRCType (b : Bundle) : List UInt8 :=
  Item.bytesList (Item.ofValues (b.primary.fields.drop 3)) ++
    Item.bytesList (b.canonical.map fun c ↦ Item.ofValue (.array c.fields)) ++ [0xff]

/-- The fields of the primary block with another CRC type in front of the same CRC. -/
def PrimaryBlock.relabelled (p : PrimaryBlock) (crcType : UInt64) : List Value :=
  .uint64 p.version :: .uint64 p.flags :: .uint64 crcType :: p.fields.drop 3

/-- The blocks of a bundle whose primary block is relabelled. -/
def Bundle.relabelledValue (b : Bundle) (crcType : UInt64) : Value :=
  .indefArray (.array (b.primary.relabelled crcType) :: b.canonical.map fun c ↦ .array c.fields)

theorem Bundle.bytes_relabelledValue (b : Bundle) (crcType : UInt64) :
    (Item.ofValue (b.relabelledValue crcType)).bytes =
      b.beforeCRCType ++ (writeHead majorUint crcType ++ b.afterCRCType) := by
  have hlen : lenUint64 (b.primary.relabelled crcType) = lenUint64 b.primary.fields := rfl
  rw [Bundle.relabelledValue, bytes_ofValue_indefArray, Item.ofValues_cons, Item.bytesList_cons,
    ofValues_eq_map, List.map_map, bytes_ofValue_array, hlen, PrimaryBlock.relabelled,
    Item.ofValues_cons, Item.ofValues_cons, Item.ofValues_cons, Item.bytesList_cons,
    Item.bytesList_cons, Item.bytesList_cons, bytes_ofValue_uint64, bytes_ofValue_uint64,
    bytes_ofValue_uint64, Bundle.beforeCRCType, Bundle.afterCRCType]
  simp [Function.comp_def]

theorem PrimaryBlock.fieldValue_relabelled (p : PrimaryBlock) (crcType : UInt64) :
    FieldValue (.array (p.relabelled crcType)) := by
  have hfields := fieldValue_append_crcField p.fieldValue_plainFields p.plainFields p.crcType
  apply FieldValue.array
  intro v hv
  simp only [relabelled, List.mem_cons] at hv
  rcases hv with rfl | rfl | rfl | hv
  · exact .uint64 _
  · exact .uint64 _
  · exact .uint64 _
  · exact hfields v (List.mem_of_mem_drop hv)

theorem Bundle.fieldValue_relabelled (b : Bundle) (crcType : UInt64) :
    ∀ v ∈ Value.array (b.primary.relabelled crcType) :: b.canonical.map fun c ↦ .array c.fields,
      FieldValue v := by
  intro v hv
  rcases List.mem_cons.mp hv with rfl | hv
  · exact b.primary.fieldValue_relabelled crcType
  · exact b.fieldValue_blocks v (List.mem_cons_of_mem _ hv)

/-- Without a CRC type the old CRC is a surplus field, and nothing is checked. -/
theorem PrimaryBlock.Sound.parsePrimary_relabelled {p : PrimaryBlock} (h : p.Sound) :
    parsePrimary (p.relabelled CRCNone) = .ok { p with crcType := CRCNone } := by
  have hsound : PrimaryBlock.Sound { p with crcType := CRCNone } :=
    ⟨.inl rfl, h.destination, h.source, h.reportTo, h.fragment⟩
  have hfields := map_eq_self fun v hv ↦
    (PrimaryBlock.fieldValue_plainFields { p with crcType := CRCNone } v hv).unsigned_eq
  exact parsePrimary_eq_ok.mpr
    ⟨hsound, _, crcField p.plainFields p.crcType, hfields, rfl⟩

/-- With the CRC type of the primary block replaced by "none", a sound bundle is still read. -/
theorem Bundle.Sound.unmarshal_relabelled {b : Bundle} (h : b.Sound)
    (hlen : (Item.ofValue (b.relabelledValue CRCNone)).bytes.length < 2 ^ 63) :
    unmarshal (Item.ofValue (b.relabelledValue CRCNone)).bytes =
      .ok { b with primary := { b.primary with crcType := CRCNone } } := by
  have hread := unmarshal_blocks (b.fieldValue_relabelled CRCNone) hlen
  refine unmarshal_eq_ok.mpr ⟨_, _, hread, ?_⟩
  rw [parseBundle_eq_ok]
  refine ⟨_, _, rfl, by simpa using h.nonempty, h.primary.parsePrimary_relabelled, ?_⟩
  rw [List.forall₂_map_left_iff, List.forall₂_same]
  intro c hc
  exact ⟨c.fields, rfl, parseCanonical_fields (h.crcTypes c hc)⟩

/-- The bit that is set in the CRC type, and what is left without it. -/
theorem exists_bit_of_crcType {crcType : UInt64} (h : crcType = CRC16 ∨ crcType = CRC32) :
    ∃ (x : UInt8) (j : ℕ), j < 8 ∧ writeHead majorUint crcType = [x] ∧
      [x ^^^ (1 : UInt8) <<< UInt8.ofNat j] = writeHead majorUint CRCNone := by
  rcases h with rfl | rfl
  · exact ⟨1, 0, by decide, by decide, by decide⟩
  · exact ⟨2, 1, by decide, by decide, by decide⟩

/-- Inverting one bit of the CRC type of the primary block yields another bundle. -/
theorem Bundle.Sound.reads_of_flipBit {b : Bundle} (h : b.Sound)
    (hcrc : b.primary.crcType = CRC16 ∨ b.primary.crcType = CRC32)
    (hlen : b.image.length < 2 ^ 63) :
    ∃ i < 8 * b.image.length, unmarshal (flipBit b.image i) =
      .ok { b with primary := { b.primary with crcType := CRCNone } } := by
  obtain ⟨x, j, hj, hbyte, hflipped⟩ := exists_bit_of_crcType hcrc
  have himage : b.image = b.beforeCRCType ++ x :: b.afterCRCType := by
    have hself := b.bytes_relabelledValue b.primary.crcType
    rw [hbyte] at hself
    exact hself
  have hflip : flipBit b.image (8 * b.beforeCRCType.length + j) =
      (Item.ofValue (b.relabelledValue CRCNone)).bytes := by
    rw [himage, flipBit_append _ _ _ hj, b.bytes_relabelledValue, ← hflipped]
    rfl
  refine ⟨8 * b.beforeCRCType.length + j, ?_, ?_⟩
  · rw [himage, List.length_append, List.length_cons]
    omega
  · rw [hflip]
    apply h.unmarshal_relabelled
    rw [← hflip]
    simpa [flipBit] using hlen

/-! ## Which corruptions are detected -/

/-- A value that spells a block with these fields: its elements are the fields, with numbers in any
form, the CRC over the encoding of the fields, where there is one, and whatever comes after it. -/
def SpellsBlock (plain : List Value) (crcType : UInt64) (v : Value) : Prop :=
  KnownCRC crcType ∧ ∃ fields surplus, fields.map unsigned = plain ∧
    v = .array (fields ++ (crcField plain crcType ++ surplus))

/-- Data that start with an array that spells the blocks of a bundle. -/
def Spells (data : List UInt8) (b : Bundle) : Prop :=
  ∃ (s : Item) (rest : List UInt8) (first : Value) (others : List Value),
    s.Accepted ∧ data = s.bytes ++ rest ∧ s.value = .array (first :: others) ∧ others ≠ [] ∧
    b.primary.Sound ∧ SpellsBlock b.primary.plainFields b.primary.crcType first ∧
    List.Forall₂ (fun v c ↦ SpellsBlock c.plainFields c.crcType v) others b.canonical

theorem readsCanonical_iff_spellsBlock {v : Value} {c : CanonicalBlock} :
    ReadsCanonical v c ↔ SpellsBlock c.plainFields c.crcType v := by
  constructor
  · rintro ⟨arr, rfl, hparse⟩
    obtain ⟨hknown, fields, surplus, hfields, rfl⟩ := parseCanonical_eq_ok.mp hparse
    exact ⟨hknown, fields, surplus, hfields, rfl⟩
  · rintro ⟨hknown, fields, surplus, hfields, rfl⟩
    exact ⟨_, rfl, parseCanonical_eq_ok.mpr ⟨hknown, fields, surplus, hfields, rfl⟩⟩

theorem unmarshal_eq_ok_iff_spells {data : List UInt8} (hdata : data.length < 2 ^ 63) {b : Bundle} :
    unmarshal data = .ok b ↔ Spells data b := by
  have hblocks (vs : List Value) : List.Forall₂ ReadsCanonical vs b.canonical ↔
      List.Forall₂ (fun v c ↦ SpellsBlock c.plainFields c.crcType v) vs b.canonical := by
    simp only [← readsCanonical_iff_spellsBlock]
  rw [unmarshal_eq_ok]
  constructor
  · rintro ⟨v, n, hread, hparse⟩
    obtain ⟨s, haccepted, htake, -, rfl⟩ := (Cbor.unmarshal_eq_ok hdata).mp hread
    obtain ⟨arr, raws, hvalue, hne, hprimary, hcanonical⟩ := parseBundle_eq_ok.mp hparse
    obtain ⟨hsound, fields, surplus, hfields, rfl⟩ := parsePrimary_eq_ok.mp hprimary
    refine ⟨s, data.drop n, _, raws, haccepted, ?_, hvalue, hne, hsound,
      ⟨hsound.crcType, fields, surplus, hfields, rfl⟩, (hblocks raws).mp hcanonical⟩
    rw [← htake, List.take_append_drop]
  · rintro ⟨s, rest, first, others, haccepted, rfl, hvalue, hne, hsound,
      ⟨-, fields, surplus, hfields, rfl⟩, hcanonical⟩
    have hread := unmarshal_append haccepted (by simpa using hdata)
    rw [hvalue] at hread
    have hprimary := parsePrimary_eq_ok.mpr ⟨hsound, fields, surplus, hfields, rfl⟩
    exact ⟨_, _, hread, parseBundle_eq_ok.mpr
      ⟨_, others, rfl, hne, hprimary, (hblocks others).mpr hcanonical⟩⟩

/-- Data are answered with an error where they neither crash the decoder nor spell a bundle. -/
theorem unmarshal_eq_error_iff {data : List UInt8} (hdata : data.length < 2 ^ 63) :
    (∃ err, unmarshal data = .error err) ↔
      ¬(Decoder.start data).Crashes ∧ ∀ b, ¬Spells data b := by
  rw [← unmarshal_returns_iff hdata, ← bundle_returns_iff]
  simp only [← unmarshal_eq_ok_iff_spells hdata]
  cases unmarshal data <;> simp

/-- Inverting a bit changes exactly one byte. -/
theorem oneOff_flipBit {data : List UInt8} {i : ℕ} (hi : i < 8 * data.length) :
    Checksum.OneOff data (flipBit data i) := by
  obtain ⟨u, x, v, j, rfl, rfl, hj⟩ := exists_byte_of_bit hi
  have hbit : ∀ j < 8, (1 : UInt8) <<< UInt8.ofNat j ≠ 0 := by decide
  refine ⟨u, x, _, v, fun heq ↦ hbit j hj ?_, rfl, flipBit_append u v x hj⟩
  apply (UInt8.xor_right_inj x).mp
  rw [← heq, UInt8.xor_zero]

/-- A corruption of numbers or contents of strings that keeps the layout is detected. -/
theorem Bundle.Protected.detects_flipBit {b : Bundle} (h : b.Protected)
    (hlen : b.image.length < 2 ^ 63) {i : ℕ} (hi : i < 8 * b.image.length)
    (hlayout : b.KeepsLayout (flipBit b.image i)) :
    ∃ err, unmarshal (flipBit b.image i) = .error err :=
  h.detects hlayout (oneOff_flipBit hi) (by simpa [flipBit] using hlen)

/-! ## Corrupted block data -/

/-- The elements of a canonical block with other data in front of its CRC. -/
def CanonicalBlock.withData (c : CanonicalBlock) (data : List UInt8) : List Value :=
  [.uint64 c.type, .uint64 c.number, .uint64 c.flags, .uint64 c.crcType] ++
    .bytes data :: crcField c.plainFields c.crcType

def CanonicalBlock.beforeData (c : CanonicalBlock) : List UInt8 :=
  writeHead majorArray (lenUint64 c.fields) ++
    Item.bytesList (Item.ofValues
      [.uint64 c.type, .uint64 c.number, .uint64 c.flags, .uint64 c.crcType]) ++
    writeHead majorBytes (lenUint64 c.data)

def CanonicalBlock.afterData (c : CanonicalBlock) : List UInt8 :=
  Item.bytesList (Item.ofValues (crcField c.plainFields c.crcType))

theorem CanonicalBlock.bytes_withData (c : CanonicalBlock) {data : List UInt8}
    (hdata : data.length = c.data.length) :
    (Item.ofValue (.array (c.withData data))).bytes = c.beforeData ++ (data ++ c.afterData) := by
  have hlen : lenUint64 (c.withData data) = lenUint64 c.fields := rfl
  have hbytes : (Item.ofValue (.bytes data)).bytes =
      writeHead majorBytes (lenUint64 c.data) ++ data := by
    rw [Item.ofValue, Item.bytes_ofArg (by decide), lenUint64, lenUint64, hdata]
    simp
  rw [bytes_ofValue_array, hlen, withData, beforeData, afterData]
  simp only [ofValues_eq_map, List.map_append, List.map_cons, Item.bytesList_append,
    Item.bytesList_cons, hbytes, List.append_assoc]

/-- The bytes of an image in front of the canonical blocks that come after `pre`. -/
def Bundle.beforeBlocks (b : Bundle) (pre : List CanonicalBlock) : List UInt8 :=
  0x9f :: Item.bytesList
    (Item.ofValues (.array b.primary.fields :: pre.map fun c ↦ .array c.fields))

/-- An image with other data in the canonical block between `pre` and `post`. -/
theorem Bundle.bytes_withData (b : Bundle) (pre : List CanonicalBlock) (c : CanonicalBlock)
    (post : List CanonicalBlock) {data : List UInt8} (hdata : data.length = c.data.length) :
    (Item.ofValue (.indefArray (.array b.primary.fields ::
      (pre.map CanonicalBlock.fields ++ c.withData data :: post.map CanonicalBlock.fields).map
        .array))).bytes = (b.beforeBlocks pre ++ c.beforeData) ++ (data ++ (c.afterData ++
          (Item.bytesList (Item.ofValues (post.map fun c ↦ .array c.fields)) ++ [0xff]))) := by
  rw [bytes_ofValue_indefArray, beforeBlocks]
  simp only [ofValues_eq_map, List.map_append, List.map_cons, List.map_map, Item.bytesList_cons,
    Item.bytesList_append, c.bytes_withData hdata, List.append_assoc, List.cons_append,
    Function.comp_def]

theorem Bundle.image_eq_withData (b : Bundle) {pre : List CanonicalBlock} {c : CanonicalBlock}
    {post : List CanonicalBlock} (hb : b.canonical = pre ++ c :: post) :
    b.image = (b.beforeBlocks pre ++ c.beforeData) ++ (c.data ++ (c.afterData ++
      (Item.bytesList (Item.ofValues (post.map fun c ↦ .array c.fields)) ++ [0xff]))) := by
  have hself : c.withData c.data = c.fields := rfl
  rw [← b.bytes_withData pre c post rfl, hself, image, value, hb]
  simp [Function.comp_def]

theorem flipBit_middle (before after : List UInt8) {data : List UInt8} {j : ℕ}
    (hj : j < 8 * data.length) :
    flipBit (before ++ (data ++ after)) (8 * before.length + j) =
      before ++ (flipBit data j ++ after) := by
  obtain ⟨u, x, v, k, rfl, rfl, hk⟩ := exists_byte_of_bit hj
  have hplace : 8 * before.length + (8 * u.length + k) = 8 * (before ++ u).length + k := by
    rw [List.length_append]
    omega
  have hsplit : before ++ (u ++ x :: v ++ after) = (before ++ u) ++ x :: (v ++ after) := by simp
  rw [hplace, hsplit, flipBit_append _ _ _ hk, flipBit_append _ _ _ hk]
  simp

theorem TakesPlace.refl {v : Value} (h : FieldValue v) : TakesPlace v v := ⟨h, rfl, rfl⟩

theorem SameLayout.refl {i : ℕ} {fields : List Value} (h : ∀ v ∈ fields, FieldValue v) :
    SameLayout i fields fields :=
  ⟨List.forall₂_same.mpr fun v hv ↦ .refl (h v hv), rfl⟩

theorem CanonicalBlock.fieldValue_of_mem_fields (c : CanonicalBlock) :
    ∀ v ∈ c.fields, FieldValue v :=
  fieldValue_append_crcField c.fieldValue_plainFields c.plainFields c.crcType

theorem CanonicalBlock.sameLayout_withData (c : CanonicalBlock) {data : List UInt8}
    (hdata : data.length = c.data.length) : SameLayout 3 c.fields (c.withData data) := by
  have hbytes : TakesPlace (.bytes c.data) (.bytes data) := by
    refine ⟨.bytes data, ?_, ?_⟩
    · rw [Item.ofValue, Item.ofValue, lenUint64, lenUint64, hdata]
      rfl
    · rw [Item.ofValue, Item.ofValue, Item.bytes_ofArg (by decide), Item.bytes_ofArg (by decide),
        lenUint64, lenUint64, hdata]
      simp [hdata]
  have hcrc : List.Forall₂ TakesPlace (crcField c.plainFields c.crcType)
      (crcField c.plainFields c.crcType) := by
    apply List.forall₂_same.mpr
    intro v hv
    exact .refl (c.fieldValue_of_mem_fields v (List.mem_append_right _ hv))
  refine ⟨?_, rfl⟩
  exact .cons (.refl (.uint64 _)) (.cons (.refl (.uint64 _)) (.cons (.refl (.uint64 _))
    (.cons (.refl (.uint64 _)) (.cons hbytes hcrc))))

/-- Every bit of the data of a canonical block keeps the layout when it is inverted. -/
theorem Bundle.keepsLayout_flipBit_data {b : Bundle} {pre : List CanonicalBlock}
    {c : CanonicalBlock} {post : List CanonicalBlock} (hb : b.canonical = pre ++ c :: post) {j : ℕ}
    (hj : j < 8 * c.data.length) :
    b.KeepsLayout (flipBit b.image (8 * (b.beforeBlocks pre ++ c.beforeData).length + j)) := by
  have hsame (cs : List CanonicalBlock) : List.Forall₂
      (fun c fields ↦ SameLayout 3 c.fields fields) cs (cs.map CanonicalBlock.fields) := by
    rw [List.forall₂_map_right_iff, List.forall₂_same]
    exact fun c _ ↦ .refl c.fieldValue_of_mem_fields
  have hdata : (flipBit c.data j).length = c.data.length := List.length_modify _ _ _
  rw [b.image_eq_withData hb, flipBit_middle _ _ hj, ← bytes_withData b pre c post hdata]
  refine ⟨b.primary.fields, _, .refl ?_, ?_, rfl⟩
  · exact fieldValue_append_crcField b.primary.fieldValue_plainFields _ _
  · rw [hb]
    exact List.rel_append (hsame pre) (.cons (c.sameLayout_withData hdata) (hsame post))

/-- Corrupted block data, such as the payload of a protected bundle, are detected. -/
theorem Bundle.Protected.detects_data {b : Bundle} (h : b.Protected)
    (hlen : b.image.length < 2 ^ 63) {pre : List CanonicalBlock} {c : CanonicalBlock}
    {post : List CanonicalBlock} (hb : b.canonical = pre ++ c :: post) {j : ℕ}
    (hj : j < 8 * c.data.length) : ∃ err, unmarshal
      (flipBit b.image (8 * (b.beforeBlocks pre ++ c.beforeData).length + j)) = .error err := by
  apply h.detects_flipBit hlen
  · rw [b.image_eq_withData hb]
    simp only [List.length_append]
    omega
  · exact Bundle.keepsLayout_flipBit_data hb hj

/-! ## The single-bit corruptions of a bundle -/

/-- No protected bundle has all its single-bit corruptions detected: one makes `Unmarshal` panic,
and where the endpoints are ones that it can read, another yields a bundle. -/
theorem Bundle.Protected.undetected {b : Bundle} (h : b.Protected) (hlen : b.image.length < 2 ^ 63) :
    (¬∀ i < 8 * b.image.length, ∃ err, unmarshal (flipBit b.image i) = .error err) ∧
      (b.Sound → ∃ i < 8 * b.image.length, ∃ b', unmarshal (flipBit b.image i) = .ok b') := by
  constructor
  · intro hdetected
    have hpos : 5 < 8 * b.image.length := by
      rw [b.image_eq, List.length_append, List.length_cons]
      omega
    obtain ⟨err, herror⟩ := hdetected 5 hpos
    obtain ⟨reason, hpanic⟩ := b.panics_of_flipBit hlen
    rw [herror] at hpanic
    exact absurd hpanic (by simp)
  · intro hsound
    obtain ⟨i, hi, hread⟩ := hsound.reads_of_flipBit h.primary hlen
    exact ⟨i, hi, _, hread⟩

/-- No protected bundle has all its single-bit corruptions answered with an error: one of them makes
`Unmarshal` panic, and for endpoints that it can read another is a bundle. But those in the data of a
block are, like all that keep the layout, and the others are exactly where the corrupted bytes neither
crash the decoder nor spell a bundle again. -/
theorem unmarshal_flipBit {b : Bundle} {bs : List UInt8} (hprotected : b.Protected)
    (hmarshal : b.marshal = .ok bs) (hlen : bs.length < 2 ^ 63) :
    (¬∀ i < 8 * bs.length, ∃ err, unmarshal (flipBit bs i) = .error err) ∧
    (b.Sound → ∃ i < 8 * bs.length, ∃ b', unmarshal (flipBit bs i) = .ok b') ∧
    (∀ pre c post, b.canonical = pre ++ c :: post → ∀ j < 8 * c.data.length, ∃ err,
      unmarshal (flipBit bs (8 * (b.beforeBlocks pre ++ c.beforeData).length + j)) = .error err) ∧
    ∀ i < 8 * bs.length,
      (b.KeepsLayout (flipBit bs i) → ∃ err, unmarshal (flipBit bs i) = .error err) ∧
      ((∃ err, unmarshal (flipBit bs i) = .error err) ↔
        ¬(Decoder.start (flipBit bs i)).Crashes ∧ ∀ b', ¬Spells (flipBit bs i) b') := by
  rw [hprotected.marshal_eq, Except.ok.injEq] at hmarshal
  subst hmarshal
  obtain ⟨hnever, hread⟩ := hprotected.undetected hlen
  refine ⟨hnever, hread, fun pre c post hb j hj ↦ hprotected.detects_data hlen hb hj, fun i hi ↦ ?_⟩
  exact ⟨hprotected.detects_flipBit hlen hi, unmarshal_eq_error_iff (by simpa [flipBit] using hlen)⟩

theorem protected_relayedFragment : relayedFragment.Protected :=
  ⟨.inl rfl, by simp [relayedFragment]⟩

/-- The data of its last block start at byte 75. -/
theorem unmarshal_flipBit_relayedFragment :
    (¬∀ i < 8 * 89, ∃ err, unmarshal (flipBit relayedFragment.image i) = .error err) ∧
    (∃ i < 8 * 89, ∃ b', unmarshal (flipBit relayedFragment.image i) = .ok b') ∧
    ∀ j < 80, ∃ err, unmarshal (flipBit relayedFragment.image (8 * 75 + j)) = .error err := by
  have hlen : relayedFragment.image.length < 2 ^ 63 := by
    rw [length_image_relayedFragment]
    decide
  obtain ⟨hnever, hread, hdata, -⟩ :=
    unmarshal_flipBit protected_relayedFragment marshal_relayedFragment hlen
  rw [length_image_relayedFragment] at hnever hread
  have hstart : (relayedFragment.beforeBlocks [⟨10, 2, 0, CRC32, [0x18, 0x20]⟩] ++
      (⟨BlockTypePayload, 1, 0, CRC16, lit "scene data"⟩ : CanonicalBlock).beforeData).length = 75 := by
    decide +kernel
  have hlast := hdata [⟨10, 2, 0, CRC32, [0x18, 0x20]⟩] _ [] rfl
  rw [hstart] at hlast
  exact ⟨hnever, hread sound_relayedFragment, hlast⟩

/-- A corrupted copy of `relayedFragment` is read as a bundle. -/
theorem corruption_undetected :
    ¬∀ (b : Bundle) (bs : List UInt8), b.Protected → b.marshal = .ok bs → bs.length < 2 ^ 63 →
      ∀ i < 8 * bs.length, ∃ err, unmarshal (flipBit bs i) = .error err := by
  intro h
  have hlen : relayedFragment.image.length < 2 ^ 63 := by
    rw [length_image_relayedFragment]
    decide
  obtain ⟨i, hi, hread⟩ :=
    sound_relayedFragment.reads_of_flipBit protected_relayedFragment.primary hlen
  obtain ⟨err, herror⟩ := h _ _ protected_relayedFragment marshal_relayedFragment hlen i hi
  rw [hread] at herror
  exact absurd herror (by simp)

end Zenith.Bpv7
