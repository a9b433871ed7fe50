import Zenith.Bpv7.Reencoding
import Zenith.Data.Burst

/-!
# What the CRCs detect

Both checksums change with every burst of wrong bits that is no longer than the checksum, and so with
every single byte. A corrupted copy that keeps the layout, in which every element of every block has
the type and the length it had and every block its CRC type, differs from the original in one byte of
one block, and the CRC of that block no longer fits.
-/

namespace Zenith.Bpv7

open Go Cbor Checksum

/-! ## The two checksums -/

theorem crc16Shift_toBitVec (crc : UInt16) :
    (crc16Shift crc).toBitVec = shift 0x8408#16 crc.toBitVec := by
  have hlow : crc &&& 1 ≠ 0 ↔ crc.toBitVec.getLsbD 0 = true := by
    rw [ne_eq, ← UInt16.toBitVec_inj, UInt16.toBitVec_and,
      show (1 : UInt16).toBitVec = 1#16 from rfl, BitVec.and_one_eq_setWidth_ofBool_getLsbD]
    cases crc.toBitVec.getLsbD 0 <;> decide
  unfold crc16Shift shift
  simp only [hlow]
  split_ifs <;> simp

theorem crc32Shift_toBitVec (crc : UInt32) :
    (crc32Shift crc).toBitVec = shift 0x82f63b78#32 crc.toBitVec := by
  have hlow : crc &&& 1 ≠ 0 ↔ crc.toBitVec.getLsbD 0 = true := by
    rw [ne_eq, ← UInt32.toBitVec_inj, UInt32.toBitVec_and,
      show (1 : UInt32).toBitVec = 1#32 from rfl, BitVec.and_one_eq_setWidth_ofBool_getLsbD]
    cases crc.toBitVec.getLsbD 0 <;> decide
  unfold crc32Shift shift
  simp only [hlow]
  split_ifs <;> simp

theorem toBitVec_crc16Byte (crc : UInt16) (b : UInt8) : (crc16Byte crc b).toBitVec =
    (shift 0x8408#16)^[8] (crc.toBitVec ^^^ b.toBitVec.setWidth 16) := by
  have hturns : Function.Semiconj UInt16.toBitVec crc16Shift (shift 0x8408#16) := crc16Shift_toBitVec
  rw [← UInt8.toBitVec_toUInt16, ← UInt16.toBitVec_xor]
  exact hturns.iterate_right 8 _

theorem toBitVec_crc32Byte (crc : UInt32) (b : UInt8) : (crc32Byte crc b).toBitVec =
    (shift 0x82f63b78#32)^[8] (crc.toBitVec ^^^ b.toBitVec.setWidth 32) := by
  have hturns : Function.Semiconj UInt32.toBitVec crc32Shift (shift 0x82f63b78#32) :=
    crc32Shift_toBitVec
  rw [← UInt8.toBitVec_toUInt32, ← UInt32.toBitVec_xor]
  exact hturns.iterate_right 8 _

theorem crc16X25_ne {xs ys : List UInt8} (h : Burst 16 (bits xs) (bits ys)) (hne : xs ≠ ys) :
    crc16X25 xs ≠ crc16X25 ys := by
  intro heq
  exact h.foldl_bytes_ne (by decide) toBitVec_crc16Byte (by decide) hne 0xFFFF
    ((UInt16.xor_left_inj _).mp heq)

theorem crc32c_ne {xs ys : List UInt8} (h : Burst 32 (bits xs) (bits ys)) (hne : xs ≠ ys) :
    crc32c xs ≠ crc32c ys := by
  intro heq
  exact h.foldl_bytes_ne (by decide) toBitVec_crc32Byte (by decide) hne 0xFFFFFFFF
    ((UInt32.xor_left_inj _).mp heq)

/-- Two byte strings of the same length that differ only within 16 consecutive bits have different
checksums. -/
theorem crc16X25_detectsBurst {data data' : List UInt8} (hlen : data.length = data'.length)
    (hne : data ≠ data') {start : ℕ}
    (hwindow : ∀ i, (bits data)[i]? ≠ (bits data')[i]? → start ≤ i ∧ i < start + 16) :
    crc16X25 data ≠ crc16X25 data' :=
  crc16X25_ne ⟨by rw [length_bits, length_bits, hlen], start, hwindow⟩ hne

theorem crc16X25_detectsBurst_straddling :
    crc16X25 [0x11, 0x80, 0xab, 0x01, 0x22] ≠ crc16X25 [0x11, 0x00, 0xab, 0x00, 0x22] := by
  have hwithin : ∀ i < 40, (bits [0x11, 0x80, 0xab, 0x01, 0x22])[i]? ≠
      (bits [0x11, 0x00, 0xab, 0x00, 0x22])[i]? → 15 ≤ i ∧ i < 15 + 16 := by decide
  refine @crc16X25_detectsBurst _ _ (by rfl) (by decide) 15 fun i hi ↦ ?_
  by_cases hlt : i < 40
  · exact hwithin i hlt hi
  · rw [List.getElem?_eq_none (by simp [length_bits]; omega),
      List.getElem?_eq_none (by simp [length_bits]; omega)] at hi
    exact absurd rfl hi

theorem length_crcBytes {crcType : UInt64} (hcrc : crcType = CRC16 ∨ crcType = CRC32)
    (data : List UInt8) : (crcBytes crcType data).length = crcWidth crcType := by
  rcases hcrc with rfl | rfl
  · exact length_putUint16 _
  · exact length_putUint32 _

theorem crcBytes_ne {crcType : UInt64} (hcrc : crcType = CRC16 ∨ crcType = CRC32)
    {xs ys : List UInt8} (h : OneOff xs ys) : crcBytes crcType xs ≠ crcBytes crcType ys := by
  intro heq
  rcases hcrc with rfl | rfl
  · have hnumber : BigEndian.decode (putUint16 (crc16X25 xs)) =
        BigEndian.decode (putUint16 (crc16X25 ys)) := congrArg BigEndian.decode heq
    rw [decode_putUint16, decode_putUint16] at hnumber
    exact crc16X25_ne (h.burst (by decide)) h.ne (UInt16.toNat_inj.mp hnumber)
  · have hnumber : BigEndian.decode (putUint32 (crc32c xs)) =
        BigEndian.decode (putUint32 (crc32c ys)) := congrArg BigEndian.decode heq
    rw [decode_putUint32, decode_putUint32] at hnumber
    exact crc32c_ne (h.burst (by decide)) h.ne (UInt32.toNat_inj.mp hnumber)

/-! ## One block -/

/-- The bytes of a block in front of its CRC. -/
def beforeCRC (plain : List Value) (crcType : UInt64) : List UInt8 :=
  writeHead majorArray (UInt64.ofNat (plain.length + 1)) ++ Item.bytesList (Item.ofValues plain) ++
    writeHead majorBytes (UInt64.ofNat (crcWidth crcType))

theorem bytes_block (plain : List Value) {crcType : UInt64} {crc : List UInt8}
    (hcrc : crc.length = crcWidth crcType) :
    (Item.ofValue (.array (plain ++ [.bytes crc]))).bytes = beforeCRC plain crcType ++ crc := by
  have hlast : (Item.ofValue (.bytes crc)).bytes =
      writeHead majorBytes (UInt64.ofNat (crcWidth crcType)) ++ crc := by
    rw [Item.ofValue, Item.bytes_ofArg (by decide), lenUint64, hcrc]
    simp
  rw [bytes_ofValue_array, lenUint64, List.length_append, List.length_singleton, ofValues_eq_map,
    List.map_append, Item.bytesList_append, ← ofValues_eq_map, List.map_singleton,
    Item.bytesList_cons, Item.bytesList_nil, List.append_nil, hlast, beforeCRC]
  simp

/-- The CRC bytes of a block with these fields. -/
def crcOf (plain : List Value) (crcType : UInt64) : List UInt8 :=
  crcBytes crcType (beforeCRC plain crcType ++ List.replicate (crcWidth crcType) 0)

theorem crcField_of_protected (plain : List Value) {crcType : UInt64}
    (hcrc : crcType = CRC16 ∨ crcType = CRC32) :
    crcField plain crcType = [.bytes (crcOf plain crcType)] := by
  have hnone : crcType ≠ CRCNone := by
    rcases hcrc with rfl | rfl <;> decide
  rw [crcField, if_neg hnone, zeroed, bytes_block plain List.length_replicate]
  rfl

theorem bytes_protectedBlock (plain : List Value) {crcType : UInt64}
    (hcrc : crcType = CRC16 ∨ crcType = CRC32) :
    (Item.ofValue (.array (plain ++ crcField plain crcType))).bytes =
      beforeCRC plain crcType ++ crcOf plain crcType := by
  rw [crcField_of_protected plain hcrc]
  exact bytes_block plain (length_crcBytes hcrc _)

/-- Blocks with the same CRC type and of the same length differ in no place or in several. -/
theorem not_oneOff_block {plain plain' : List Value} {crcType : UInt64}
    (hcrc : crcType = CRC16 ∨ crcType = CRC32)
    (hlen : (Item.ofValue (.array (plain ++ crcField plain crcType))).bytes.length =
      (Item.ofValue (.array (plain' ++ crcField plain' crcType))).bytes.length) :
    ¬OneOff (Item.ofValue (.array (plain ++ crcField plain crcType))).bytes
      (Item.ofValue (.array (plain' ++ crcField plain' crcType))).bytes := by
  rw [bytes_protectedBlock plain hcrc, bytes_protectedBlock plain' hcrc] at hlen ⊢
  have hwidth (l : List Value) : (crcOf l crcType).length = crcWidth crcType :=
    length_crcBytes hcrc _
  rw [List.length_append, List.length_append, hwidth, hwidth, Nat.add_right_cancel_iff] at hlen
  intro hoff
  rcases hoff.split hlen with ⟨hbefore, hsame⟩ | ⟨hsame, hafter⟩
  · exact crcBytes_ne hcrc (hbefore.append_right _) hsame
  · refine hafter.ne ?_
    rw [crcOf, crcOf, hsame]

/-! ## The layout of a bundle -/

/-- Primary block and all canonical blocks carry a CRC. -/
structure Bundle.Protected (b : Bundle) : Prop where
  primary : b.primary.crcType = CRC16 ∨ b.primary.crcType = CRC32
  canonical : ∀ c ∈ b.canonical, c.crcType = CRC16 ∨ c.crcType = CRC32

theorem Bundle.Protected.marshal_eq {b : Bundle} (h : b.Protected) : b.marshal = .ok b.image :=
  Bundle.marshal_eq (.inr h.primary) fun c hc ↦ .inr (h.canonical c hc)

/-- A value that can stand where `v` stood: of the same type, encoded in as many bytes. -/
structure TakesPlace (v v' : Value) : Prop where
  field : FieldValue v'
  major : (Item.ofValue v').head.major = (Item.ofValue v).head.major
  length : (Item.ofValue v').bytes.length = (Item.ofValue v).bytes.length

/-- Elements that take the places of `fields` one by one; element `i`, the CRC type, stays. -/
structure SameLayout (i : ℕ) (fields fields' : List Value) : Prop where
  takesPlace : List.Forall₂ TakesPlace fields fields'
  crcType : fields'[i]? = fields[i]?

/-- What an image becomes when only numbers and the contents of strings change. -/
def Bundle.KeepsLayout (b : Bundle) (data : List UInt8) : Prop :=
  ∃ primary canonical, SameLayout 2 b.primary.fields primary ∧
    List.Forall₂ (fun c fields ↦ SameLayout 3 c.fields fields) b.canonical canonical ∧
    data = (Item.ofValue (.indefArray (.array primary :: canonical.map .array))).bytes

theorem length_bytesList_of_takesPlace {vs vs' : List Value} (h : List.Forall₂ TakesPlace vs vs') :
    (Item.bytesList (Item.ofValues vs')).length = (Item.bytesList (Item.ofValues vs)).length := by
  induction h with
  | nil => rfl
  | cons hplace _ ih => simp [hplace.length, ih]

namespace SameLayout

variable {i : ℕ} {fields fields' : List Value}

theorem fieldValue (h : SameLayout i fields fields') : ∀ v ∈ fields', FieldValue v := by
  intro v hv
  obtain ⟨j, hj, rfl⟩ := List.getElem_of_mem hv
  have hlen := h.takesPlace.length_eq
  exact (h.takesPlace.get (by omega) hj).field

theorem length_bytes (h : SameLayout i fields fields') :
    (Item.ofValue (.array fields)).bytes.length = (Item.ofValue (.array fields')).bytes.length := by
  rw [bytes_ofValue_array, bytes_ofValue_array, List.length_append, List.length_append,
    length_bytesList_of_takesPlace h.takesPlace, lenUint64, lenUint64, h.takesPlace.length_eq]

end SameLayout

/-- A canonical block in the layout of a protected one is read with its own CRC at the end. -/
theorem CanonicalBlock.fields_of_sameLayout {c c' : CanonicalBlock} {fields' : List Value}
    (hcrc : c.crcType = CRC16 ∨ c.crcType = CRC32) (h : SameLayout 3 c.fields fields')
    (hparse : parseCanonical fields' = .ok c') :
    fields' = c'.plainFields ++ crcField c'.plainFields c.crcType := by
  obtain ⟨-, plain, surplus, hplain, rfl⟩ := parseCanonical_eq_ok.mp hparse
  rw [map_eq_self fun v hv ↦ (h.fieldValue v (List.mem_append_left _ hv)).unsigned_eq] at hplain
  subst hplain
  have hcrcType : c'.crcType = c.crcType := Value.uint64.inj (Option.some.inj h.crcType)
  have hlen := h.takesPlace.length_eq
  rw [hcrcType, CanonicalBlock.fields, crcField_of_protected _ hcrc,
    crcField_of_protected _ hcrc] at hlen
  have hsurplus : surplus = [] := List.length_eq_zero_iff.mp (by simpa [plainFields] using hlen)
  rw [hcrcType, hsurplus, List.append_nil]

theorem not_takesPlace_bytes (x : UInt64) (data : List UInt8) :
    ¬TakesPlace (.uint64 x) (.bytes data) := by
  intro h
  have hmajor := h.major
  simp only [Item.ofValue, Item.head] at hmajor
  rw [(Head.spells_ofArg (by decide) _).major_eq,
    (Head.spells_ofArg (by decide) _).major_eq] at hmajor
  exact absurd hmajor (by decide)

/-- The fragment flag cannot change either: the ninth element is a number or the CRC. -/
theorem PrimaryBlock.fields_of_sameLayout {p p' : PrimaryBlock} {fields' : List Value}
    (hcrc : p.crcType = CRC16 ∨ p.crcType = CRC32) (h : SameLayout 2 p.fields fields')
    (hparse : parsePrimary fields' = .ok p') :
    fields' = p'.plainFields ++ crcField p'.plainFields p.crcType := by
  obtain ⟨-, plain, surplus, hplain, rfl⟩ := parsePrimary_eq_ok.mp hparse
  rw [map_eq_self fun v hv ↦ (h.fieldValue v (List.mem_append_left _ hv)).unsigned_eq] at hplain
  subst hplain
  have hcrcType : p'.crcType = p.crcType := Value.uint64.inj (Option.some.inj h.crcType)
  have htail : List.Forall₂ TakesPlace (p.fragmentFields ++ crcField p.plainFields p.crcType)
      (p'.fragmentFields ++ (crcField p'.plainFields p'.crcType ++ surplus)) :=
    List.forall₂_drop 8 h.takesPlace
  rw [hcrcType, crcField_of_protected _ hcrc, crcField_of_protected _ hcrc] at htail
  have hsurplus : surplus = [] := by
    unfold fragmentFields at htail
    split_ifs at htail
    · simpa using htail.length_eq
    · exact absurd (List.forall₂_cons.mp htail).1 (not_takesPlace_bytes _ _)
    · simpa using htail.length_eq
    · simpa using htail.length_eq
  rw [hcrcType, hsurplus, List.append_nil]

/-! ## The whole image -/

/-- Items that are of the same length and do not differ in exactly one byte. -/
def Apart (s s' : Item) : Prop := s.bytes.length = s'.bytes.length ∧ ¬OneOff s.bytes s'.bytes

theorem length_bytesList_of_apart {ss ss' : List Item} (h : List.Forall₂ Apart ss ss') :
    (Item.bytesList ss).length = (Item.bytesList ss').length := by
  induction h with
  | nil => rfl
  | cons hapart _ ih => simp [hapart.1, ih]

theorem not_oneOff_bytesList {ss ss' : List Item} (h : List.Forall₂ Apart ss ss') :
    ¬OneOff (Item.bytesList ss) (Item.bytesList ss') := by
  induction h with
  | nil => exact fun hoff ↦ hoff.ne rfl
  | cons hapart _ ih =>
    intro hoff
    rw [Item.bytesList_cons, Item.bytesList_cons] at hoff
    rcases hoff.split hapart.1 with ⟨hfirst, -⟩ | ⟨-, hrest⟩
    · exact hapart.2 hfirst
    · exact ih hrest

theorem apart_canonical {cs cs' : List CanonicalBlock} {canonical : List (List Value)}
    (hcrc : ∀ c ∈ cs, c.crcType = CRC16 ∨ c.crcType = CRC32)
    (hlayout : List.Forall₂ (fun c fields ↦ SameLayout 3 c.fields fields) cs canonical)
    (hread : List.Forall₂ ReadsCanonical (canonical.map .array) cs') :
    List.Forall₂ Apart (Item.ofValues (cs.map fun c ↦ .array c.fields))
      (Item.ofValues (canonical.map .array)) := by
  induction hlayout generalizing cs' with
  | nil => exact .nil
  | @cons c fields cs canonical hblock _ ih =>
    rw [List.map_cons, List.forall₂_cons_left_iff] at hread
    obtain ⟨c', cs', ⟨arr, harr, hparse⟩, hrest, rfl⟩ := hread
    obtain rfl := Value.array.inj harr
    have hlen := hblock.length_bytes
    have hprotected := hcrc c List.mem_cons_self
    rw [CanonicalBlock.fields_of_sameLayout hprotected hblock hparse] at hlen ⊢
    rw [List.map_cons, List.map_cons, Item.ofValues_cons, Item.ofValues_cons]
    exact .cons ⟨hlen, not_oneOff_block hprotected hlen⟩
      (ih (fun c hc ↦ hcrc c (List.mem_cons_of_mem _ hc)) hrest)

/-- Blocks of field values are read back as they are. -/
theorem unmarshal_blocks {blocks : List Value} (hblocks : ∀ v ∈ blocks, FieldValue v)
    (hlen : (Item.ofValue (.indefArray blocks)).bytes.length < 2 ^ 63) :
    Cbor.unmarshal (Item.ofValue (.indefArray blocks)).bytes =
      (.ok (.array blocks), (Item.ofValue (.indefArray blocks)).bytes.length) := by
  have hencodable : (Value.indefArray blocks).Encodable :=
    .indefArray fun v hv ↦ (hblocks v hv).encodable
  have hdenotes := hencodable.denotes hlen
  have hread := unmarshal_append hdenotes.accepted
    (show _ + ([] : List UInt8).length < 2 ^ 63 by simpa using hlen)
  rw [List.append_nil, hdenotes.value_eq, Value.definite_indefArray,
    map_eq_self fun v hv ↦ (hblocks v hv).definite_eq] at hread
  exact hread

/-- A copy of the image that keeps the layout and differs in one byte is answered with an error. -/
theorem Bundle.Protected.detects {b : Bundle} (h : b.Protected) {data : List UInt8}
    (hlayout : b.KeepsLayout data) (hoff : OneOff b.image data) (hlen : data.length < 2 ^ 63) :
    ∃ err, unmarshal data = .error err := by
  obtain ⟨primary, canonical, hprimary, hcanonical, rfl⟩ := hlayout
  have hblocks : ∀ v ∈ Value.array primary :: canonical.map .array, FieldValue v := by
    intro v hv
    rcases List.mem_cons.mp hv with rfl | hv
    · exact .array hprimary.fieldValue
    · obtain ⟨fields, hfields, rfl⟩ := List.mem_map.mp hv
      obtain ⟨j, hj, rfl⟩ := List.getElem_of_mem hfields
      have hcount := hcanonical.length_eq
      exact .array (hcanonical.get (by omega) hj).fieldValue
  rw [unmarshal, unmarshal_blocks hblocks hlen]
  dsimp only
  cases hparse : parseBundle (.array (.array primary :: canonical.map .array)) with
  | error err => exact ⟨err, rfl⟩
  | ok b' =>
    exfalso
    obtain ⟨arr, raws, hvalue, -, hfirst, hothers⟩ := parseBundle_eq_ok.mp hparse
    rw [Value.array.injEq, List.cons.injEq, Value.array.injEq] at hvalue
    obtain ⟨rfl, rfl⟩ := hvalue
    have hlenFirst := hprimary.length_bytes
    have hcanonicals := apart_canonical h.canonical hcanonical hothers
    rw [PrimaryBlock.fields_of_sameLayout h.primary hprimary hfirst] at hlenFirst hoff
    have hapart := hcanonicals.cons ⟨hlenFirst, not_oneOff_block h.primary hlenFirst⟩
    rw [Bundle.image, Bundle.value, bytes_ofValue_indefArray, bytes_ofValue_indefArray,
      Item.ofValues_cons, Item.ofValues_cons] at hoff
    exact not_oneOff_bytesList hapart
      (@OneOff.unframe _ [0x9f] _ _ [0xff] hoff (length_bytesList_of_apart hapart))

end Zenith.Bpv7
