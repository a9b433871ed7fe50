import Zenith.Cbor.Unmarshal

/-!
# The item that the encoder writes

`Item.ofValue` is the data item of a value, built without a buffer. `encode` writes its bytes, and
everything the round trips need about heads is the description of `Head.ofArg`, the head behind
`writeHead`.
-/

namespace Zenith.Cbor

open Go

/-! ## Heads -/

theorem initial_toNat_of_fields {major info : UInt8} (hmajor : major.toNat < 8)
    (hinfo : info.toNat < 32) :
    (major <<< 5 ||| info).toNat = 32 * major.toNat + info.toNat := by
  have hshift : (major <<< 5).toNat = major.toNat <<< 5 := by
    rw [UInt8.toNat_shiftLeft]
    change major.toNat <<< 5 % 256 = _
    rw [Nat.shiftLeft_eq]
    omega
  rw [UInt8.toNat_or, hshift, ← Nat.shiftLeft_add_eq_or_of_lt (by simpa using hinfo),
    Nat.shiftLeft_eq]
  omega

theorem Head.toNat_info_lt (h : Head) : h.info.toNat < 32 := by
  rw [Head.info, UInt8.toNat_and]
  exact Nat.lt_of_le_of_lt Nat.and_le_right (by decide)

/-- The fields of an initial byte that was put together from them. -/
theorem Head.fields_of_initial {major info : UInt8} (hmajor : major.toNat < 8)
    (hinfo : info.toNat < 32) (argument : List UInt8) :
    (Head.mk (major <<< 5 ||| info) argument).major = major ∧
      (Head.mk (major <<< 5 ||| info) argument).info = info := by
  have hfields := Item.initial_toNat ⟨major <<< 5 ||| info, argument⟩
  rw [initial_toNat_of_fields hmajor hinfo] at hfields
  have hlt := Head.toNat_info_lt ⟨major <<< 5 ||| info, argument⟩
  constructor
  · apply UInt8.toNat_inj.mp
    omega
  · apply UInt8.toNat_inj.mp
    omega

namespace Head

/-- The head that `writeHead` writes. -/
def ofArg (major : UInt8) (arg : UInt64) : Head :=
  let mt := major <<< 5
  if arg < 24 then ⟨mt ||| arg.toUInt8, []⟩
  else if arg < (1 : UInt64) <<< 8 then ⟨mt ||| 24, [arg.toUInt8]⟩
  else if arg < (1 : UInt64) <<< 16 then ⟨mt ||| 25, putUint16 arg.toUInt16⟩
  else if arg < (1 : UInt64) <<< 32 then ⟨mt ||| 26, putUint32 arg.toUInt32⟩
  else ⟨mt ||| 27, putUint64 arg⟩

theorem bytes_ofArg (major : UInt8) (arg : UInt64) : (ofArg major arg).bytes = writeHead major arg := by
  unfold ofArg writeHead
  dsimp only
  split_ifs <;> rfl

/-- A head with additional information `info` and matching argument bytes. -/
structure Spells (h : Head) (major : UInt8) (n : ℕ) : Prop where
  major_eq : h.major = major
  valid : h.Valid
  count_eq : h.count = n
  definite : ¬h.Indefinite

theorem spells_of_width {major info : UInt8} (hmajor : major.toNat < 8) (hlow : 24 ≤ info.toNat)
    (hhigh : info.toNat < 31) {argument : List UInt8}
    (hwidth : argumentWidth info = some argument.length) {n : ℕ}
    (hn : BigEndian.decode argument = n) :
    (Head.mk (major <<< 5 ||| info) argument).Spells major n := by
  obtain ⟨hmajorEq, hinfoEq⟩ := fields_of_initial hmajor (show info.toNat < 32 by omega) argument
  refine ⟨hmajorEq, ?_, ?_, ?_⟩
  · rw [Valid, hinfoEq, hwidth]
  · have hnot : ¬info < 24 := by
      rw [UInt8.lt_iff_toNat_lt]
      exact Nat.not_lt.mpr hlow
    rw [count, hinfoEq, if_neg hnot]
    exact hn
  · rw [Indefinite, hinfoEq]
    intro h
    rw [h] at hhigh
    exact absurd hhigh (by decide)

/-- `writeHead` spells its argument in one of five widths. -/
theorem spells_ofArg {major : UInt8} (hmajor : major.toNat < 8) (arg : UInt64) :
    (ofArg major arg).Spells major arg.toNat := by
  unfold ofArg
  dsimp only
  split_ifs with h24 h8 h16 h32
  · have hlt : arg.toNat < 24 := UInt64.lt_iff_toNat_lt.mp h24
    have hbyte : arg.toUInt8.toNat = arg.toNat := by
      rw [UInt64.toNat_toUInt8]
      omega
    obtain ⟨hmajorEq, hinfoEq⟩ :=
      fields_of_initial hmajor (show arg.toUInt8.toNat < 32 by omega) []
    have hsmall : arg.toUInt8 < 24 := by
      rw [UInt8.lt_iff_toNat_lt, hbyte]
      exact hlt
    refine ⟨hmajorEq, ?_, ?_, ?_⟩
    · rw [Valid, hinfoEq, argumentWidth, if_pos hsmall]
      rfl
    · rw [count, hinfoEq, if_pos hsmall, hbyte]
    · rw [Indefinite, hinfoEq]
      intro h
      rw [h] at hsmall
      exact absurd hsmall (by decide)
  · have hlt : arg.toNat < 256 := UInt64.lt_iff_toNat_lt.mp h8
    have hbyte : arg.toUInt8.toNat = arg.toNat := by
      rw [UInt64.toNat_toUInt8]
      omega
    exact spells_of_width hmajor (by decide) (by decide) rfl (by simp [BigEndian.decode, hbyte])
  · have hlt : arg.toNat < 65536 := UInt64.lt_iff_toNat_lt.mp h16
    apply spells_of_width hmajor (by decide) (by decide)
    · simp [argumentWidth]
    · rw [decode_putUint16, UInt64.toNat_toUInt16]
      omega
  · have hlt : arg.toNat < 4294967296 := UInt64.lt_iff_toNat_lt.mp h32
    apply spells_of_width hmajor (by decide) (by decide)
    · simp [argumentWidth]
    · rw [decode_putUint32, UInt64.toNat_toUInt32]
      omega
  · apply spells_of_width hmajor (by decide) (by decide)
    · simp [argumentWidth]
    · exact decode_putUint64 arg

theorem Spells.arg_eq {h : Head} {major : UInt8} {arg : UInt64} (hs : h.Spells major arg.toNat) :
    h.arg = arg := by
  rw [Head.arg, hs.count_eq]
  exact UInt64.ofNat_toNat

theorem childCount_ne_none {h : Head} (hdef : ¬h.Indefinite) : h.childCount ≠ none := by
  unfold childCount
  split_ifs <;> simp

end Head

/-! ## Items -/

namespace Item

/-- The item of a signed integer. -/
def ofInt (x : Int64) : Item :=
  if x ≥ 0 then .node (.ofArg majorUint x.toUInt64) [] []
  else .node (.ofArg majorNint (-1 - x).toUInt64) [] []

mutual

/-- The item of a value; the break marker, which cannot be encoded, gets the break code. -/
def ofValue : Value → Item
  | .null => .node ⟨majorSimple <<< 5 ||| 22, []⟩ [] []
  | .bool x => .node ⟨majorSimple <<< 5 ||| if x then 21 else 20, []⟩ [] []
  | .uint x => .node (.ofArg majorUint x) [] []
  | .uint8 x => .node (.ofArg majorUint x.toUInt64) [] []
  | .uint16 x => .node (.ofArg majorUint x.toUInt64) [] []
  | .uint32 x => .node (.ofArg majorUint x.toUInt64) [] []
  | .uint64 x => .node (.ofArg majorUint x) [] []
  | .int x => ofInt x
  | .int8 x => ofInt x.toInt64
  | .int16 x => ofInt x.toInt64
  | .int32 x => ofInt x.toInt64
  | .int64 x => ofInt x
  | .float64 bits => .node ⟨majorSimple <<< 5 ||| 27, putUint64 bits⟩ [] []
  | .bytes data => .node (.ofArg majorBytes (lenUint64 data)) data []
  | .text data => .node (.ofArg majorText (lenUint64 data)) data []
  | .array items => .node (.ofArg majorArray (lenUint64 items)) [] (ofValues items)
  | .indefArray items => .node ⟨majorArray <<< 5 ||| indefinite, []⟩ [] (ofValues items)
  | .map entries => .node (.ofArg majorMap (lenUint64 entries)) [] (ofEntries entries)
  | .tag number content => .node (.ofArg majorTag number) [] [ofValue content]
  | .breakMarker => .node ⟨0xff, []⟩ [] []
termination_by structural v => v

def ofValues : List Value → List Item
  | [] => []
  | item :: rest => ofValue item :: ofValues rest
termination_by structural items => items

/-- The keys and values of a map, alternating. -/
def ofEntries : List (Value × Value) → List Item
  | [] => []
  | (key, value) :: rest => ofValue key :: ofValue value :: ofEntries rest
termination_by structural entries => entries

end

@[simp] theorem ofValues_nil : ofValues [] = [] := by simp [ofValues]

@[simp] theorem ofValues_cons (item : Value) (rest : List Value) :
    ofValues (item :: rest) = ofValue item :: ofValues rest := by simp [ofValues]

@[simp] theorem ofEntries_nil : ofEntries [] = [] := by simp [ofEntries]

@[simp] theorem ofEntries_cons (key value : Value) (rest : List (Value × Value)) :
    ofEntries ((key, value) :: rest) = ofValue key :: ofValue value :: ofEntries rest := by
  simp [ofEntries]

@[simp] theorem length_ofValues (items : List Value) : (ofValues items).length = items.length := by
  induction items with
  | nil => simp
  | cons item rest ih => simp [ih]

theorem length_ofEntries (entries : List (Value × Value)) :
    (ofEntries entries).length = 2 * entries.length := by
  induction entries with
  | nil => simp
  | cons e rest ih =>
    obtain ⟨key, value⟩ := e
    simp only [ofEntries_cons, List.length_cons, ih]
    omega

/-- An item whose head does not announce a break. -/
theorem bytes_of_definite {h : Head} (hdef : ¬h.Indefinite) (content : List UInt8)
    (children : List Item) :
    (node h content children).bytes = h.bytes ++ content ++ bytesList children := by
  simp [bytes, Head.childCount_ne_none hdef]

theorem definite_float (bits : UInt64) :
    ¬(Head.mk (majorSimple <<< 5 ||| 27) (putUint64 bits)).Indefinite := by
  intro h
  exact absurd (show (majorSimple <<< 5 ||| 27 : UInt8) &&& 0x1f = 31 from h) (by decide)

theorem bytes_ofArg {major : UInt8} (hmajor : major.toNat < 8) (arg : UInt64)
    (content : List UInt8) (children : List Item) :
    (node (.ofArg major arg) content children).bytes =
      writeHead major arg ++ content ++ bytesList children := by
  rw [bytes_of_definite (Head.spells_ofArg hmajor arg).definite, Head.bytes_ofArg]

theorem bytes_ofInt (x : Int64) : (ofInt x).bytes = encodeInt x := by
  unfold ofInt encodeInt
  split_ifs
  · rw [bytes_ofArg (by decide)]
    simp
  · rw [bytes_ofArg (by decide)]
    simp

end Item

theorem bytes_ofValue_uint64 (x : UInt64) :
    (Item.ofValue (.uint64 x)).bytes = writeHead majorUint x := by
  rw [Item.ofValue, Item.bytes_ofArg (by decide)]
  simp

theorem bytes_ofValue_array (items : List Value) : (Item.ofValue (.array items)).bytes =
    writeHead majorArray (lenUint64 items) ++ Item.bytesList (Item.ofValues items) := by
  rw [Item.ofValue, Item.bytes_ofArg (by decide)]
  simp

theorem bytes_ofValue_indefArray (items : List Value) :
    (Item.ofValue (.indefArray items)).bytes =
      0x9f :: Item.bytesList (Item.ofValues items) ++ [0xff] := by
  have hcount : (Head.mk (majorArray <<< 5 ||| indefinite) []).childCount = none := by decide
  rw [Item.ofValue, Item.bytes, if_pos hcount]
  rfl

theorem bytes_ofValue_float64 (bits : UInt64) :
    (Item.ofValue (.float64 bits)).bytes = (majorSimple <<< 5 ||| 27) :: putUint64 bits := by
  rw [Item.ofValue, Item.bytes_of_definite (Item.definite_float bits)]
  rw [Item.bytesList_nil, List.append_nil, List.append_nil]
  rfl

/-! ## Lengths -/

theorem length_writeHead (major : UInt8) (arg : UInt64) : (writeHead major arg).length =
    if arg.toNat < 24 then 1
    else if arg.toNat < 2 ^ 8 then 2
    else if arg.toNat < 2 ^ 16 then 3
    else if arg.toNat < 2 ^ 32 then 5
    else 9 := by
  have h24 : arg < 24 ↔ arg.toNat < 24 := UInt64.lt_iff_toNat_lt
  have h8 : arg < (1 : UInt64) <<< 8 ↔ arg.toNat < 2 ^ 8 := UInt64.lt_iff_toNat_lt
  have h16 : arg < (1 : UInt64) <<< 16 ↔ arg.toNat < 2 ^ 16 := UInt64.lt_iff_toNat_lt
  have h32 : arg < (1 : UInt64) <<< 32 ↔ arg.toNat < 2 ^ 32 := UInt64.lt_iff_toNat_lt
  unfold writeHead
  dsimp only
  simp only [h24, h8, h16, h32]
  split_ifs <;> simp

theorem length_bytes_uint64 (x : UInt64) : (Item.ofValue (.uint64 x)).bytes.length =
    if x.toNat < 24 then 1
    else if x.toNat < 2 ^ 8 then 2
    else if x.toNat < 2 ^ 16 then 3
    else if x.toNat < 2 ^ 32 then 5
    else 9 := by
  rw [bytes_ofValue_uint64, length_writeHead]

theorem length_bytes_float64 (bits : UInt64) :
    (Item.ofValue (.float64 bits)).bytes.length = 9 := by
  rw [bytes_ofValue_float64, List.length_cons, length_putUint64]

/-- An array of up to 23 elements, each at most `width` bytes long. -/
theorem length_bytes_array_le {items : List Value} (hfew : items.length < 24) (width : ℕ)
    (hwidth : ∀ v ∈ items, (Item.ofValue v).bytes.length ≤ width) :
    (Item.ofValue (.array items)).bytes.length ≤ 1 + width * items.length := by
  have hbody : (Item.bytesList (Item.ofValues items)).length ≤ width * items.length := by
    clear hfew
    induction items with
    | nil => simp
    | cons v items ih =>
      have hfirst := hwidth v List.mem_cons_self
      have hrest := ih fun w hw ↦ hwidth w (List.mem_cons_of_mem v hw)
      rw [Item.ofValues_cons, Item.bytesList_cons, List.length_append, List.length_cons, mul_add]
      omega
  have hcount : (lenUint64 items).toNat = items.length := by
    rw [lenUint64, UInt64.toNat_ofNat']
    omega
  rw [bytes_ofValue_array, List.length_append, length_writeHead, hcount, if_pos hfew]
  omega

/-! ## `encode` writes the bytes of the item -/

theorem encodeItems_eq_ok {items : List Value} {body : List UInt8}
    (ih : ∀ v ∈ items, ∀ bs, encode v = .ok bs → (Item.ofValue v).bytes = bs)
    (h : encodeItems items = .ok body) : Item.bytesList (Item.ofValues items) = body := by
  induction items generalizing body with
  | nil =>
    rw [encodeItems, Except.ok.injEq] at h
    simpa using h
  | cons item rest ihrest =>
    rw [encodeItems] at h
    obtain ⟨first, hfirst, h⟩ := bind_eq_ok.mp h
    obtain ⟨tail, hrest, h⟩ := bind_eq_ok.mp h
    rw [Item.ofValues_cons, Item.bytesList_cons, ih item (by simp) first hfirst,
      ihrest (fun v hv ↦ ih v (by simp [hv])) hrest]
    exact Except.ok.inj h

theorem encodeEntries_eq_ok {entries : List (Value × Value)} {body : List UInt8}
    (ih : ∀ e ∈ entries, (∀ bs, encode e.1 = .ok bs → (Item.ofValue e.1).bytes = bs) ∧
      ∀ bs, encode e.2 = .ok bs → (Item.ofValue e.2).bytes = bs)
    (h : encodeEntries entries = .ok body) : Item.bytesList (Item.ofEntries entries) = body := by
  induction entries generalizing body with
  | nil =>
    rw [encodeEntries, Except.ok.injEq] at h
    simpa using h
  | cons e rest ihrest =>
    obtain ⟨key, value⟩ := e
    rw [encodeEntries] at h
    obtain ⟨first, hkey, h⟩ := bind_eq_ok.mp h
    obtain ⟨second, hvalue, h⟩ := bind_eq_ok.mp h
    obtain ⟨tail, hrest, h⟩ := bind_eq_ok.mp h
    have hpair := ih (key, value) (by simp)
    rw [Item.ofEntries_cons, Item.bytesList_cons, Item.bytesList_cons, hpair.1 first hkey,
      hpair.2 second hvalue, ihrest (fun e he ↦ ih e (by simp [he])) hrest, ← Except.ok.inj h,
      List.append_assoc]

/-- Whatever `encode` returns are the bytes of the value's item. -/
theorem encode_eq_ok {v : Value} {bs : List UInt8} (h : encode v = .ok bs) :
    (Item.ofValue v).bytes = bs := by
  induction v generalizing bs with
  | array items ih =>
    rw [encode] at h
    obtain ⟨body, hbody, h⟩ := bind_eq_ok.mp h
    rw [Item.ofValue, Item.bytes_ofArg (by decide), ← Except.ok.inj h,
      encodeItems_eq_ok (fun v hv bs ↦ ih v hv) hbody]
    simp
  | indefArray items ih =>
    rw [encode] at h
    obtain ⟨body, hbody, h⟩ := bind_eq_ok.mp h
    have hcount : (Head.mk (majorArray <<< 5 ||| indefinite) []).childCount = none := by decide
    rw [Item.ofValue, Item.bytes, if_pos hcount, ← Except.ok.inj h,
      encodeItems_eq_ok (fun v hv bs ↦ ih v hv) hbody]
    simp [Head.bytes]
    decide
  | map entries ih =>
    rw [encode] at h
    obtain ⟨body, hbody, h⟩ := bind_eq_ok.mp h
    rw [Item.ofValue, Item.bytes_ofArg (by decide), ← Except.ok.inj h,
      encodeEntries_eq_ok (fun e he ↦ ⟨fun bs ↦ (ih e he).1, fun bs ↦ (ih e he).2⟩) hbody]
    simp
  | tag number content ih =>
    rw [encode] at h
    obtain ⟨body, hbody, h⟩ := bind_eq_ok.mp h
    rw [Item.ofValue, Item.bytes_ofArg (by decide), ← Except.ok.inj h]
    simp [ih hbody]
  | breakMarker => simp [encode] at h
  | null =>
    rw [encode, Except.ok.injEq] at h
    rw [← h]
    decide
  | bool x =>
    rw [encode, Except.ok.injEq] at h
    rw [← h]
    cases x <;> decide
  | float64 bits =>
    rw [encode, Except.ok.injEq] at h
    rw [Item.ofValue, Item.bytes_of_definite (Item.definite_float bits), ← h]
    simp [Head.bytes]
  | int x | int8 x | int16 x | int32 x | int64 x =>
    rw [encode, Except.ok.injEq] at h
    rw [Item.ofValue, Item.bytes_ofInt, h]
  | uint x | uint8 x | uint16 x | uint32 x | uint64 x =>
    rw [encode, Except.ok.injEq] at h
    rw [Item.ofValue, Item.bytes_ofArg (by decide), ← h]
    simp
  | bytes data | text data =>
    rw [encode, Except.ok.injEq] at h
    rw [Item.ofValue, Item.bytes_ofArg (by decide), ← h]
    simp

end Zenith.Cbor
