import Zenith.Bridge.Codec

/-!
# Negative integers on the wire

A negative integer of CBOR is decoded by a subtraction in 64 bits. Where its argument fits an `int64`
the result is negative and no number of a bundle or of a message is taken from it; from 2^63 on the
subtraction wraps, and both parsers take the result for an unsigned number.
-/

namespace Zenith.Bridge

open Go Cbor Bpv7

/-! ## Where an item stands -/

/-- `c` is `s` itself or stands somewhere inside it. -/
inductive Within (c : Item) : Item → Prop
  | self : Within c c
  | nested {head : Head} {content : List UInt8} {children : List Item} {d : Item}
      (hd : d ∈ children) (h : Within c d) : Within c (.node head content children)

theorem Within.accepted {c s : Item} (h : Within c s) (hs : s.Accepted) : c.Accepted := by
  induction h with
  | self => exact hs
  | nested hd _ ih => exact ih (hs.of_mem _ hd)

/-- `Supplies s v c`: the number that stands at some place of the fields `v` is read from the item
`c`, which stands at that place of `s`. -/
inductive Supplies : Item → Value → Item → Prop
  | here (c : Item) (x : UInt64) : Supplies c (.uint64 x) c
  | nested {s : Item} {vs : List Value} {i : ℕ} {c d : Item} {v : Value}
      (hc : (children s)[i]? = some c) (hv : vs[i]? = some v) (h : Supplies c v d) :
      Supplies s (.array vs) d

theorem Supplies.within {s d : Item} {v : Value} (h : Supplies s v d) : Within d s := by
  induction h with
  | here c x => exact .self
  | @nested s vs i c d v hc _ _ ih =>
    obtain ⟨head, content, nested⟩ := s
    exact .nested (List.mem_of_getElem? hc) ih

theorem getElem?_children {s c : Item} {arr : List Value} {i : ℕ} (hvalue : s.value = .array arr)
    (hc : (children s)[i]? = some c) : arr[i]? = some c.value := by
  rw [← values_children_of_array hvalue]
  generalize children s = cs at hc
  induction cs generalizing i with
  | nil => simp at hc
  | cons c' cs ih =>
    rw [Item.values_cons]
    cases i with
    | zero =>
      rw [List.getElem?_cons_zero, Option.some.injEq] at hc ⊢
      rw [hc]
    | succ i =>
      rw [List.getElem?_cons_succ] at hc ⊢
      exact ih hc

/-- Where the fields are what was read, up to the form of integers, a number is read from an item
that stands for an unsigned integer. -/
theorem Supplies.unsigned_eq {s d : Item} {v : Value} (h : Supplies s v d)
    (hv : unsigned s.value = v) : ∃ x, unsigned d.value = .uint64 x := by
  induction h with
  | here c x => exact ⟨x, hv⟩
  | @nested s vs i c d v hc hvs _ ih =>
    obtain ⟨raw, hraw, rfl⟩ := unsigned_eq_array.mp hv
    apply ih
    rw [List.getElem?_map, getElem?_children hraw hc, Option.map_some, Option.some.injEq] at hvs
    exact hvs

theorem Supplies.exists_child {s d : Item} {vs : List Value} (h : Supplies s (.array vs) d) :
    ∃ (i : ℕ) (c : Item) (v : Value), (children s)[i]? = some c ∧ vs[i]? = some v ∧ Supplies c v d := by
  cases h with
  | nested hc hv h => exact ⟨_, _, _, hc, hv, h⟩

/-- Elements after the last field supply nothing. -/
theorem Supplies.unsigned_eq_of_prefix {s d : Item} {arr fields surplus plain : List Value}
    (h : Supplies s (.array plain) d) (hvalue : s.value = .array arr)
    (harr : arr = fields ++ surplus) (hfields : fields.map unsigned = plain) :
    ∃ x, unsigned d.value = .uint64 x := by
  obtain ⟨i, c, v, hc, hv, hsupplies⟩ := h.exists_child
  have hread := getElem?_children hvalue hc
  rw [← hfields, List.getElem?_map] at hv
  obtain ⟨raw, hraw, rfl⟩ := Option.map_eq_some_iff.mp hv
  rw [harr, List.getElem?_append_left (List.getElem?_eq_some_iff.mp hraw).1, hraw,
    Option.some.injEq] at hread
  rw [hread] at hsupplies
  exact hsupplies.unsigned_eq rfl

/-! ## Numbers of bundles and messages -/

/-- The fields of all blocks but for the CRCs; the numbers among them are those that `Unmarshal`
takes from the wire. -/
def blockFields (b : Bundle) : Value :=
  .array (.array b.primary.plainFields :: b.canonical.map fun c ↦ .array c.plainFields)

/-- Every number of a parsed bundle was read as an unsigned one. -/
theorem unsigned_of_parseBundle {s d : Item} {b : Bundle} (h : parseBundle s.value = .ok b)
    (hd : Supplies s (blockFields b) d) : ∃ x, unsigned d.value = .uint64 x := by
  obtain ⟨arr, raws, hvalue, -, hprimary, hcanonical⟩ := parseBundle_eq_ok.mp h
  obtain ⟨-, fields, surplus, hfields, harr⟩ := parsePrimary_eq_ok.mp hprimary
  obtain ⟨i, c, v, hc, hv, hsupplies⟩ := hd.exists_child
  have hread := getElem?_children hvalue hc
  cases i with
  | zero =>
    rw [List.getElem?_cons_zero, Option.some.injEq] at hv hread
    rw [← hv] at hsupplies
    exact hsupplies.unsigned_eq_of_prefix hread.symm harr hfields
  | succ i =>
    rw [List.getElem?_cons_succ] at hv hread
    rw [List.getElem?_map] at hv
    obtain ⟨block, hblock, rfl⟩ := Option.map_eq_some_iff.mp hv
    obtain ⟨arr', hvalue', hparse⟩ := (List.forall₂_iff_get.mp hcanonical).2 i
      (List.getElem?_eq_some_iff.mp hread).1 (List.getElem?_eq_some_iff.mp hblock).1
    rw [List.get_eq_getElem, (List.getElem?_eq_some_iff.mp hread).2] at hvalue'
    rw [List.get_eq_getElem, (List.getElem?_eq_some_iff.mp hblock).2] at hparse
    obtain ⟨-, fields', surplus', hfields', harr'⟩ := parseCanonical_eq_ok.mp hparse
    exact hsupplies.unsigned_eq_of_prefix hvalue' harr' hfields'

theorem asUint64_eq_ok {v : Value} {x : UInt64} :
    asUint64 v = .ok x ↔ unsigned v = .uint64 x := by
  cases v with
  | uint64 y => simp [asUint64, unsigned]
  | int64 y =>
    by_cases hneg : y < 0
    · simp [asUint64, unsigned, hneg]
    · simp [asUint64, unsigned, hneg]
  | array items => simp [asUint64]
  | _ => simp [asUint64, unsigned]

theorem asString_eq_ok {v : Value} {x : GoString} : asString v = .ok x ↔ v = .text x := by
  cases v <;> simp [asString]

theorem asBytes_eq_ok {v : Value} {x : List UInt8} : asBytes v = .ok x ↔ v = .bytes x := by
  cases v <;> simp [asBytes]

theorem asBool_eq_ok {v : Value} {x : Bool} : asBool v = .ok x ↔ v = .bool x := by
  cases v <;> simp [asBool]

theorem unsigned_of_parseUpload {body : List Value} {msg : Message}
    (h : parseUpload body = .ok msg) :
    msg.messageType = MsgModelUpload ∧ body.map unsigned = msg.fields := by
  unfold parseUpload at h
  split at h
  · obtain ⟨modelID, hmodel, h⟩ := bind_eq_ok.mp h
    obtain ⟨kind, hkind, h⟩ := bind_eq_ok.mp h
    obtain ⟨params, hparams, h⟩ := bind_eq_ok.mp h
    rw [asString_eq_ok] at hmodel hkind
    rw [asBytes_eq_ok] at hparams
    rw [hmodel, hkind, hparams, ← Except.ok.inj h]
    exact ⟨rfl, by simp [Message.fields, ModelUpload.fields]⟩
  · cases h

theorem unsigned_of_parseRequest {body : List Value} {msg : Message}
    (h : parseRequest body = .ok msg) :
    msg.messageType = MsgInferenceRequest ∧ body.map unsigned = msg.fields := by
  unfold parseRequest at h
  split at h
  · obtain ⟨requestID, hrequest, h⟩ := bind_eq_ok.mp h
    obtain ⟨modelID, hmodel, h⟩ := bind_eq_ok.mp h
    obtain ⟨inputID, hinput, h⟩ := bind_eq_ok.mp h
    rw [asString_eq_ok] at hrequest hmodel hinput
    rw [hrequest, hmodel, hinput, ← Except.ok.inj h]
    exact ⟨rfl, by simp [Message.fields, InferenceRequest.fields]⟩
  · cases h

theorem unsigned_of_parseResponse {body : List Value} {msg : Message}
    (h : parseResponse body = .ok msg) :
    msg.messageType = MsgInferenceResponse ∧ body.map unsigned = msg.fields := by
  have hbool (x : Bool) : unsigned (.bool x) = .bool x := by simp [unsigned]
  unfold parseResponse at h
  split at h
  · obtain ⟨requestID, hrequest, h⟩ := bind_eq_ok.mp h
    obtain ⟨modelID, hmodel, h⟩ := bind_eq_ok.mp h
    obtain ⟨ok, hok, h⟩ := bind_eq_ok.mp h
    obtain ⟨result, hresult, h⟩ := bind_eq_ok.mp h
    obtain ⟨summary, hsummary, h⟩ := bind_eq_ok.mp h
    obtain ⟨inputBytes, hinput, h⟩ := bind_eq_ok.mp h
    obtain ⟨outputBytes, houtput, h⟩ := bind_eq_ok.mp h
    rw [asString_eq_ok] at hrequest hmodel hsummary
    rw [asBool_eq_ok] at hok
    rw [asBytes_eq_ok] at hresult
    rw [asUint64_eq_ok] at hinput houtput
    rw [hrequest, hmodel, hok, hresult, hsummary, ← Except.ok.inj h]
    exact ⟨rfl, by simp [Message.fields, InferenceResponse.fields, hbool, hinput, houtput]⟩
  · cases h

/-- A parsed message has the fields that were read, in any form of integers. -/
theorem unsigned_of_parseMessage {v : Value} {msg : Message} (h : parseMessage v = .ok msg) :
    unsigned v = msg.value := by
  have hvalue {first : Value} {body : List Value} {mt : UInt64} (hfirst : asUint64 first = .ok mt)
      (hbody : msg.messageType = mt ∧ body.map unsigned = msg.fields) :
      unsigned (.array (first :: body)) = msg.value := by
    rw [unsigned_array, List.map_cons, asUint64_eq_ok.mp hfirst, hbody.2, ← hbody.1]
    rfl
  unfold parseMessage at h
  split at h
  · next first body =>
    split at h
    · cases h
    · next mt hfirst =>
      split_ifs at h with hupload hrequest hresponse
      · exact hvalue hfirst (hupload ▸ unsigned_of_parseUpload h)
      · exact hvalue hfirst (hrequest ▸ unsigned_of_parseRequest h)
      · exact hvalue hfirst (hresponse ▸ unsigned_of_parseResponse h)
  · cases h

/-! ## Negative integers -/

/-- The subtraction in 64 bits: exact below 2^63, one wrap too high from there on. -/
theorem toInt_negative (arg : UInt64) : (-1 - arg.toInt64).toInt =
    if arg.toNat < 2 ^ 63 then -1 - (arg.toNat : ℤ) else 2 ^ 64 - 1 - (arg.toNat : ℤ) := by
  have harg : arg.toInt64.toInt = (arg.toNat : ℤ).bmod (2 ^ 64) := by
    rw [← Int64.toInt_toBitVec, UInt64.toBitVec_toInt64, BitVec.toInt_eq_toNat_bmod]
    rfl
  have hlt := arg.toNat_lt
  rw [Int64.toInt_sub, harg, show (-1 : Int64).toInt = -1 by decide, Int.bmod_def, Int.bmod_def]
  split_ifs <;> omega

/-- What a negative integer is decoded to. -/
theorem value_of_negative {c : Item} (hc : c.Accepted) (hmajor : c.head.major = majorNint) :
    ∃ x : Int64, c.value = .int64 x ∧ x.toInt =
      if c.head.count < 2 ^ 63 then -1 - (c.head.count : ℤ) else 2 ^ 64 - 1 - (c.head.count : ℤ) := by
  obtain ⟨head, content, children⟩ := c
  have hvalid : head.Valid := hc.1.rule_holds.valid
  refine ⟨-1 - head.arg.toInt64, ?_, ?_⟩
  · rw [Item.value_node]
    exact contentValue_nint hmajor content (Item.values children)
  · rw [toInt_negative, Head.toNat_arg hvalid]
    rfl

/-- The number of a negative integer is right, and refused where an unsigned one is expected, exactly
when its argument fits an `int64`. -/
theorem negative_iff {c : Item} (hc : c.Accepted) (hmajor : c.head.major = majorNint) :
    ∃ x : Int64, c.value = .int64 x ∧ (x.toInt = -1 - c.head.count ↔ c.head.count < 2 ^ 63) ∧
      ((∃ u, unsigned c.value = .uint64 u) ↔ 2 ^ 63 ≤ c.head.count) := by
  obtain ⟨x, hvalue, hx⟩ := value_of_negative hc hmajor
  have hvalid : c.head.Valid := by
    obtain ⟨head, content, children⟩ := c
    exact hc.1.rule_holds.valid
  have hlt := Head.count_lt hvalid
  refine ⟨x, hvalue, ?_, ?_⟩
  · rw [hx]
    split_ifs with hfits
    · exact iff_of_true rfl hfits
    · exact iff_of_false (by omega) hfits
  · have hneg : x < 0 ↔ c.head.count < 2 ^ 63 := by
      rw [Int64.lt_iff_toInt_lt, hx, show (0 : Int64).toInt = 0 by decide]
      split_ifs with hfits
      · exact iff_of_true (by omega) hfits
      · exact iff_of_false (by omega) hfits
    rw [hvalue, ← not_lt, ← hneg, unsigned]
    by_cases hx0 : x < 0 <;> simp [hx0]

/-- Every negative integer of an item is decoded to the number it denotes, and no number of a bundle
or of a message is taken from one. -/
structure KeepsSigns (data : List UInt8) (s : Item) : Prop where
  decoded : ∀ c, Within c s → c.head.major = majorNint →
    ∃ x : Int64, c.value = .int64 x ∧ x.toInt = -1 - c.head.count
  bundle : ∀ b, Bpv7.unmarshal data = .ok b →
    ∀ d, Supplies s (blockFields b) d → d.head.major ≠ majorNint
  message : ∀ msg, decode data = .ok msg → ∀ d, Supplies s msg.value d → d.head.major ≠ majorNint

theorem parseMessage_of_decode {data : List UInt8} {v : Value} {n : ℕ} {msg : Message}
    (hread : Cbor.unmarshal data = (.ok v, n)) (h : decode data = .ok msg) :
    parseMessage v = .ok msg := by
  unfold decode at h
  rw [hread] at h
  dsimp only at h
  split at h
  · cases h
  · next hparse =>
    cases h
    exact hparse

theorem parseBundle_of_unmarshal {data : List UInt8} {v : Value} {n : ℕ} {b : Bundle}
    (hread : Cbor.unmarshal data = (.ok v, n)) (h : Bpv7.unmarshal data = .ok b) :
    parseBundle v = .ok b := by
  obtain ⟨v', n', hread', hparse⟩ := Bpv7.unmarshal_eq_ok.mp h
  rw [hread] at hread'
  cases hread'
  exact hparse

/-- Signs are kept on exactly those inputs on which every negative integer has an argument that fits
an `int64`; each one that has is refused as an unsigned number, and each other is taken for one. -/
theorem negative_integers_iff {data : List UInt8} {v : Value} {n : ℕ}
    (hdata : data.length < 2 ^ 63) (hread : Cbor.unmarshal data = (.ok v, n)) :
    ∃ s : Item, s.Accepted ∧ data.take n = s.bytes ∧ v = s.value ∧
      (KeepsSigns data s ↔
        ∀ c, Within c s → c.head.major = majorNint → c.head.count < 2 ^ 63) ∧
      ∀ c, Within c s → c.head.major = majorNint → ∃ x : Int64, c.value = .int64 x ∧
        (x.toInt = -1 - c.head.count ↔ c.head.count < 2 ^ 63) ∧
        ((∃ u, Bpv7.asUint64 c.value = .ok u) ↔ 2 ^ 63 ≤ c.head.count) ∧
        ((∃ u, asUint64 c.value = .ok u) ↔ 2 ^ 63 ≤ c.head.count) := by
  obtain ⟨s, haccepted, hbytes, -, rfl⟩ := (Cbor.unmarshal_eq_ok hdata).mp hread
  have hitem (c : Item) (hc : Within c s) := negative_iff (hc.accepted haccepted)
  have hrefused {d : Item} (hfits : ∀ c, Within c s → c.head.major = majorNint →
      c.head.count < 2 ^ 63) (hd : Within d s) (hunsigned : ∃ x, unsigned d.value = .uint64 x) :
      d.head.major ≠ majorNint := by
    intro hmajor
    obtain ⟨x, -, -, htaken⟩ := hitem d hd hmajor
    exact absurd (hfits d hd hmajor) (not_lt.mpr (htaken.mp hunsigned))
  refine ⟨s, haccepted, hbytes, rfl, ⟨fun hkeeps c hc hmajor ↦ ?_, fun hfits ↦ ⟨?_, ?_, ?_⟩⟩, ?_⟩
  · obtain ⟨x, hvalue, hexact⟩ := hkeeps.decoded c hc hmajor
    obtain ⟨x', hvalue', hiff, -⟩ := hitem c hc hmajor
    rw [hvalue, Value.int64.injEq] at hvalue'
    exact hiff.mp (hvalue' ▸ hexact)
  · intro c hc hmajor
    obtain ⟨x, hvalue, hiff, -⟩ := hitem c hc hmajor
    exact ⟨x, hvalue, hiff.mpr (hfits c hc hmajor)⟩
  · intro b hb d hd
    have hparse := parseBundle_of_unmarshal hread hb
    exact hrefused hfits hd.within (unsigned_of_parseBundle hparse hd)
  · intro msg hmsg d hd
    have hvalue := unsigned_of_parseMessage (parseMessage_of_decode hread hmsg)
    exact hrefused hfits hd.within (hd.unsigned_eq hvalue)
  · intro c hc hmajor
    obtain ⟨x, hvalue, hiff, htaken⟩ := hitem c hc hmajor
    refine ⟨x, hvalue, hiff, ?_, ?_⟩
    · simp only [Bpv7.asUint64_eq_ok, htaken]
    · simp only [asUint64_eq_ok, htaken]

theorem negative_integers_iff_minusOne : ∃ s : Item, s.Accepted ∧ [0x20].take 1 = s.bytes ∧
    Value.int64 (-1) = s.value ∧ (KeepsSigns [0x20] s ↔
      ∀ c, Within c s → c.head.major = majorNint → c.head.count < 2 ^ 63) := by
  have hread : Cbor.unmarshal [0x20] = (.ok (.int64 (-1)), 1) := rfl
  obtain ⟨s, haccepted, hbytes, hvalue, hkeeps, -⟩ := negative_integers_iff (by decide) hread
  exact ⟨s, haccepted, hbytes, hvalue, hkeeps⟩

/-- -1 - 2^63, which no `int64` is. -/
def belowRange : Item := .node ⟨0x3b, [0x80, 0, 0, 0, 0, 0, 0, 0]⟩ [] []

/-- A bundle from and to `dtn:none` whose lifetime is that number. -/
def negativeLifetime : List UInt8 :=
  [0x9f, 0x88, 0x07, 0x00, 0x00, 0x82, 0x01, 0x00, 0x82, 0x01, 0x00, 0x82, 0x01, 0x00,
    0x82, 0x00, 0x00] ++ belowRange.bytes ++ [0x85, 0x01, 0x01, 0x00, 0x00, 0x40, 0xff]

/-- A message whose type is -2^64 + 2. -/
def negativeType : List UInt8 :=
  [0x84, 0x3b, 0xff, 0xff, 0xff, 0xff, 0xff, 0xff, 0xff, 0xfd, 0x61, 0x61, 0x61, 0x62, 0x61, 0x63]

/-- A negative integer becomes the greatest `int64`, the lifetime of a bundle and the type of a
message. -/
theorem negative_integers_taken :
    Cbor.unmarshal belowRange.bytes = (.ok (.int64 9223372036854775807), 9) ∧
      belowRange.head.count = 2 ^ 63 ∧ ¬KeepsSigns belowRange.bytes belowRange ∧
      (∃ b, Bpv7.unmarshal negativeLifetime = .ok b ∧
        b.primary.lifetime = 9223372036854775807) ∧
      decode negativeType = .ok (.request ⟨lit "a", lit "b", lit "c"⟩) := by
  refine ⟨rfl, by decide, ?_, ?_, by decide +kernel⟩
  · intro hkeeps
    obtain ⟨x, hvalue, hx⟩ := hkeeps.decoded belowRange .self (by decide)
    have htaken : belowRange.value = .int64 9223372036854775807 := rfl
    rw [htaken, Value.int64.injEq] at hvalue
    rw [← hvalue] at hx
    exact absurd hx (by decide)
  · refine ⟨⟨⟨7, 0, 0, NullEndpoint, NullEndpoint, NullEndpoint, ⟨0, 0⟩, 9223372036854775807, 0, 0⟩,
      [⟨1, 1, 0, 0, []⟩]⟩, by decide +kernel, rfl⟩

end Zenith.Bridge
