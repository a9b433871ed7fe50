import Zenith.Cbor.Cursor

/-!
# The value an accepted item denotes

`Item.value` reads a data item the way the decoder does, with no cursor and no fuel, and
`Item.Accepted` names the items on which the decoder succeeds: a skeleton in which the simple values
are the supported ones, chunks have the type of their string and the runtime can hash every map key.
-/

namespace Zenith.Cbor

open Go

/-- The value of an item of major type 7. -/
def simpleValue (h : Head) : Value :=
  if h.info = 20 then .bool false
  else if h.info = 21 then .bool true
  else if h.info = 22 ∨ h.info = 23 then .null
  else if h.info = indefinite then .breakMarker
  else if h.info = 25 then
    .float64 (widenFloat32 (halfToFloat32bits (bigEndianUint16 h.argument)))
  else if h.info = 26 then .float64 (widenFloat32 (bigEndianUint32 h.argument))
  else .float64 (bigEndianUint64 h.argument)

/-- The bytes a chunk contributes to its string. -/
def chunkData : Value → List UInt8
  | .bytes data => data
  | .text data => data
  | _ => []

/-- The entries after assigning the key-value pairs that alternate in a list of items. -/
def assignAll : List (Value × Value) → List Value → List (Value × Value)
  | out, k :: v :: rest => assignAll (Value.upsert out k v) rest
  | out, _ => out

/-- Every key among alternating keys and values can be hashed. -/
def KeysHashable : List Value → Prop
  | k :: _ :: rest => k.hashable = true ∧ KeysHashable rest
  | _ => True

def contentValue (h : Head) (content : List UInt8) (nested : List Value) : Value :=
  if h.major = majorUint then .uint64 h.arg
  else if h.major = majorNint then .int64 (-1 - h.arg.toInt64)
  else if h.major = majorBytes then
    .bytes (if h.Indefinite then nested.flatMap chunkData else content)
  else if h.major = majorText then
    .text (if h.Indefinite then nested.flatMap chunkData else content)
  else if h.major = majorArray then .array nested
  else if h.major = majorMap then .map (assignAll [] nested)
  else if h.major = majorTag then .tag h.arg (nested.headD .null)
  else simpleValue h

section ContentValue

variable {h : Head}

theorem contentValue_uint (hm : h.major = majorUint) (content : List UInt8) (nested : List Value) :
    contentValue h content nested = .uint64 h.arg := if_pos hm

theorem contentValue_nint (hm : h.major = majorNint) (content : List UInt8) (nested : List Value) :
    contentValue h content nested = .int64 (-1 - h.arg.toInt64) := by
  simp [contentValue, hm, majorUint, majorNint]

theorem contentValue_bytes (hm : h.major = majorBytes) (content : List UInt8)
    (nested : List Value) : contentValue h content nested =
      .bytes (if h.Indefinite then nested.flatMap chunkData else content) := by
  simp [contentValue, hm, majorUint, majorNint, majorBytes]

theorem contentValue_text (hm : h.major = majorText) (content : List UInt8) (nested : List Value) :
    contentValue h content nested =
      .text (if h.Indefinite then nested.flatMap chunkData else content) := by
  simp [contentValue, hm, majorUint, majorNint, majorBytes, majorText]

theorem contentValue_array (hm : h.major = majorArray) (content : List UInt8)
    (nested : List Value) : contentValue h content nested = .array nested := by
  simp [contentValue, hm, majorUint, majorNint, majorBytes, majorText, majorArray]

theorem contentValue_map (hm : h.major = majorMap) (content : List UInt8) (nested : List Value) :
    contentValue h content nested = .map (assignAll [] nested) := by
  simp [contentValue, hm, majorUint, majorNint, majorBytes, majorText, majorArray, majorMap]

theorem contentValue_tag (hm : h.major = majorTag) (content : List UInt8) (nested : List Value) :
    contentValue h content nested = .tag h.arg (nested.headD .null) := by
  simp [contentValue, hm, majorUint, majorNint, majorBytes, majorText, majorArray, majorMap,
    majorTag]

theorem contentValue_simple (hm : h.major = majorSimple) (content : List UInt8)
    (nested : List Value) : contentValue h content nested = simpleValue h := by
  simp [contentValue, hm, majorUint, majorNint, majorBytes, majorText, majorArray, majorMap,
    majorTag, majorSimple]

end ContentValue

namespace Item

mutual

/-- The value of an item. -/
def value : Item → Value
  | node head content children => contentValue head content (values children)

def values : List Item → List Value
  | [] => []
  | c :: cs => value c :: values cs

end

@[simp] theorem values_nil : values [] = [] := by simp [values]

@[simp] theorem values_cons (c : Item) (cs : List Item) :
    values (c :: cs) = c.value :: values cs := by simp [values]

@[simp] theorem values_append (cs cs' : List Item) :
    values (cs ++ cs') = values cs ++ values cs' := by
  induction cs with
  | nil => simp
  | cons c cs ih => simp [ih]

@[simp] theorem length_values (cs : List Item) : (values cs).length = cs.length := by
  induction cs with
  | nil => simp
  | cons c cs ih => simp [ih]

theorem mem_values {cs : List Item} {v : Value} (hv : v ∈ values cs) :
    ∃ c ∈ cs, v = c.value := by
  induction cs with
  | nil => simp at hv
  | cons c cs ih =>
    rw [values_cons, List.mem_cons] at hv
    rcases hv with rfl | hv
    · exact ⟨c, by simp, rfl⟩
    · obtain ⟨c', hc', rfl⟩ := ih hv
      exact ⟨c', by simp [hc'], rfl⟩

theorem value_mem_values {cs : List Item} {c : Item} (hc : c ∈ cs) : c.value ∈ values cs := by
  induction cs with
  | nil => exact absurd hc List.not_mem_nil
  | cons c' cs ih =>
    rw [values_cons]
    rcases List.mem_cons.mp hc with rfl | hc
    · exact List.mem_cons_self
    · exact List.mem_cons_of_mem _ (ih hc)

theorem value_node (head : Head) (content : List UInt8) (children : List Item) :
    (node head content children).value = contentValue head content (values children) := by
  simp [value]

/-- What the decoder asks of one node beyond the skeleton. -/
structure ReadableRule (head : Head) (_content : List UInt8) (children : List Item) : Prop where
  simple : head.major = majorSimple → head.info = 20 ∨ head.info = 21 ∨ head.info = 22 ∨
    head.info = 23 ∨ head.info = 25 ∨ head.info = 26 ∨ head.info = 27 ∨ head.info = indefinite
  chunks : head.major = majorBytes ∨ head.major = majorText →
    ∀ c ∈ children, c.head.major = head.major
  keys : head.major = majorMap → KeysHashable (values children)

/-- The items the decoder accepts. -/
def Accepted (s : Item) : Prop := s.Skeleton ∧ s.All ReadableRule

theorem Accepted.of_mem {head : Head} {content : List UInt8} {children : List Item}
    (h : (node head content children).Accepted) : ∀ c ∈ children, c.Accepted :=
  fun c hc ↦ ⟨h.1.of_mem c hc, h.2.of_mem c hc⟩

theorem Accepted.intro {head : Head} {content : List UInt8} {children : List Item}
    (hskeleton : SkeletonRule head content children)
    (hreadable : ReadableRule head content children) (hchildren : ∀ c ∈ children, c.Accepted) :
    (node head content children).Accepted :=
  ⟨.intro hskeleton fun c hc ↦ (hchildren c hc).1, .intro hreadable fun c hc ↦ (hchildren c hc).2⟩

/-! ## Breaks -/

/-- An initial byte is determined by its two fields. -/
theorem initial_toNat (h : Head) : h.initial.toNat = 32 * h.major.toNat + h.info.toNat := by
  have hmajor : h.major.toNat = h.initial.toNat / 32 := by
    rw [Head.major, UInt8.toNat_shiftRight]
    exact Nat.shiftRight_eq_div_pow _ _
  have hinfo : h.info.toNat = h.initial.toNat % 32 := by
    rw [Head.info, UInt8.toNat_and]
    exact Nat.and_two_pow_sub_one_eq_mod _ 5
  omega

theorem isBreak_iff {s : Item} : s.IsBreak ↔ s.head.major = majorSimple ∧ s.head.Indefinite := by
  constructor
  · exact fun h ↦ ⟨h.major, h.indefinite⟩
  · rintro ⟨hmajor, hinfo⟩
    apply UInt8.toNat_inj.mp
    rw [initial_toNat, hmajor, show s.head.info = 31 from hinfo]
    rfl

theorem Skeleton.bytes_of_isBreak {s : Item} (hs : s.Skeleton) (h : s.IsBreak) :
    s.bytes = [0xff] := by
  have hmajor : s.head.major = 7 := h.major
  have hinfo : s.head.info = 31 := h.indefinite
  obtain ⟨⟨initial, argument⟩, content, children⟩ := s
  obtain rfl : initial = 0xff := h
  simp only [head] at hmajor hinfo
  obtain ⟨hvalid, hcontent, hcount, -, -⟩ := hs.rule_holds
  rw [Head.Valid, hinfo] at hvalid
  obtain rfl : argument = [] := List.length_eq_zero_iff.mp (Option.some.inj hvalid).symm
  have hchildCount : (Head.mk 0xff []).childCount = some 0 := by simp [Head.childCount, hmajor]
  obtain rfl : content = [] := by
    simpa [Head.contentLength, hmajor] using hcontent
  obtain rfl : children = [] := List.length_eq_zero_iff.mp (hcount 0 hchildCount)
  simp [bytes, Head.bytes, hchildCount]

theorem major_cases (h : Head) : h.major = majorUint ∨ h.major = majorNint ∨
    h.major = majorBytes ∨ h.major = majorText ∨ h.major = majorArray ∨ h.major = majorMap ∨
    h.major = majorTag ∨ h.major = majorSimple := by
  have hlt : h.major.toNat < 8 := by
    have := initial_toNat h
    have := h.initial.toNat_lt
    omega
  simp only [← UInt8.toNat_inj, majorUint, majorNint, majorBytes, majorText, majorArray, majorMap,
    majorTag, majorSimple]
  simp only [UInt8.reduceToNat]
  omega

theorem isBreakMarker_simpleValue (h : Head) :
    (simpleValue h).isBreakMarker = true ↔ h.info = indefinite := by
  unfold simpleValue
  split_ifs with h20 h21 h22 hbreak <;>
    simp_all [Value.isBreakMarker, indefinite]
  rcases h22 with h | h <;> simp [h]

theorem isBreakMarker_value {s : Item} : s.value.isBreakMarker = true ↔ s.IsBreak := by
  obtain ⟨h, content, children⟩ := s
  rw [isBreak_iff, value_node]
  simp only [head]
  rcases major_cases h with hm | hm | hm | hm | hm | hm | hm | hm
  · simp [contentValue_uint hm, hm, Value.isBreakMarker, majorUint, majorSimple]
  · simp [contentValue_nint hm, hm, Value.isBreakMarker, majorNint, majorSimple]
  · simp [contentValue_bytes hm, hm, Value.isBreakMarker, majorBytes, majorSimple]
  · simp [contentValue_text hm, hm, Value.isBreakMarker, majorText, majorSimple]
  · simp [contentValue_array hm, hm, Value.isBreakMarker, majorArray, majorSimple]
  · simp [contentValue_map hm, hm, Value.isBreakMarker, majorMap, majorSimple]
  · simp [contentValue_tag hm, hm, Value.isBreakMarker, majorTag, majorSimple]
  · rw [contentValue_simple hm, isBreakMarker_simpleValue, Head.Indefinite, indefinite]
    simp [hm]

/-- The type assertion on a chunk succeeds on the items of the string's own major type. -/
theorem chunkOf_value {s : Item} {major : UInt8} (hmajor : major = majorBytes ∨ major = majorText)
    {chunk : List UInt8} :
    chunkOf major s.value = some chunk ↔ s.head.major = major ∧ chunkData s.value = chunk := by
  obtain ⟨h, content, children⟩ := s
  rw [value_node]
  simp only [head]
  rcases major_cases h with hm | hm | hm | hm | hm | hm | hm | hm
  case inr.inr.inr.inr.inr.inr.inr =>
    have hsimple : chunkOf major (simpleValue h) = none := by
      unfold simpleValue
      split_ifs <;> rfl
    have hother : ¬majorSimple = major := by rcases hmajor with rfl | rfl <;> decide
    rw [contentValue_simple hm, hsimple, hm]
    simp [hother]
  all_goals
    rcases hmajor with rfl | rfl <;>
      simp [contentValue, hm, chunkOf, chunkData, majorUint, majorNint, majorBytes, majorText,
        majorArray, majorMap, majorTag]

end Item

/-! ## Reading whole items -/

namespace Decoder

/-- Between two positions of the cursor stands one accepted item. -/
def Takes (d : Decoder) (s : Item) (d' : Decoder) : Prop :=
  s.Accepted ∧ d.Sees s.bytes ∧ d' = d.advance s.bytes.length

/-- Between two positions of the cursor stand accepted items, one after the other. -/
def TakesAll (d : Decoder) (cs : List Item) (d' : Decoder) : Prop :=
  (∀ c ∈ cs, c.Accepted) ∧ d.Sees (Item.bytesList cs) ∧ d' = d.advance (Item.bytesList cs).length

theorem takesAll_nil {d d' : Decoder} : d.TakesAll [] d' ↔ d' = d := by
  simp [TakesAll]

theorem takesAll_cons {d d' : Decoder} {c : Item} {cs : List Item} :
    d.TakesAll (c :: cs) d' ↔ ∃ d₁, d.Takes c d₁ ∧ d₁.TakesAll cs d' := by
  constructor
  · rintro ⟨haccepted, hsees, rfl⟩
    rw [Item.bytesList_cons, sees_append] at hsees
    refine ⟨d.advance c.bytes.length, ⟨haccepted c (by simp), hsees.1, rfl⟩,
      fun c' hc' ↦ haccepted c' (by simp [hc']), hsees.2, ?_⟩
    simp
  · rintro ⟨_, ⟨haccepted, hsees, rfl⟩, haccepteds, hseess, rfl⟩
    refine ⟨?_, ?_, by simp⟩
    · intro c' hc'
      rcases List.mem_cons.mp hc' with rfl | hc'
      · exact haccepted
      · exact haccepteds c' hc'
    · rw [Item.bytesList_cons, sees_append]
      exact ⟨hsees, hseess⟩

theorem Takes.valid {d d' : Decoder} {s : Item} (h : d.Takes s d') (hd : d.Valid) : d'.Valid := by
  obtain ⟨-, hsees, rfl⟩ := h
  exact hd.advance hsees

theorem TakesAll.valid {d d' : Decoder} {cs : List Item} (h : d.TakesAll cs d') (hd : d.Valid) :
    d'.Valid := by
  obtain ⟨-, hsees, rfl⟩ := h
  exact hd.advance hsees

end Decoder

end Zenith.Cbor
