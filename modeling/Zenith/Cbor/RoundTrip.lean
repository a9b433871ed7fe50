import Zenith.Cbor.Encoding

/-!
# Decoding undoes encoding

The item of an encodable value is accepted and denotes the value again, with every `IndefArray`
turned into a plain array. Since the decoder reads accepted items off the front of any input, the
round trip holds with arbitrary bytes behind it, and for every order in which `Marshal` may visit
the entries of a map.
-/

namespace Zenith.Cbor

open Go

namespace Value

/-- The values that may be keys of an encodable map. -/
inductive IsKey : Value → Prop
  | uint64 (x : UInt64) : IsKey (.uint64 x)
  | int64 {x : Int64} (negative : x < 0) : IsKey (.int64 x)
  | text (data : GoString) : IsKey (.text data)
  | bool (x : Bool) : IsKey (.bool x)
  | null : IsKey .null

/-- The values that survive a round trip. -/
inductive Encodable : Value → Prop
  | null : Encodable .null
  | bool (x : Bool) : Encodable (.bool x)
  | uint64 (x : UInt64) : Encodable (.uint64 x)
  | int64 {x : Int64} (negative : x < 0) : Encodable (.int64 x)
  | float64 (bits : UInt64) : Encodable (.float64 bits)
  | bytes (data : List UInt8) : Encodable (.bytes data)
  | text (data : GoString) : Encodable (.text data)
  | array {items : List Value} (nested : ∀ v ∈ items, Encodable v) : Encodable (.array items)
  | indefArray {items : List Value} (nested : ∀ v ∈ items, Encodable v) :
      Encodable (.indefArray items)
  | map {entries : List (Value × Value)} (keys : ∀ e ∈ entries, IsKey e.1)
      (distinct : (entries.map Prod.fst).Nodup) (values : ∀ e ∈ entries, Encodable e.2) :
      Encodable (.map entries)
  | tag (number : UInt64) {content : Value} (nested : Encodable content) :
      Encodable (.tag number content)

mutual

/-- The value with each `IndefArray` replaced by the plain array of its elements. -/
def definite : Value → Value
  | .array items => .array (definiteItems items)
  | .indefArray items => .array (definiteItems items)
  | .map entries => .map (definiteEntries entries)
  | .tag number content => .tag number (definite content)
  | v => v
termination_by structural v => v

def definiteItems : List Value → List Value
  | [] => []
  | item :: rest => definite item :: definiteItems rest
termination_by structural items => items

def definiteEntries : List (Value × Value) → List (Value × Value)
  | [] => []
  | (key, value) :: rest => (key, definite value) :: definiteEntries rest
termination_by structural entries => entries

end

theorem definiteItems_eq_map (items : List Value) : definiteItems items = items.map definite := by
  induction items with
  | nil => simp [definiteItems]
  | cons item rest ih => simp [definiteItems, ih]

theorem definiteEntries_eq_map (entries : List (Value × Value)) :
    definiteEntries entries = entries.map fun e ↦ (e.1, e.2.definite) := by
  induction entries with
  | nil => simp [definiteEntries]
  | cons e rest ih => simp [definiteEntries, ih]

@[simp] theorem definite_uint64 (x : UInt64) : definite (.uint64 x) = .uint64 x := rfl

@[simp] theorem definite_bytes (data : List UInt8) : definite (.bytes data) = .bytes data := rfl

@[simp] theorem definite_text (data : GoString) : definite (.text data) = .text data := rfl

@[simp] theorem definite_array (items : List Value) :
    definite (.array items) = .array (items.map definite) := by
  rw [definite, definiteItems_eq_map]

@[simp] theorem definite_indefArray (items : List Value) :
    definite (.indefArray items) = .array (items.map definite) := by
  rw [definite, definiteItems_eq_map]

@[simp] theorem definite_map (entries : List (Value × Value)) :
    definite (.map entries) = .map (entries.map fun e ↦ (e.1, e.2.definite)) := by
  rw [definite, definiteEntries_eq_map]

@[simp] theorem definite_tag (number : UInt64) (content : Value) :
    definite (.tag number content) = .tag number content.definite := by
  rw [definite]

/-- A value in which some `IndefArray` occurs. -/
inductive HasIndefArray : Value → Prop
  | here (items : List Value) : HasIndefArray (.indefArray items)
  | item {items : List Value} {v : Value} (mem : v ∈ items) (nested : HasIndefArray v) :
      HasIndefArray (.array items)
  | entry {entries : List (Value × Value)} {e : Value × Value} (mem : e ∈ entries)
      (nested : HasIndefArray e.2) : HasIndefArray (.map entries)
  | content (number : UInt64) {v : Value} (nested : HasIndefArray v) :
      HasIndefArray (.tag number v)

theorem definite_eq_self {v : Value} (h : ¬v.HasIndefArray) : v.definite = v := by
  induction v with
  | array items ih =>
    have hitems : items.map definite = items.map id := by
      apply List.map_congr_left
      intro v hv
      exact ih v hv fun hindef ↦ h (.item hv hindef)
    rw [definite_array, hitems, List.map_id]
  | indefArray items => exact absurd (.here items) h
  | map entries ih =>
    have hentries : entries.map (fun e ↦ (e.1, e.2.definite)) = entries.map id := by
      apply List.map_congr_left
      intro e he
      rw [(ih e he).2 fun hindef ↦ h (.entry he hindef)]
      rfl
    rw [definite_map, hentries, List.map_id]
  | tag number content ih => rw [definite_tag, ih fun hindef ↦ h (.content number hindef)]
  | _ => rfl

/-! ## The order of map entries -/

theorem Reordered.definite {v w : Value} (h : v.Reordered w) : v.definite.Reordered w.definite := by
  induction h with
  | refl v => exact .refl _
  | trans _ _ ihuv ihvw => exact .trans ihuv ihvw
  | entries hperm =>
    rw [definite_map, definite_map]
    exact .entries (hperm.map _)
  | entry before after _ ih =>
    simp only [definite_map, List.map_append, List.map_cons]
    exact .entry _ _ ih
  | item before after _ ih =>
    simp only [definite_array, List.map_append, List.map_cons]
    exact .item _ _ ih
  | indefItem before after _ ih =>
    simp only [definite_indefArray, List.map_append, List.map_cons]
    exact .item _ _ ih
  | content number _ ih =>
    rw [definite_tag, definite_tag]
    exact .content number ih

theorem forall_mem_replace {α : Type} {motive : α → Prop} {before after : List α} {a b : α}
    (h : ∀ x ∈ before ++ a :: after, motive x) (hb : motive b) :
    ∀ x ∈ before ++ b :: after, motive x := by
  intro x hx
  rcases List.mem_append.mp hx with hx | hx
  · exact h x (by simp [hx])
  · rcases List.mem_cons.mp hx with rfl | hx
    · exact hb
    · exact h x (by simp [hx])

theorem Encodable.of_reordered {v w : Value} (hv : v.Encodable) (h : v.Reordered w) :
    w.Encodable := by
  induction h with
  | refl v => exact hv
  | trans _ _ ihuv ihvw => exact ihvw (ihuv hv)
  | entries hperm =>
    cases hv with
    | map hkeys hdistinct hvalues =>
      exact .map (fun e he ↦ hkeys e (hperm.mem_iff.mpr he))
        ((hperm.map Prod.fst).nodup_iff.mp hdistinct) fun e he ↦ hvalues e (hperm.mem_iff.mpr he)
  | @entry k v v' before after _ ih =>
    cases hv with
    | map hkeys hdistinct hvalues =>
      have hkey := hkeys (k, v) (by simp)
      have hvalue := ih (hvalues (k, v) (by simp))
      have hmap : (before ++ (k, v') :: after).map Prod.fst =
          (before ++ (k, v) :: after).map Prod.fst := by simp
      refine .map (forall_mem_replace hkeys ?_) (hmap ▸ hdistinct) (forall_mem_replace hvalues ?_)
      · exact hkey
      · exact hvalue
  | @item v v' before after _ ih =>
    cases hv with
    | array hnested => exact .array (forall_mem_replace hnested (ih (hnested v (by simp))))
  | @indefItem v v' before after _ ih =>
    cases hv with
    | indefArray hnested =>
      exact .indefArray (forall_mem_replace hnested (ih (hnested v (by simp))))
  | content number _ ih =>
    cases hv with
    | tag _ hnested => exact .tag number (ih hnested)

/-! ## Keys -/

theorem IsKey.encodable {v : Value} (h : v.IsKey) : v.Encodable := by
  cases h with
  | uint64 x => exact .uint64 x
  | int64 hneg => exact .int64 hneg
  | text data => exact .text data
  | bool x => exact .bool x
  | null => exact .null

theorem IsKey.hashable {v : Value} (h : v.IsKey) : v.hashable = true := by
  cases h <;> rfl

theorem IsKey.definite_eq {v : Value} (h : v.IsKey) : v.definite = v := by
  cases h <;> rfl

theorem IsKey.keyEq_eq_false {a b : Value} (ha : a.IsKey) (hb : b.IsKey) (hne : a ≠ b) :
    keyEq a b = false := by
  cases ha <;> cases hb <;> simp_all [keyEq]

theorem upsert_of_new {entries : List (Value × Value)} {k v : Value}
    (hnew : ∀ e ∈ entries, keyEq e.1 k = false) : upsert entries k v = entries ++ [(k, v)] := by
  induction entries with
  | nil => rfl
  | cons e rest ih =>
    rw [upsert, if_neg (by simp [hnew e (by simp)]), ih fun e he ↦ hnew e (by simp [he])]
    rfl

end Value

/-- The keys and values of entries, alternating. -/
def alternate (entries : List (Value × Value)) : List Value :=
  entries.flatMap fun e ↦ [e.1, e.2]

/-- Assigning entries with distinct new keys one after the other appends them. -/
theorem assignAll_alternate {out entries : List (Value × Value)}
    (hkeys : ∀ e ∈ out ++ entries, e.1.IsKey)
    (hdistinct : ((out ++ entries).map Prod.fst).Nodup) :
    assignAll out (alternate entries) = out ++ entries := by
  induction entries generalizing out with
  | nil => simp [alternate, assignAll]
  | cons e rest ih =>
    obtain ⟨k, v⟩ := e
    have hnew : ∀ e ∈ out, Value.keyEq e.1 k = false := by
      intro e he
      apply Value.IsKey.keyEq_eq_false (hkeys e (by simp [he])) (hkeys (k, v) (by simp))
      rw [List.map_append, List.nodup_append] at hdistinct
      exact hdistinct.2.2 e.1 (List.mem_map_of_mem he) k (by simp)
    have hshift : out ++ (k, v) :: rest = out ++ [(k, v)] ++ rest := by simp
    rw [hshift] at hkeys hdistinct ⊢
    rw [← ih hkeys hdistinct, ← Value.upsert_of_new hnew]
    rfl

theorem keysHashable_alternate {entries : List (Value × Value)}
    (hkeys : ∀ e ∈ entries, e.1.IsKey) : KeysHashable (alternate entries) := by
  induction entries with
  | nil => simp [alternate, KeysHashable]
  | cons e rest ih =>
    exact ⟨(hkeys e (by simp)).hashable, ih fun e he ↦ hkeys e (by simp [he])⟩

/-! ## The item of an encodable value -/

namespace Item

/-- A node without nested items whose head spells its own length. -/
theorem accepted_leaf {h : Head} {major : UInt8} {n : ℕ} (hs : h.Spells major n)
    (hm : major ≠ majorSimple) {content : List UInt8}
    (hlength : content.length = h.contentLength) (hcount : h.childCount = some 0) :
    (node h content []).Accepted := by
  refine .intro ⟨hs.valid, hlength, by simp [hcount], by simp [Head.ClosesAt], by simp⟩
    ⟨?_, by simp, by simp [KeysHashable]⟩ (by simp)
  intro h7
  exact absurd (hs.major_eq.symm.trans h7) hm

theorem accepted_int {h : Head} {major : UInt8} {n : ℕ} (hs : h.Spells major n)
    (hmajor : major = majorUint ∨ major = majorNint) : (node h [] []).Accepted := by
  have hm := hs.major_eq
  rcases hmajor with rfl | rfl
  · exact accepted_leaf hs (by decide) (by simp [Head.contentLength, hm, majorUint])
      (by simp [Head.childCount, hm, majorUint])
  · exact accepted_leaf hs (by decide) (by simp [Head.contentLength, hm, majorNint])
      (by simp [Head.childCount, hm, majorNint])

theorem accepted_string {h : Head} {major : UInt8} {content : List UInt8}
    (hs : h.Spells major content.length) (hmajor : major = majorBytes ∨ major = majorText) :
    (node h content []).Accepted := by
  have hm := hs.major_eq
  have hdef := hs.definite
  have hcount := hs.count_eq
  rcases hmajor with rfl | rfl
  · exact accepted_leaf hs (by decide) (by simp [Head.contentLength, hm, hdef, hcount, majorBytes])
      (by simp [Head.childCount, hm, hdef, majorBytes])
  · exact accepted_leaf hs (by decide) (by simp [Head.contentLength, hm, hdef, hcount, majorText])
      (by simp [Head.childCount, hm, hdef, majorText])

/-- A definite-length array or map, or a tag. -/
theorem accepted_counted {h : Head} {major : UInt8} {n : ℕ} (hs : h.Spells major n)
    (hmajor : major = majorArray ∨ major = majorMap ∨ major = majorTag) {children : List Item}
    (hcount : h.childCount = some children.length)
    (hmap : major = majorMap → children.length % 2 = 0 ∧ KeysHashable (values children))
    (hchildren : ∀ c ∈ children, c.Accepted) : (node h [] children).Accepted := by
  have hm := hs.major_eq
  have hlength : h.contentLength = 0 := by
    rcases hmajor with rfl | rfl | rfl <;>
      simp [Head.contentLength, hm, majorArray, majorMap, majorTag]
  have hnotSimple : major ≠ majorSimple := by rcases hmajor with rfl | rfl | rfl <;> decide
  have hnotString : ¬(major = majorBytes ∨ major = majorText) := by
    rcases hmajor with rfl | rfl | rfl <;> decide
  refine .intro ⟨hs.valid, by simp [hlength], by simp [hcount], ?_, by simp [hcount]⟩
    ⟨?_, ?_, ?_⟩ hchildren
  · exact fun h5 ↦ (hmap (hm.symm.trans h5)).1
  · exact fun h7 ↦ absurd (hm.symm.trans h7) hnotSimple
  · rw [hm]
    exact fun h23 ↦ absurd h23 hnotString
  · exact fun h5 ↦ (hmap (hm.symm.trans h5)).2

theorem accepted_indefArray {children : List Item} (hchildren : ∀ c ∈ children, c.Accepted)
    (hopen : ∀ c ∈ children, ¬c.IsBreak) :
    (node ⟨majorArray <<< 5 ||| indefinite, []⟩ [] children).Accepted := by
  refine .intro ⟨rfl, rfl, ?_, ?_, ?_⟩ ⟨?_, ?_, ?_⟩ hchildren
  · have hcount : (Head.mk (majorArray <<< 5 ||| indefinite) []).childCount = none := by decide
    simp [hcount]
  · exact fun h5 ↦ absurd h5 (by decide)
  · exact fun _ i c hc _ ↦ hopen c (List.mem_of_getElem? hc)
  · exact fun h7 ↦ absurd h7 (by decide)
  · exact fun h23 ↦ absurd h23 (by decide)
  · exact fun h5 ↦ absurd h5 (by decide)

theorem accepted_simple {h : Head} (hvalid : h.Valid) (hm : h.major = majorSimple)
    (hsupported : SupportedSimple h.info) : (node h [] []).Accepted := by
  have hcount : h.childCount = some 0 := by simp [Head.childCount, hm, majorSimple]
  refine .intro ⟨hvalid, ?_, by simp [hcount], by simp [Head.ClosesAt], by simp⟩
    ⟨fun _ ↦ hsupported, by simp, by simp [KeysHashable]⟩ (by simp)
  simp [Head.contentLength, hm, majorSimple]

theorem value_uint {h : Head} {arg : UInt64} (hs : h.Spells majorUint arg.toNat) :
    (node h [] []).value = .uint64 arg := by
  rw [value_node, contentValue_uint hs.major_eq, hs.arg_eq]

/-- A negative integer comes back through its offset `-1 - x`. -/
theorem value_nint {h : Head} {x : Int64} (hs : h.Spells majorNint (-1 - x).toUInt64.toNat) :
    (node h [] []).value = .int64 x := by
  have hvalue : -1 - (-1 - x) = x := by grind
  rw [value_node, contentValue_nint hs.major_eq, hs.arg_eq]
  simp [hvalue]

theorem value_bytes {h : Head} {content : List UInt8} (hs : h.Spells majorBytes content.length) :
    (node h content []).value = .bytes content := by
  rw [value_node, contentValue_bytes hs.major_eq, if_neg hs.definite]

theorem value_text {h : Head} {content : List UInt8} (hs : h.Spells majorText content.length) :
    (node h content []).value = .text content := by
  rw [value_node, contentValue_text hs.major_eq, if_neg hs.definite]

theorem value_array {h : Head} (hm : h.major = majorArray) (children : List Item) :
    (node h [] children).value = .array (values children) := by
  rw [value_node, contentValue_array hm]

theorem value_map {h : Head} (hm : h.major = majorMap) (children : List Item) :
    (node h [] children).value = .map (assignAll [] (values children)) := by
  rw [value_node, contentValue_map hm]

theorem value_tag {h : Head} {number : UInt64} (hs : h.Spells majorTag number.toNat)
    (content : Item) : (node h [] [content]).value = .tag number content.value := by
  rw [value_node, contentValue_tag hs.major_eq, hs.arg_eq, values_cons, List.headD_cons]

theorem value_simple {h : Head} (hm : h.major = majorSimple) :
    (node h [] []).value = simpleValue h := by
  rw [value_node, contentValue_simple hm]

end Item

theorem lenUint64_toNat {α : Type} {x : List α} (h : x.length < 2 ^ 64) :
    (lenUint64 x).toNat = x.length := by
  rw [lenUint64, UInt64.toNat_ofNat']
  exact Nat.mod_eq_of_lt h

/-- The head of a container or string whose length fits. -/
theorem spells_length {α : Type} {major : UInt8} (hmajor : major.toNat < 8) {x : List α}
    (h : x.length < 2 ^ 64) : (Head.ofArg major (lenUint64 x)).Spells major x.length := by
  have hs := Head.spells_ofArg hmajor (lenUint64 x)
  rwa [lenUint64_toNat h] at hs

namespace Head

variable {h : Head} {n : ℕ}

theorem Spells.childCount_array (hs : h.Spells majorArray n) : h.childCount = some n := by
  have hm := hs.major_eq
  simp [childCount, hm, hs.definite, hs.count_eq, majorArray]

theorem Spells.childCount_map (hs : h.Spells majorMap n) : h.childCount = some (2 * n) := by
  have hm := hs.major_eq
  simp [childCount, hm, hs.definite, hs.count_eq, majorMap]

theorem Spells.childCount_tag (hs : h.Spells majorTag n) : h.childCount = some 1 := by
  have hm := hs.major_eq
  simp [childCount, hm, majorTag]

end Head

namespace Item

/-- The decoder accepts the item and reads the value from it. -/
structure Denotes (s : Item) (v : Value) : Prop where
  accepted : s.Accepted
  value_eq : s.value = v

theorem Denotes.not_isBreak {s : Item} {v : Value} (h : s.Denotes v)
    (hv : v.isBreakMarker = false) : ¬s.IsBreak := by
  intro hbreak
  have hmarker := isBreakMarker_value.mpr hbreak
  rw [h.value_eq, hv] at hmarker
  exact absurd hmarker (by decide)

theorem values_ofValues {items : List Value}
    (h : ∀ v ∈ items, (ofValue v).Denotes v.definite) :
    (∀ c ∈ ofValues items, c.Accepted) ∧ values (ofValues items) = items.map Value.definite := by
  induction items with
  | nil => simp
  | cons item rest ih =>
    have hfirst := h item (by simp)
    obtain ⟨haccepted, hvalues⟩ := ih fun v hv ↦ h v (by simp [hv])
    constructor
    · simpa using ⟨hfirst.accepted, haccepted⟩
    · simp [hfirst.value_eq, hvalues]

theorem values_ofEntries {entries : List (Value × Value)}
    (h : ∀ e ∈ entries, (ofValue e.1).Denotes e.1 ∧ (ofValue e.2).Denotes e.2.definite) :
    (∀ c ∈ ofEntries entries, c.Accepted) ∧
      values (ofEntries entries) = alternate (entries.map fun e ↦ (e.1, e.2.definite)) := by
  induction entries with
  | nil => simp [alternate]
  | cons e rest ih =>
    obtain ⟨k, v⟩ := e
    obtain ⟨hkey, hvalue⟩ := h (k, v) (by simp)
    obtain ⟨haccepted, hvalues⟩ := ih fun e he ↦ h e (by simp [he])
    constructor
    · simpa using ⟨hkey.accepted, hvalue.accepted, haccepted⟩
    · simp only [ofEntries_cons, values_cons, hkey.value_eq, hvalue.value_eq, hvalues]
      simp [alternate]

theorem mem_ofValues {items : List Value} {v : Value} (hv : v ∈ items) :
    ofValue v ∈ ofValues items := by
  induction items with
  | nil => exact absurd hv List.not_mem_nil
  | cons item rest ih =>
    rw [ofValues_cons]
    rcases List.mem_cons.mp hv with rfl | hv
    · exact List.mem_cons_self
    · exact List.mem_cons_of_mem _ (ih hv)

theorem exists_of_mem_ofValues {items : List Value} {c : Item} (hc : c ∈ ofValues items) :
    ∃ v ∈ items, c = ofValue v := by
  induction items with
  | nil => simp at hc
  | cons item rest ih =>
    rw [ofValues_cons] at hc
    rcases List.mem_cons.mp hc with rfl | hc
    · exact ⟨item, by simp, rfl⟩
    · obtain ⟨v, hv, rfl⟩ := ih hc
      exact ⟨v, by simp [hv], rfl⟩

/-! Nothing that is encoded is longer than its encoding. -/

theorem length_le_ofValue_bytes (data : List UInt8) :
    data.length ≤ (ofValue (.bytes data)).bytes.length := by
  rw [ofValue, bytes_ofArg (by decide)]
  simp only [List.length_append]
  omega

theorem length_le_ofValue_array {items : List Value} {v : Value} (hv : v ∈ items) :
    (ofValue v).bytes.length ≤ (ofValue (.array items)).bytes.length := by
  have hle := length_bytes_le_of_mem (mem_ofValues hv)
  rw [ofValue, bytes_ofArg (by decide)]
  simp only [List.length_append]
  omega

theorem length_le_ofValue_indefArray {items : List Value} {v : Value} (hv : v ∈ items) :
    (ofValue v).bytes.length ≤ (ofValue (.indefArray items)).bytes.length := by
  have hle := length_bytes_le_of_mem (mem_ofValues hv)
  rw [ofValue, bytes]
  simp only [List.length_append]
  omega

theorem mem_ofEntries {entries : List (Value × Value)} {e : Value × Value} (he : e ∈ entries) :
    ofValue e.1 ∈ ofEntries entries ∧ ofValue e.2 ∈ ofEntries entries := by
  induction entries with
  | nil => exact absurd he List.not_mem_nil
  | cons first rest ih =>
    obtain ⟨key, value⟩ := first
    rw [ofEntries_cons]
    rcases List.mem_cons.mp he with rfl | he
    · simp
    · obtain ⟨hkey, hvalue⟩ := ih he
      simp [hkey, hvalue]

end Item

theorem Value.Encodable.isBreakMarker_definite {v : Value} (hv : v.Encodable) :
    v.definite.isBreakMarker = false := by
  cases hv with
  | array => simp [Value.isBreakMarker]
  | indefArray => simp [Value.isBreakMarker]
  | map => simp [Value.isBreakMarker]
  | tag => simp [Value.isBreakMarker]
  | _ => rfl

namespace Item

theorem denotes_float64 (bits : UInt64) : (ofValue (.float64 bits)).Denotes (.float64 bits) := by
  rw [ofValue]
  obtain ⟨hm, hinfo⟩ := Head.fields_of_initial (show majorSimple.toNat < 8 by decide)
    (show (27 : UInt8).toNat < 32 by decide) (putUint64 bits)
  refine ⟨accepted_simple ?_ hm (by rw [hinfo]; simp [SupportedSimple]), ?_⟩
  · rw [Head.Valid, hinfo]
    simp [Head.argumentWidth]
  · rw [value_simple hm, simpleValue, hinfo, bigEndianUint64_putUint64]
    simp [indefinite]

theorem denotes_bytes {data : List UInt8} (hlen : (ofValue (.bytes data)).bytes.length < 2 ^ 63) :
    (ofValue (.bytes data)).Denotes (.bytes data) := by
  rw [ofValue, bytes_ofArg (by decide)] at hlen
  simp only [List.length_append] at hlen
  have hs := spells_length (show majorBytes.toNat < 8 by decide) (show data.length < _ by omega)
  rw [ofValue]
  exact ⟨accepted_string hs (.inl rfl), value_bytes hs⟩

theorem denotes_text {data : List UInt8} (hlen : (ofValue (.text data)).bytes.length < 2 ^ 63) :
    (ofValue (.text data)).Denotes (.text data) := by
  rw [ofValue, bytes_ofArg (by decide)] at hlen
  simp only [List.length_append] at hlen
  have hs := spells_length (show majorText.toNat < 8 by decide) (show data.length < _ by omega)
  rw [ofValue]
  exact ⟨accepted_string hs (.inr rfl), value_text hs⟩

theorem denotes_array {items : List Value}
    (hlen : (ofValue (.array items)).bytes.length < 2 ^ 63)
    (hitems : ∀ v ∈ items, (ofValue v).bytes.length < 2 ^ 63 → (ofValue v).Denotes v.definite) :
    (ofValue (.array items)).Denotes (.array (items.map Value.definite)) := by
  rw [ofValue, bytes_ofArg (by decide)] at hlen
  simp only [List.length_append] at hlen
  have hcount := length_le_bytesList (ofValues items)
  rw [length_ofValues] at hcount
  have hs := spells_length (show majorArray.toNat < 8 by decide) (show items.length < _ by omega)
  obtain ⟨haccepted, hvalues⟩ := values_ofValues fun v hv ↦ by
    have hle := length_bytes_le_of_mem (mem_ofValues hv)
    exact hitems v hv (by omega)
  rw [ofValue]
  refine ⟨accepted_counted hs (.inl rfl) ?_ (fun h5 ↦ absurd h5 (by decide)) haccepted, ?_⟩
  · rw [hs.childCount_array, length_ofValues]
  · rw [value_array hs.major_eq, hvalues]

theorem denotes_indefArray {items : List Value}
    (hlen : (ofValue (.indefArray items)).bytes.length < 2 ^ 63)
    (hitems : ∀ v ∈ items, (ofValue v).bytes.length < 2 ^ 63 → (ofValue v).Denotes v.definite)
    (hmarker : ∀ v ∈ items, v.definite.isBreakMarker = false) :
    (ofValue (.indefArray items)).Denotes (.array (items.map Value.definite)) := by
  rw [ofValue, bytes] at hlen
  simp only [List.length_append] at hlen
  have hdenotes : ∀ v ∈ items, (ofValue v).Denotes v.definite := by
    intro v hv
    have hle := length_bytes_le_of_mem (mem_ofValues hv)
    exact hitems v hv (by omega)
  obtain ⟨haccepted, hvalues⟩ := values_ofValues hdenotes
  rw [ofValue]
  refine ⟨accepted_indefArray haccepted ?_, ?_⟩
  · intro c hc
    obtain ⟨v, hv, rfl⟩ := exists_of_mem_ofValues hc
    exact (hdenotes v hv).not_isBreak (hmarker v hv)
  · rw [value_array (by decide), hvalues]

theorem denotes_map {entries : List (Value × Value)}
    (hlen : (ofValue (.map entries)).bytes.length < 2 ^ 63) (hkeys : ∀ e ∈ entries, e.1.IsKey)
    (hdistinct : (entries.map Prod.fst).Nodup)
    (hentries : ∀ e ∈ entries,
      ((ofValue e.1).bytes.length < 2 ^ 63 → (ofValue e.1).Denotes e.1) ∧
      ((ofValue e.2).bytes.length < 2 ^ 63 → (ofValue e.2).Denotes e.2.definite)) :
    (ofValue (.map entries)).Denotes (.map (entries.map fun e ↦ (e.1, e.2.definite))) := by
  rw [ofValue, bytes_ofArg (by decide)] at hlen
  simp only [List.length_append] at hlen
  have hcount := length_le_bytesList (ofEntries entries)
  rw [length_ofEntries] at hcount
  have hs := spells_length (show majorMap.toNat < 8 by decide) (show entries.length < _ by omega)
  obtain ⟨haccepted, hnested⟩ := values_ofEntries fun e he ↦ by
    obtain ⟨hkeyMem, hvalueMem⟩ := mem_ofEntries he
    have hkeyLe := length_bytes_le_of_mem hkeyMem
    have hvalueLe := length_bytes_le_of_mem hvalueMem
    exact ⟨(hentries e he).1 (by omega), (hentries e he).2 (by omega)⟩
  have hkeys' : ∀ e ∈ entries.map fun e ↦ (e.1, e.2.definite), e.1.IsKey := by
    intro e he
    obtain ⟨e', he', rfl⟩ := List.mem_map.mp he
    exact hkeys e' he'
  have hdistinct' : ((entries.map fun e ↦ (e.1, e.2.definite)).map Prod.fst).Nodup := by
    rw [List.map_map]
    exact hdistinct
  rw [ofValue]
  refine ⟨accepted_counted hs (.inr (.inl rfl)) ?_ (fun _ ↦ ⟨?_, ?_⟩) haccepted, ?_⟩
  · rw [hs.childCount_map, length_ofEntries]
  · rw [length_ofEntries]
    omega
  · rw [hnested]
    exact keysHashable_alternate hkeys'
  · rw [value_map hs.major_eq, hnested, assignAll_alternate (by simpa using hkeys')
      (by simpa using hdistinct')]
    rfl

theorem denotes_tag {number : UInt64} {content : Value}
    (hlen : (ofValue (.tag number content)).bytes.length < 2 ^ 63)
    (hcontent : (ofValue content).bytes.length < 2 ^ 63 →
      (ofValue content).Denotes content.definite) :
    (ofValue (.tag number content)).Denotes (.tag number content.definite) := by
  have hs := Head.spells_ofArg (show majorTag.toNat < 8 by decide) number
  rw [ofValue, bytes_ofArg (by decide)] at hlen
  simp only [List.length_append, bytesList_cons] at hlen
  have hdenotes := hcontent (by omega)
  rw [ofValue]
  refine ⟨accepted_counted hs (.inr (.inr rfl)) hs.childCount_tag
    (fun h5 ↦ absurd h5 (by decide)) ?_, ?_⟩
  · simpa using hdenotes.accepted
  · rw [value_tag hs, hdenotes.value_eq]

end Item

/-- The item of an encodable value denotes the value, provided that the lengths fit into an `int`. -/
theorem Value.Encodable.denotes {v : Value} (hv : v.Encodable)
    (hlen : (Item.ofValue v).bytes.length < 2 ^ 63) : (Item.ofValue v).Denotes v.definite := by
  induction v with
  | null => exact ⟨Item.accepted_simple rfl (by decide) (.inr (.inr (.inl rfl))), rfl⟩
  | bool x =>
    cases x
    · exact ⟨Item.accepted_simple rfl (by decide) (.inl rfl), rfl⟩
    · exact ⟨Item.accepted_simple rfl (by decide) (.inr (.inl rfl)), rfl⟩
  | uint64 x =>
    have hs := Head.spells_ofArg (show majorUint.toNat < 8 by decide) x
    rw [Item.ofValue]
    exact ⟨Item.accepted_int hs (.inl rfl), Item.value_uint hs⟩
  | int64 x =>
    cases hv with
    | int64 hneg =>
      have hs := Head.spells_ofArg (show majorNint.toNat < 8 by decide) (-1 - x).toUInt64
      have hnot : ¬x ≥ 0 := by simpa using hneg
      rw [Item.ofValue, Item.ofInt, if_neg hnot]
      exact ⟨Item.accepted_int hs (.inr rfl), Item.value_nint hs⟩
  | float64 bits => exact Item.denotes_float64 bits
  | bytes data => exact Item.denotes_bytes hlen
  | text data => exact Item.denotes_text hlen
  | array items ih =>
    cases hv with
    | array hnested =>
      rw [Value.definite_array]
      exact Item.denotes_array hlen fun v hv ↦ ih v hv (hnested v hv)
  | indefArray items ih =>
    cases hv with
    | indefArray hnested =>
      rw [Value.definite_indefArray]
      exact Item.denotes_indefArray hlen (fun v hv ↦ ih v hv (hnested v hv))
        fun v hv ↦ (hnested v hv).isBreakMarker_definite
  | map entries ih =>
    cases hv with
    | map hkeys hdistinct hvalues =>
      rw [Value.definite_map]
      refine Item.denotes_map hlen hkeys hdistinct fun e he ↦ ⟨?_, (ih e he).2 (hvalues e he)⟩
      have hkey := (ih e he).1 (hkeys e he).encodable
      rwa [(hkeys e he).definite_eq] at hkey
  | tag number content ih =>
    cases hv with
    | tag _ hnested =>
      rw [Value.definite_tag]
      exact Item.denotes_tag hlen (ih hnested)
  | _ => exact absurd hv (by intro h; cases h)

/-! ## The round trip -/

theorem exists_encodeItems {items : List Value} (h : ∀ v ∈ items, ∃ bs, encode v = .ok bs) :
    ∃ body, encodeItems items = .ok body := by
  induction items with
  | nil => exact ⟨[], by rw [encodeItems]⟩
  | cons item rest ih =>
    obtain ⟨first, hfirst⟩ := h item (by simp)
    obtain ⟨body, hbody⟩ := ih fun v hv ↦ h v (by simp [hv])
    exact ⟨first ++ body, by rw [encodeItems, hfirst, hbody]; rfl⟩

theorem exists_encodeEntries {entries : List (Value × Value)}
    (h : ∀ e ∈ entries, (∃ bs, encode e.1 = .ok bs) ∧ ∃ bs, encode e.2 = .ok bs) :
    ∃ body, encodeEntries entries = .ok body := by
  induction entries with
  | nil => exact ⟨[], by rw [encodeEntries]⟩
  | cons e rest ih =>
    obtain ⟨key, value⟩ := e
    obtain ⟨⟨first, hfirst⟩, second, hsecond⟩ := h (key, value) (by simp)
    obtain ⟨body, hbody⟩ := ih fun e he ↦ h e (by simp [he])
    exact ⟨first ++ second ++ body, by rw [encodeEntries, hfirst, hsecond, hbody]; rfl⟩

/-- Nothing in an encodable value stops `encode`. -/
theorem Value.Encodable.exists_encode {v : Value} (hv : v.Encodable) : ∃ bs, encode v = .ok bs := by
  induction v with
  | array items ih =>
    cases hv with
    | array hnested =>
      obtain ⟨body, hbody⟩ := exists_encodeItems fun v hv ↦ ih v hv (hnested v hv)
      exact ⟨writeHead majorArray (lenUint64 items) ++ body, by rw [encode, hbody]; rfl⟩
  | indefArray items ih =>
    cases hv with
    | indefArray hnested =>
      obtain ⟨body, hbody⟩ := exists_encodeItems fun v hv ↦ ih v hv (hnested v hv)
      exact ⟨(majorArray <<< 5 ||| indefinite) :: body ++ [majorSimple <<< 5 ||| indefinite],
        by rw [encode, hbody]; rfl⟩
  | map entries ih =>
    cases hv with
    | map hkeys _ hvalues =>
      obtain ⟨body, hbody⟩ := exists_encodeEntries fun e he ↦
        ⟨(ih e he).1 (hkeys e he).encodable, (ih e he).2 (hvalues e he)⟩
      exact ⟨writeHead majorMap (lenUint64 entries) ++ body, by rw [encode, hbody]; rfl⟩
  | tag number content ih =>
    cases hv with
    | tag _ hnested =>
      obtain ⟨body, hbody⟩ := ih hnested
      exact ⟨writeHead majorTag number ++ body, by rw [encode, hbody]; rfl⟩
  | breakMarker => cases hv
  | _ => exact ⟨_, by rw [encode]⟩

theorem Value.Encodable.marshal_eq {v : Value} (hv : v.Encodable) :
    marshal v = .ok (Item.ofValue v).bytes := by
  obtain ⟨bs, h⟩ := hv.exists_encode
  rw [marshal, h, encode_eq_ok h]

/-- An encodable value is read off the front of whatever follows its bytes. -/
theorem Value.Encodable.unmarshal_bytes {v : Value} (hv : v.Encodable) (tail : List UInt8)
    (hlen : (Item.ofValue v).bytes.length + tail.length < 2 ^ 63) :
    unmarshal ((Item.ofValue v).bytes ++ tail) =
      (.ok v.definite, (Item.ofValue v).bytes.length) := by
  have hdenotes := hv.denotes (by omega)
  have hread := unmarshal_append hdenotes.accepted hlen
  rwa [hdenotes.value_eq] at hread

/-- An encodable value, in whatever order its maps are visited, is encoded and read back from the
front of any input: the same value in that order, with every `IndefArray` a plain array. -/
theorem unmarshal_marshal {v w : Value} (hv : v.Encodable) (horder : v.Reordered w) :
    ∃ bs, marshal w = .ok bs ∧
      (∀ tail : List UInt8, bs.length + tail.length < 2 ^ 63 →
        unmarshal (bs ++ tail) = (.ok w.definite, bs.length)) ∧
      v.definite.Reordered w.definite ∧ (¬v.HasIndefArray → v.definite = v) := by
  have hw := hv.of_reordered horder
  refine ⟨(Item.ofValue w).bytes, hw.marshal_eq, ?_, horder.definite, Value.definite_eq_self⟩
  intro tail hlen
  exact hw.unmarshal_bytes tail hlen

/-- A map visited in the opposite order. -/
theorem unmarshal_marshal_swapped :
    ∃ bs, marshal (.map [(.bool true, .null), (.uint64 1, .indefArray [])]) = .ok bs ∧
      (∀ tail : List UInt8, bs.length + tail.length < 2 ^ 63 →
        unmarshal (bs ++ tail) =
          (.ok (Value.map [(.bool true, .null), (.uint64 1, .indefArray [])]).definite,
            bs.length)) ∧
      (Value.map [(.uint64 1, .indefArray []), (.bool true, .null)]).definite.Reordered
        (Value.map [(.bool true, .null), (.uint64 1, .indefArray [])]).definite ∧
      (¬(Value.map [(.uint64 1, .indefArray []), (.bool true, .null)]).HasIndefArray →
        (Value.map [(.uint64 1, .indefArray []), (.bool true, .null)]).definite =
          .map [(.uint64 1, .indefArray []), (.bool true, .null)]) := by
  apply unmarshal_marshal
  · refine .map ?_ (by simp) ?_
    · simpa using ⟨Value.IsKey.uint64 1, Value.IsKey.bool true⟩
    · simpa using ⟨Value.Encodable.indefArray (by simp), Value.Encodable.null⟩
  · exact .entries (.swap _ _ _)

end Zenith.Cbor
