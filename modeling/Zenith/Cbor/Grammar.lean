import Zenith.Cbor.Unmarshal

/-!
# The grammar of RFC 8949 and the decoder

The package comment lists the Go types that decoding yields; `Value.Canonical` are the values built
from those. The decoder computes the indefinite flag for every major type and returns a break code
like any other value. So it accepts an open length on integers and tags, a break in the place of an
item and indefinite chunks inside an indefinite string: `Item.Stray`. These are its only deviations
from the grammar.
-/

namespace Zenith.Cbor

open Go

/-- The values built from the Go types that the package comment lists. -/
inductive Value.Canonical : Value → Prop
  | null : Canonical .null
  | bool (x : Bool) : Canonical (.bool x)
  | uint64 (x : UInt64) : Canonical (.uint64 x)
  | int64 (x : Int64) : Canonical (.int64 x)
  | float64 (bits : UInt64) : Canonical (.float64 bits)
  | bytes (data : List UInt8) : Canonical (.bytes data)
  | text (data : GoString) : Canonical (.text data)
  | array {items : List Value} (nested : ∀ v ∈ items, Canonical v) : Canonical (.array items)
  | map {entries : List (Value × Value)} (keys : ∀ e ∈ entries, Canonical e.1)
      (values : ∀ e ∈ entries, Canonical e.2) : Canonical (.map entries)
  | tag (number : UInt64) {content : Value} (nested : Canonical content) :
      Canonical (.tag number content)

/-- An item in which additional information 31 stands where the grammar has no place for it. -/
inductive Item.Stray : Item → Prop
  /-- An open length on a head that cannot have one; on major type 7 this is a break code. -/
  | opened {head : Head} {content : List UInt8} {children : List Item} (indefinite : head.Indefinite)
      (closed : ¬(head.major = 2 ∨ head.major = 3 ∨ head.major = 4 ∨ head.major = 5)) :
      Stray (.node head content children)
  /-- An indefinite-length chunk. -/
  | chunk {head : Head} {content : List UInt8} {children : List Item}
      (isString : head.major = 2 ∨ head.major = 3) {c : Item} (mem : c ∈ children)
      (indefinite : c.head.Indefinite) : Stray (.node head content children)
  | nested {head : Head} {content : List UInt8} {children : List Item} {c : Item}
      (mem : c ∈ children) (stray : Stray c) : Stray (.node head content children)

/-- The data start with an item that has a stray additional information 31 somewhere. -/
def StartsStray (data : List UInt8) : Prop :=
  ∃ s : Item, s.Skeleton ∧ s.bytes <+: data ∧ s.Stray

namespace Item

theorem WellFormed.of_mem {head : Head} {content : List UInt8} {children : List Item}
    (h : (node head content children).WellFormed) : ∀ c ∈ children, c.WellFormed :=
  fun c hc ↦ ⟨h.1.of_mem c hc, h.2.of_mem c hc⟩

theorem WellFormed.not_stray {s : Item} (hs : s.WellFormed) : ¬s.Stray := by
  intro hstray
  induction hstray with
  | opened hindef hclosed => exact hclosed (hs.2.rule_holds.indefinite hindef)
  | chunk hstring hc hindef => exact (hs.2.rule_holds.chunks hstring _ hc).2 hindef
  | nested hc _ ih => exact ih (hs.of_mem _ hc)

/-- What the decoder accepts is well-formed as soon as nothing in it is stray. -/
theorem Accepted.wellFormed {s : Item} (hs : s.Accepted) (hstray : ¬s.Stray) : s.WellFormed := by
  induction s with
  | node head content children ih =>
    have hreadable := hs.2.rule_holds
    have hchildren : ∀ c ∈ children, c.WellFormed := fun c hc ↦
      ih c hc (hs.of_mem c hc) fun h ↦ hstray (.nested hc h)
    have hstrict : StrictRule head content children := by
      refine ⟨?_, ?_, ?_⟩
      · intro hindef
        by_contra hclosed
        exact hstray (.opened hindef hclosed)
      · intro hstring c hc
        exact ⟨hreadable.chunks hstring c hc, fun h ↦ hstray (.chunk hstring hc h)⟩
      · intro hm hinfo
        rcases hreadable.simple hm with h | h | h | h | h | h | h | h <;>
          exact absurd (hinfo.symm.trans h) (by decide)
    exact ⟨hs.1, .intro hstrict fun c hc ↦ (hchildren c hc).2⟩

end Item

/-! ## Canonical values -/

/-- A property of values that survives `out[k] = v` survives all assignments of a map. -/
theorem forall_mem_upsert {motive : Value → Prop} {entries : List (Value × Value)} {k v : Value}
    (hentries : ∀ e ∈ entries, motive e.1 ∧ motive e.2) (hk : motive k) (hv : motive v) :
    ∀ e ∈ Value.upsert entries k v, motive e.1 ∧ motive e.2 := by
  induction entries with
  | nil => simpa [Value.upsert] using ⟨hk, hv⟩
  | cons first rest ih =>
    have hfirst := hentries first (by simp)
    have hrest : ∀ e ∈ rest, motive e.1 ∧ motive e.2 := fun e he ↦ hentries e (by simp [he])
    unfold Value.upsert
    split_ifs
    · intro e he
      rcases List.mem_cons.mp he with rfl | he
      · exact ⟨hk, hv⟩
      · exact hrest e he
    · intro e he
      rcases List.mem_cons.mp he with rfl | he
      · exact hfirst
      · exact ih hrest e he

theorem forall_mem_assignAll {motive : Value → Prop} {entries : List (Value × Value)}
    {nested : List Value} (hentries : ∀ e ∈ entries, motive e.1 ∧ motive e.2)
    (hnested : ∀ v ∈ nested, motive v) :
    ∀ e ∈ assignAll entries nested, motive e.1 ∧ motive e.2 := by
  match nested with
  | [] => simpa [assignAll] using hentries
  | [_] => simpa [assignAll] using hentries
  | k :: v :: rest =>
    rw [assignAll]
    exact forall_mem_assignAll
      (forall_mem_upsert hentries (hnested k (by simp)) (hnested v (by simp)))
      fun w hw ↦ hnested w (by simp [hw])

theorem canonical_simpleValue {h : Head} (hdef : ¬h.Indefinite) : (simpleValue h).Canonical := by
  unfold simpleValue
  split_ifs with h20 h21 h22 h31 h25 h26
  · exact .bool _
  · exact .bool _
  · exact .null
  · exact absurd h31 hdef
  · exact .float64 _
  · exact .float64 _
  · exact .float64 _

theorem canonical_contentValue {h : Head} (content : List UInt8) {nested : List Value}
    (hnested : ∀ v ∈ nested, v.Canonical) (hsimple : h.major = majorSimple → ¬h.Indefinite) :
    (contentValue h content nested).Canonical := by
  unfold contentValue
  split_ifs with h0 h1 h2 hi2 h3 hi3 h4 h5 h6
  · exact .uint64 _
  · exact .int64 _
  · exact .bytes _
  · exact .bytes _
  · exact .text _
  · exact .text _
  · exact .array hnested
  · have hentries := @forall_mem_assignAll Value.Canonical [] nested (by simp) hnested
    exact .map (fun e he ↦ (hentries e he).1) fun e he ↦ (hentries e he).2
  · cases nested with
    | nil => exact .tag _ .null
    | cons v rest => exact .tag _ (hnested v (by simp))
  · apply canonical_simpleValue
    apply hsimple
    rcases Item.major_cases h with hm | hm | hm | hm | hm | hm | hm | hm
    · exact absurd hm h0
    · exact absurd hm h1
    · exact absurd hm h2
    · exact absurd hm h3
    · exact absurd hm h4
    · exact absurd hm h5
    · exact absurd hm h6
    · exact hm

/-- A break marker never escapes from a well-formed item. -/
theorem Item.WellFormed.canonical_value {s : Item} (hs : s.WellFormed) : s.value.Canonical := by
  induction s with
  | node head content children ih =>
    rw [Item.value_node]
    apply canonical_contentValue
    · intro v hv
      obtain ⟨c, hc, rfl⟩ := Item.mem_values hv
      exact ih c hc (hs.of_mem c hc)
    · intro hm hindef
      have hmajor := hs.2.rule_holds.indefinite hindef
      rw [hm] at hmajor
      exact absurd hmajor (by decide)

/-! ## What `Unmarshal` accepts -/

/-- An accepted input is a well-formed data item, and its value one of the documented types, unless
additional information 31 is stray in it. -/
theorem unmarshal_isDataItem_iff {data : List UInt8} {v : Value} {n : ℕ}
    (hdata : data.length < 2 ^ 63) (hread : unmarshal data = (.ok v, n)) :
    Item.IsDataItem (data.take n) ∧ v.Canonical ↔ ¬StartsStray data := by
  obtain ⟨s, haccepted, htake, -, rfl⟩ := (unmarshal_eq_ok hdata).mp hread
  have hstart : s.bytes <+: data := htake ▸ List.take_prefix n data
  constructor
  · rintro ⟨⟨t, ht, hbytes⟩, -⟩ ⟨u, hu, hustart, hstray⟩
    have hts : t = s := by
      have heq : t.bytes ++ [] = s.bytes ++ [] := by rw [hbytes, htake]
      exact (Item.bytes_append_inj ht.1 haccepted.1 heq).1
    have hus : u = s := by
      obtain ⟨rest, hrest⟩ := hustart
      obtain ⟨rest', hrest'⟩ := hstart
      exact (Item.bytes_append_inj hu haccepted.1 (hrest.trans hrest'.symm)).1
    subst hts hus
    exact ht.not_stray hstray
  · intro hclean
    have hwell := haccepted.wellFormed fun hstray ↦ hclean ⟨s, haccepted.1, hstart, hstray⟩
    exact ⟨⟨s, hwell, htake.symm⟩, hwell.canonical_value⟩

/-- A list of a map from a text to a list, and a text in two chunks, with a byte after it. -/
def nestedItem : List UInt8 :=
  [0x9f, 0xbf, 0x62, 0x69, 0x64, 0x82, 0x01, 0x20, 0xff, 0x7f, 0x61, 0x61, 0x61, 0x62, 0xff, 0xff, 0x00]

theorem unmarshal_isDataItem_nestedItem : ∃ v, unmarshal nestedItem = (.ok v, 16) ∧
    (Item.IsDataItem (nestedItem.take 16) ∧ v.Canonical ↔ ¬StartsStray nestedItem) := by
  have hvalue : ((unmarshal nestedItem).1 >>= fun v ↦ .ok v.isBreakMarker) = .ok false := by
    decide +kernel
  have hconsumed : (unmarshal nestedItem).2 = 16 := by decide +kernel
  obtain ⟨v, hv, -⟩ := Outcome.bind_eq_ok.mp hvalue
  have hread : unmarshal nestedItem = (.ok v, 16) := Prod.ext hv hconsumed
  exact ⟨v, hread, unmarshal_isDataItem_iff (by decide) hread⟩

/-- A lone break code is accepted, and the break marker escapes. -/
theorem unmarshal_lone_break :
    ¬∀ (data : List UInt8) (v : Value) (n : ℕ), data.length < 2 ^ 63 →
      unmarshal data = (.ok v, n) → Item.IsDataItem (data.take n) ∧ v.Canonical := by
  intro h
  have hcanonical := (h [0xff] .breakMarker 1 (by decide) rfl).2
  cases hcanonical

end Zenith.Cbor
