import Zenith.Cbor.Completeness

/-!
# Where the decoder panics

Two statements of the decoder can panic. `readN` slices past the last `int` when the cursor plus the
length asked for overflows, and the assignment `out[k] = v` hashes a key that may be a slice, a map
or a tag around one. `Decoder.Crashes` follows the accepted items in front of the cursor to the first
such place, and `decode_panics_iff` shows that there are no others.
-/

namespace Zenith.Cbor

open Go

namespace Decoder

/-- Below a head the decoder has read the items `cs` and goes on to read another one. -/
structure ReadsOn (h : Head) (cs : List Item) : Prop where
  container : h.major = majorBytes ∨ h.major = majorText ∨ h.major = majorArray ∨
    h.major = majorMap ∨ h.major = majorTag
  counted : ∀ n, h.childCount = some n → cs.length < n
  opened : h.childCount = none → ∀ i c, cs[i]? = some c → h.ClosesAt i → ¬c.IsBreak
  chunks : h.major = majorBytes ∨ h.major = majorText → ∀ c ∈ cs, c.head.major = h.major
  keys : h.major = majorMap → KeysHashable (Item.values cs)

/-- The decoder panics before it has read one item from the cursor on. -/
inductive Crashes : Decoder → Prop
  /-- The argument bytes of a head would end past the last `int`. -/
  | argument {d : Decoder} {initial : UInt8} {width : ℕ} (sees : d.Sees [initial])
      (announces : Head.argumentWidth (initial &&& 0x1f) = some width) (wide : 2 ≤ width)
      (overflows : 2 ^ 63 ≤ d.pos + 1 + width) : Crashes d
  /-- A definite-length string would end past the last `int`. -/
  | string {d : Decoder} {h : Head} (valid : h.Valid) (sees : d.Sees h.bytes)
      (isString : h.major = majorBytes ∨ h.major = majorText) (definite : ¬h.Indefinite)
      (length_lt : h.count < 2 ^ 63) (overflows : 2 ^ 63 ≤ d.pos + h.bytes.length + h.count) :
      Crashes d
  /-- A map assigns to a key that cannot be hashed. -/
  | key {d d' : Decoder} {h : Head} {cs : List Item} {k v : Item} (valid : h.Valid)
      (sees : d.Sees h.bytes) (isMap : h.major = majorMap)
      (takes : (d.advance h.bytes.length).TakesAll (cs ++ [k, v]) d')
      (even : cs.length % 2 = 0) (readsKey : ReadsOn h cs) (readsValue : ReadsOn h (cs ++ [k]))
      (unhashable : k.value.hashable = false) : Crashes d
  /-- An item nested below a head panics in turn. -/
  | nested {d d' : Decoder} {h : Head} {cs : List Item} (valid : h.Valid) (sees : d.Sees h.bytes)
      (takes : (d.advance h.bytes.length).TakesAll cs d') (readsOn : ReadsOn h cs)
      (crashes : Crashes d') : Crashes d

theorem TakesAll.remaining_le {d d' : Decoder} {cs : List Item} (h : d.TakesAll cs d') :
    d'.remaining ≤ d.remaining := by
  obtain ⟨-, -, rfl⟩ := h
  rw [remaining_advance]
  omega

end Decoder

/-! ## From a panic to its cause -/

section Containers

variable {decode : DecodeM Value}

/-- A recursive call that panics only where `Decoder.Crashes` says so. -/
def PanicCall (decode : DecodeM Value) : Prop :=
  ∀ ⦃d : Decoder⦄ ⦃reason : RuntimePanic⦄ ⦃d' : Decoder⦄, d.Valid →
    decode d = (.panic reason, d') → d.Crashes

theorem decodeArrayItems_panic (hsound : SoundCall decode) (hpanic : PanicCall decode)
    (count : ℕ) (out : List Value) {d d' : Decoder} (hd : d.Valid) {reason : RuntimePanic}
    (h : decodeArrayItems decode count out d = (.panic reason, d')) :
    ∃ cs d₁, cs.length < count ∧ d.TakesAll cs d₁ ∧ d₁.Crashes := by
  induction count generalizing out d with
  | zero => simp [decodeArrayItems] at h
  | succ count ih =>
    rcases Action.bind_eq_panic.mp h with hfirst | ⟨v, d₁, hfirst, hrest⟩
    · exact ⟨[], d, Nat.succ_pos _, Decoder.takesAll_nil.mpr rfl, hpanic hd hfirst⟩
    · obtain ⟨c, htakes, rfl⟩ := hsound hd hfirst
      obtain ⟨cs, d₂, hlen, htakesAll, hcrash⟩ := ih _ (htakes.valid hd) hrest
      exact ⟨c :: cs, d₂, Nat.succ_lt_succ hlen,
        Decoder.takesAll_cons.mpr ⟨d₁, htakes, htakesAll⟩, hcrash⟩

theorem decodeArrayUntilBreak_panic (hsound : SoundCall decode) (hpanic : PanicCall decode)
    (fuel : ℕ) (out : List Value) {d d' : Decoder} (hd : d.Valid) {reason : RuntimePanic}
    (h : decodeArrayUntilBreak decode fuel out d = (.panic reason, d')) :
    ∃ cs d₁, (∀ c ∈ cs, ¬c.IsBreak) ∧ d.TakesAll cs d₁ ∧ d₁.Crashes := by
  induction fuel generalizing out d with
  | zero => simp [decodeArrayUntilBreak] at h
  | succ fuel ih =>
    rcases Action.bind_eq_panic.mp h with hfirst | ⟨v, d₁, hfirst, hrest⟩
    · exact ⟨[], d, by simp, Decoder.takesAll_nil.mpr rfl, hpanic hd hfirst⟩
    · obtain ⟨c, htakes, rfl⟩ := hsound hd hfirst
      split_ifs at hrest with hbreak
      · simp at hrest
      · obtain ⟨cs, d₂, hopen, htakesAll, hcrash⟩ := ih _ (htakes.valid hd) hrest
        refine ⟨c :: cs, d₂, ?_, Decoder.takesAll_cons.mpr ⟨d₁, htakes, htakesAll⟩, hcrash⟩
        simpa [Item.isBreakMarker_value] using ⟨mt Item.isBreakMarker_value.mpr hbreak, hopen⟩

theorem decodeChunks_panic (hsound : SoundCall decode) (hpanic : PanicCall decode)
    {major : UInt8} (hmajor : major = majorBytes ∨ major = majorText) (invalid : DecodeError)
    (fuel : ℕ) (out : List UInt8) {d d' : Decoder} (hd : d.Valid) {reason : RuntimePanic}
    (h : decodeChunks decode major invalid fuel out d = (.panic reason, d')) :
    ∃ cs d₁, (∀ c ∈ cs, c.head.major = major) ∧ d.TakesAll cs d₁ ∧ d₁.Crashes := by
  induction fuel generalizing out d with
  | zero => simp [decodeChunks] at h
  | succ fuel ih =>
    rcases Action.bind_eq_panic.mp h with hfirst | ⟨v, d₁, hfirst, hrest⟩
    · exact ⟨[], d, by simp, Decoder.takesAll_nil.mpr rfl, hpanic hd hfirst⟩
    · obtain ⟨c, htakes, rfl⟩ := hsound hd hfirst
      split_ifs at hrest with hbreak
      · simp at hrest
      · cases hchunk : chunkOf major c.value with
        | none => simp [hchunk] at hrest
        | some chunk =>
          simp only [hchunk] at hrest
          obtain ⟨hmajor', -⟩ := (Item.chunkOf_value hmajor).mp hchunk
          obtain ⟨cs, d₂, hmajors, htakesAll, hcrash⟩ := ih _ (htakes.valid hd) hrest
          refine ⟨c :: cs, d₂, ?_, Decoder.takesAll_cons.mpr ⟨d₁, htakes, htakesAll⟩, hcrash⟩
          simpa using ⟨hmajor', hmajors⟩

/-- A panic in a map after the nested items `cs`: inside the next item, or on the key before it. -/
def MapPanic (cs : List Item) (d : Decoder) : Prop :=
  (∃ d₁, d.TakesAll cs d₁ ∧ KeysHashable (Item.values cs) ∧ d₁.Crashes) ∨
    ∃ before k v d₁, cs = before ++ [k] ∧ before.length % 2 = 0 ∧
      d.TakesAll (before ++ [k, v]) d₁ ∧ KeysHashable (Item.values before) ∧
      k.value.hashable = false

theorem MapPanic.cons_cons {key val : Item} {cs : List Item} {d d₁ d₂ : Decoder}
    (hkey : d.Takes key d₁) (hval : d₁.Takes val d₂) (hhash : key.value.hashable = true)
    (h : MapPanic cs d₂) : MapPanic (key :: val :: cs) d := by
  have extend {cs' : List Item} {d' : Decoder} (htakes : d₂.TakesAll cs' d') :
      d.TakesAll (key :: val :: cs') d' :=
    Decoder.takesAll_cons.mpr ⟨d₁, hkey, Decoder.takesAll_cons.mpr ⟨d₂, hval, htakes⟩⟩
  rcases h with ⟨d₃, htakes, hkeys, hcrash⟩ | ⟨before, k, v, d₃, rfl, heven, htakes, hkeys, hk⟩
  · exact .inl ⟨d₃, extend htakes, by simpa [KeysHashable] using ⟨hhash, hkeys⟩, hcrash⟩
  · refine .inr ⟨key :: val :: before, k, v, d₃, rfl, ?_, extend htakes, ?_, hk⟩
    · simp only [List.length_cons]
      omega
    · simpa [KeysHashable] using ⟨hhash, hkeys⟩

/-- What a key-value pair of either map loop does when the loop panics. -/
theorem assignPair_panic {γ : Type} (hsound : SoundCall decode) (hpanic : PanicCall decode)
    (out : List (Value × Value)) {key : Item}
    (next : List (Value × Value) → DecodeM γ) {d d₁ d' : Decoder} (hd : d.Valid)
    (hkey : d.Takes key d₁) {reason : RuntimePanic}
    (h : (do let v ← decode; let out ← assign out key.value v; next out : DecodeM γ) d₁ =
      (.panic reason, d')) :
    MapPanic [key] d ∨ ∃ val d₂, key.value.hashable = true ∧ d₁.Takes val d₂ ∧
      next (Value.upsert out key.value val.value) d₂ = (.panic reason, d') := by
  have hd₁ := hkey.valid hd
  have hone : d.TakesAll [key] d₁ :=
    Decoder.takesAll_cons.mpr ⟨d₁, hkey, Decoder.takesAll_nil.mpr rfl⟩
  rcases Action.bind_eq_panic.mp h with hsecond | ⟨v, d₂, hsecond, hrest⟩
  · exact .inl (.inl ⟨d₁, hone, by simp [KeysHashable], hpanic hd₁ hsecond⟩)
  · obtain ⟨val, hval, rfl⟩ := hsound hd₁ hsecond
    by_cases hhash : key.value.hashable = true
    · have hassign : assign out key.value val.value d₂ =
          (.ok (Value.upsert out key.value val.value), d₂) := by simp [assign, hhash]
      rw [Action.bind_of_ok hassign] at hrest
      exact .inr ⟨val, d₂, hhash, hval, hrest⟩
    · refine .inl (.inr ⟨[], key, val, d₂, rfl, rfl, ?_, by simp [KeysHashable],
        by simpa using hhash⟩)
      exact Decoder.takesAll_cons.mpr ⟨d₁, hkey, Decoder.takesAll_cons.mpr
        ⟨d₂, hval, Decoder.takesAll_nil.mpr rfl⟩⟩

theorem decodeMapEntries_panic (hsound : SoundCall decode) (hpanic : PanicCall decode)
    (count : ℕ) (out : List (Value × Value)) {d d' : Decoder} (hd : d.Valid)
    {reason : RuntimePanic}
    (h : decodeMapEntries decode count out d = (.panic reason, d')) :
    ∃ cs, cs.length < 2 * count ∧ MapPanic cs d := by
  induction count generalizing out d with
  | zero => simp [decodeMapEntries] at h
  | succ count ih =>
    rcases Action.bind_eq_panic.mp h with hfirst | ⟨k, d₁, hfirst, hrest⟩
    · exact ⟨[], by simp, .inl ⟨d, Decoder.takesAll_nil.mpr rfl, by simp [KeysHashable],
        hpanic hd hfirst⟩⟩
    · obtain ⟨key, hkey, rfl⟩ := hsound hd hfirst
      rcases assignPair_panic hsound hpanic out _ hd hkey hrest with
        hone | ⟨val, d₂, hhash, hval, hnext⟩
      · exact ⟨[key], by simp; omega, hone⟩
      · obtain ⟨cs, hlen, hmap⟩ := ih _ (hval.valid (hkey.valid hd)) hnext
        exact ⟨key :: val :: cs, by simp; omega, hmap.cons_cons hkey hval hhash⟩

theorem decodeMapUntilBreak_panic (hsound : SoundCall decode) (hpanic : PanicCall decode)
    (fuel : ℕ) (out : List (Value × Value)) {d d' : Decoder} (hd : d.Valid)
    {reason : RuntimePanic}
    (h : decodeMapUntilBreak decode fuel out d = (.panic reason, d')) :
    ∃ cs, (∀ i c, cs[i]? = some c → i % 2 = 0 → ¬c.IsBreak) ∧ MapPanic cs d := by
  induction fuel generalizing out d with
  | zero => simp [decodeMapUntilBreak] at h
  | succ fuel ih =>
    rcases Action.bind_eq_panic.mp h with hfirst | ⟨k, d₁, hfirst, hrest⟩
    · exact ⟨[], by simp, .inl ⟨d, Decoder.takesAll_nil.mpr rfl, by simp [KeysHashable],
        hpanic hd hfirst⟩⟩
    · obtain ⟨key, hkey, rfl⟩ := hsound hd hfirst
      split_ifs at hrest with hbreak
      · simp at hrest
      · have hopen := mt Item.isBreakMarker_value.mpr hbreak
        rcases assignPair_panic hsound hpanic out _ hd hkey hrest with
          hone | ⟨val, d₂, hhash, hval, hnext⟩
        · refine ⟨[key], ?_, hone⟩
          intro i c hc _
          obtain rfl := List.mem_singleton.mp (List.mem_of_getElem? hc)
          exact hopen
        · obtain ⟨cs, hopens, hmap⟩ := ih _ (hval.valid (hkey.valid hd)) hnext
          exact ⟨key :: val :: cs, open_cons_cons hopen hopens, hmap.cons_cons hkey hval hhash⟩

theorem keysHashable_append_single {cs : List Item} (heven : cs.length % 2 = 0)
    (hkeys : KeysHashable (Item.values cs)) {k : Item} :
    KeysHashable (Item.values (cs ++ [k])) := by
  match cs with
  | [] => simp [KeysHashable]
  | [_] => simp at heven
  | key :: val :: cs =>
    simp only [Item.values_cons, KeysHashable, List.cons_append] at hkeys ⊢
    refine ⟨hkeys.1, keysHashable_append_single ?_ hkeys.2⟩
    simp only [List.length_cons] at heven
    omega

theorem MapPanic.crashes {d d₀ : Decoder} {h : Head} (hv : h.Valid) (hhead : d₀.Sees h.bytes)
    (hd : d = d₀.advance h.bytes.length) (hmap : h.major = majorMap) {cs : List Item}
    (hcount : ∀ n, h.childCount = some n → cs.length < n)
    (hopen : h.childCount = none → ∀ i c, cs[i]? = some c → i % 2 = 0 → ¬c.IsBreak)
    (hpanic : MapPanic cs d) : d₀.Crashes := by
  subst hd
  have hnotString : ¬(h.major = majorBytes ∨ h.major = majorText) := by rw [hmap]; decide
  have hcontainer : h.major = majorBytes ∨ h.major = majorText ∨ h.major = majorArray ∨
      h.major = majorMap ∨ h.major = majorTag := .inr (.inr (.inr (.inl hmap)))
  rcases hpanic with ⟨d₁, htakes, hkeys, hcrash⟩ | ⟨before, k, v, d₁, rfl, heven, htakes, hkeys, hk⟩
  · exact .nested hv hhead htakes ⟨hcontainer, hcount,
      fun hnone i c hc hclose ↦ hopen hnone i c hc (hclose hmap),
      fun h23 ↦ absurd h23 hnotString, fun _ ↦ hkeys⟩ hcrash
  · have hbefore : ∀ (i : ℕ) c, before[i]? = some c → (before ++ [k])[i]? = some c := by
      intro i c hc
      rw [List.getElem?_append_left (List.getElem?_eq_some_iff.mp hc).1, hc]
    refine .key hv hhead hmap htakes heven
      ⟨hcontainer, ?_, ?_, fun h23 ↦ absurd h23 hnotString, fun _ ↦ hkeys⟩
      ⟨hcontainer, hcount, fun hnone i c hc hclose ↦ hopen hnone i c hc (hclose hmap),
        fun h23 ↦ absurd h23 hnotString, fun _ ↦ ?_⟩ hk
    · intro n hn
      have hlt := hcount n hn
      simp only [List.length_append, List.length_singleton] at hlt
      omega
    · exact fun hnone i c hc hclose ↦ hopen hnone i c (hbefore i c hc) (hclose hmap)
    · exact keysHashable_append_single heven hkeys

/-- A string in chunks, after which comes an item that panics. -/
theorem crashes_of_chunks {h : Head} (hv : h.Valid) (hm : h.major = majorBytes ∨ h.major = majorText)
    (hindef : h.Indefinite) {d d' : Decoder} (hhead : d.Sees h.bytes) {cs : List Item}
    (hmajors : ∀ c ∈ cs, c.head.major = h.major)
    (htakes : (d.advance h.bytes.length).TakesAll cs d') (hcrash : d'.Crashes) : d.Crashes := by
  have hchildCount : h.childCount = none := by
    rcases hm with hm | hm <;> simp [Head.childCount, hm, hindef, majorBytes, majorText]
  have hnotSimple : h.major ≠ 7 := by rcases hm with hm | hm <;> rw [hm] <;> decide
  have hnotMap : ¬h.major = majorMap := by rcases hm with hm | hm <;> rw [hm] <;> decide
  refine .nested hv hhead htakes ⟨?_, by simp [hchildCount], ?_, fun _ ↦ hmajors,
    fun h5 ↦ absurd h5 hnotMap⟩ hcrash
  · rcases hm with hm | hm
    · exact .inl hm
    · exact .inr (.inl hm)
  · intro _ i c hc _ hbreak
    have hmajor := hmajors c (List.mem_of_getElem? hc)
    rw [hbreak.major] at hmajor
    exact hnotSimple hmajor.symm

section Heads

variable {h : Head} {d d' : Decoder} {reason : RuntimePanic}

theorem readString_crashes (hv : h.Valid) (hm : h.major = majorBytes ∨ h.major = majorText)
    (hdef : ¬h.Indefinite) (hd : (d.advance h.bytes.length).Valid) (hhead : d.Sees h.bytes)
    (hread : readN (wrapInt64 h.arg.toNat) (d.advance h.bytes.length) = (.panic reason, d')) :
    d.Crashes := by
  obtain ⟨hnonneg, hover, -, -⟩ := (readN_eq_panic hd (wrapInt64_lt _)).mp hread
  rw [Head.toNat_arg hv] at hnonneg hover
  have hlt := h.count_lt hv
  have hsmall : h.count < 2 ^ 63 := by
    by_contra hbig
    rw [wrapInt64_of_overflow (by omega) (by omega)] at hnonneg
    omega
  rw [wrapInt64_of_fits (by omega) (by omega)] at hover
  refine .string hv hhead hm hdef hsmall ?_
  rw [Decoder.advance_pos] at hover
  exact_mod_cast hover

theorem decodeArray_crashes (hsound : SoundCall decode) (hpanic : PanicCall decode) (fuel : ℕ)
    (hv : h.Valid) (hm : h.major = majorArray) (hd : (d.advance h.bytes.length).Valid)
    (hhead : d.Sees h.bytes)
    (hdecode : decodeArray decode fuel h.arg (decide h.Indefinite) (d.advance h.bytes.length) =
      (.panic reason, d')) : d.Crashes := by
  have hnotMap : ¬h.major = majorMap := by rw [hm]; decide
  have hnotString : ¬(h.major = majorBytes ∨ h.major = majorText) := by rw [hm]; decide
  have below {cs : List Item} {d₁ : Decoder} (htakes : (d.advance h.bytes.length).TakesAll cs d₁)
      (hcount : ∀ n, h.childCount = some n → cs.length < n)
      (hopen : h.childCount = none → ∀ c ∈ cs, ¬c.IsBreak) (hcrash : d₁.Crashes) : d.Crashes :=
    .nested hv hhead htakes ⟨.inr (.inr (.inl hm)), hcount,
      fun hnone i c hc _ ↦ hopen hnone c (List.mem_of_getElem? hc),
      fun h23 ↦ absurd h23 hnotString, fun h5 ↦ absurd h5 hnotMap⟩ hcrash
  unfold decodeArray at hdecode
  split_ifs at hdecode with hi
  · have hloop := Action.bind_pure_eq_panic.mp hdecode
    obtain ⟨cs, d₁, hopen, htakes, hcrash⟩ := decodeArrayUntilBreak_panic hsound hpanic _ _ hd hloop
    have hchildCount : h.childCount = none := by
      simp [Head.childCount, hm, of_decide_eq_true hi, majorArray]
    exact below htakes (by simp [hchildCount]) (fun _ ↦ hopen) hcrash
  · have hloop := Action.bind_pure_eq_panic.mp hdecode
    obtain ⟨cs, d₁, hlen, htakes, hcrash⟩ := decodeArrayItems_panic hsound hpanic _ _ hd hloop
    have hindef : ¬h.Indefinite := fun hi' ↦ hi (decide_eq_true hi')
    have hchildCount : h.childCount = some h.count := by
      simp [Head.childCount, hm, hindef, majorArray]
    rw [Head.toNat_arg hv] at hlen
    exact below htakes (by simpa [hchildCount] using hlen) (by simp [hchildCount]) hcrash

theorem decodeMap_crashes (hsound : SoundCall decode) (hpanic : PanicCall decode) (fuel : ℕ)
    (hv : h.Valid) (hm : h.major = majorMap) (hd : (d.advance h.bytes.length).Valid)
    (hhead : d.Sees h.bytes)
    (hdecode : decodeMap decode fuel h.arg (decide h.Indefinite) (d.advance h.bytes.length) =
      (.panic reason, d')) : d.Crashes := by
  unfold decodeMap at hdecode
  split_ifs at hdecode with hi
  · have hloop := Action.bind_pure_eq_panic.mp hdecode
    obtain ⟨cs, hopen, hmap⟩ := decodeMapUntilBreak_panic hsound hpanic _ _ hd hloop
    have hchildCount : h.childCount = none := by
      simp [Head.childCount, hm, of_decide_eq_true hi, majorMap]
    exact hmap.crashes hv hhead rfl hm (by simp [hchildCount]) (fun _ ↦ hopen)
  · have hloop := Action.bind_pure_eq_panic.mp hdecode
    obtain ⟨cs, hlen, hmap⟩ := decodeMapEntries_panic hsound hpanic _ _ hd hloop
    have hindef : ¬h.Indefinite := fun hi' ↦ hi (decide_eq_true hi')
    have hchildCount : h.childCount = some (2 * h.count) := by
      simp [Head.childCount, hm, hindef, majorMap]
    rw [Head.toNat_arg hv] at hlen
    exact hmap.crashes hv hhead rfl hm (by simpa [hchildCount] using hlen) (by simp [hchildCount])

theorem decodeContent_panic (hsound : SoundCall decode) (hpanic : PanicCall decode) (fuel : ℕ)
    (hv : h.Valid) (hd : (d.advance h.bytes.length).Valid) (hhead : d.Sees h.bytes)
    (hdecode : decodeContent decode fuel h.major h.arg (decide h.Indefinite)
      (d.advance h.bytes.length) = (.panic reason, d')) : d.Crashes := by
  rcases Item.major_cases h with h0 | h1 | h2 | h3 | h4 | h5 | h6 | h7
  · rw [h0, decodeContent_uint] at hdecode
    cases hdecode
  · rw [h1, decodeContent_nint] at hdecode
    cases hdecode
  · rw [h2, decodeContent_bytes] at hdecode
    split_ifs at hdecode with hi
    · obtain ⟨cs, d₁, hmajors, htakes, hcrash⟩ := decodeChunks_panic hsound hpanic (.inl rfl) _ _ _ hd
        (Action.bind_pure_eq_panic.mp hdecode)
      rw [← h2] at hmajors
      exact crashes_of_chunks hv (.inl h2) (of_decide_eq_true hi) hhead hmajors htakes hcrash
    · exact readString_crashes hv (.inl h2) (fun hi' ↦ hi (decide_eq_true hi')) hd hhead
        (Action.bind_pure_eq_panic.mp hdecode)
  · rw [h3, decodeContent_text] at hdecode
    split_ifs at hdecode with hi
    · obtain ⟨cs, d₁, hmajors, htakes, hcrash⟩ := decodeChunks_panic hsound hpanic (.inr rfl) _ _ _ hd
        (Action.bind_pure_eq_panic.mp hdecode)
      rw [← h3] at hmajors
      exact crashes_of_chunks hv (.inr h3) (of_decide_eq_true hi) hhead hmajors htakes hcrash
    · exact readString_crashes hv (.inr h3) (fun hi' ↦ hi (decide_eq_true hi')) hd hhead
        (Action.bind_pure_eq_panic.mp hdecode)
  · rw [h4, decodeContent_array] at hdecode
    exact decodeArray_crashes hsound hpanic fuel hv h4 hd hhead hdecode
  · rw [h5, decodeContent_map] at hdecode
    exact decodeMap_crashes hsound hpanic fuel hv h5 hd hhead hdecode
  · rw [h6, decodeContent_tag] at hdecode
    have hnested := Action.bind_pure_eq_panic.mp hdecode
    refine .nested hv hhead (Decoder.takesAll_nil.mpr rfl)
      ⟨.inr (.inr (.inr (.inr h6))), ?_, by simp, by simp, by simp [KeysHashable]⟩
      (hpanic hd hnested)
    simp [Head.childCount, h6, majorTag]
  · rw [h7] at hdecode
    cases hdecode

end Heads

end Containers

theorem argumentWidth_lt (info : UInt8) {width : ℕ} (h : Head.argumentWidth info = some width) :
    width < 2 ^ 63 := by
  unfold Head.argumentWidth at h
  split_ifs at h <;> simp at h <;> omega

theorem decodeSimple_panic {d d' : Decoder} (hd : d.Valid) {ai : UInt8} {reason : RuntimePanic}
    (h : decodeSimple ai d = (.panic reason, d')) :
    ∃ width, Head.argumentWidth ai = some width ∧ 2 ≤ width ∧ 2 ^ 63 ≤ d.pos + width := by
  have hfloat {n : ℕ} (hwidth : Head.argumentWidth ai = some n) (hn : 2 ≤ n)
      {convert : List UInt8 → Value}
      (hread : (do let b ← readN n; pure (convert b) : DecodeM Value) d = (.panic reason, d')) :
      ∃ width, Head.argumentWidth ai = some width ∧ 2 ≤ width ∧ 2 ^ 63 ≤ d.pos + width := by
    have hsmall : (n : ℤ) < 2 ^ 63 := by exact_mod_cast argumentWidth_lt ai hwidth
    obtain ⟨-, hover, -, -⟩ :=
      (readN_eq_panic hd hsmall).mp (Action.bind_pure_eq_panic.mp hread)
    exact ⟨n, hwidth, hn, by exact_mod_cast hover⟩
  unfold decodeSimple at h
  split_ifs at h with h20 h21 h22 h31 h25 h26 h27
  · simp at h
  · simp at h
  · simp at h
  · simp at h
  · exact hfloat (n := 2) (by rw [h25]; rfl) le_rfl h
  · exact hfloat (n := 4) (by rw [h26]; rfl) (by norm_num) h
  · exact hfloat (n := 8) (by rw [h27]; rfl) (by norm_num) h
  · simp at h

/-- Every panic of `decode` is one that `Decoder.Crashes` describes. -/
theorem decode_panic (fuel : ℕ) : PanicCall (decode fuel) := by
  induction fuel with
  | zero =>
    intro d reason d' _ h
    simp [decode] at h
  | succ fuel ih =>
    intro d reason d' hd h
    rcases Action.bind_eq_panic.mp h with hbyte | ⟨initial, d₁, hbyte, hrest⟩
    · exact absurd hbyte readByte_ne_panic
    · obtain ⟨hfirst, rfl⟩ := readByte_eq_ok.mp hbyte
      have hd₁ : (d.advance 1).Valid := hd.advance hfirst
      split_ifs at hrest with hsimple
      · obtain ⟨width, hwidth, hwide, hover⟩ := decodeSimple_panic hd₁ hrest
        exact .argument hfirst hwidth hwide hover
      · rcases Action.bind_eq_panic.mp hrest with harg | ⟨⟨arg, indef⟩, d₂, harg, hcontent⟩
        · obtain ⟨width, hwidth, hwide, hover, -, -⟩ := (readArg_eq_panic hd₁).mp harg
          exact .argument hfirst hwidth hwide hover
        · obtain ⟨argument, hv, hargument, rfl, rfl, rfl⟩ := (readArg_eq_ok hd₁).mp harg
          have hhead : d.Sees (Head.mk initial argument).bytes := by
            rw [Head.bytes, Decoder.sees_cons]
            exact ⟨hfirst, hargument⟩
          have hbehind : (d.advance 1).advance argument.length =
              d.advance (Head.mk initial argument).bytes.length := by
            simp [Nat.add_comm]
          rw [hbehind] at hcontent
          exact decodeContent_panic (decode_sound fuel) ih fuel hv (hd.advance hhead) hhead hcontent

/-! ## From the cause to the panic -/

/-- The action panics on this receiver. -/
def Panics {α : Type} (x : DecodeM α) (d : Decoder) : Prop :=
  ∃ reason d', x d = (.panic reason, d')

theorem Panics.bind {α β : Type} {x : DecodeM α} {d : Decoder} (h : Panics x d)
    (f : α → DecodeM β) : Panics (x >>= f) d := by
  obtain ⟨reason, d', hx⟩ := h
  exact ⟨reason, d', Action.bind_of_panic hx f⟩

theorem Panics.bind_of_ok {α β : Type} {x : DecodeM α} {d d' : Decoder} {a : α}
    (hx : x d = (.ok a, d')) {f : α → DecodeM β} (h : Panics (f a) d') : Panics (x >>= f) d := by
  obtain ⟨reason, d'', hf⟩ := h
  exact ⟨reason, d'', (Action.bind_of_ok hx f).trans hf⟩

theorem readN_panics {d : Decoder} (hd : d.Valid) {n : ℤ} (hn : n < 2 ^ 63) (hpos : 0 ≤ n)
    (h : 2 ^ 63 ≤ d.pos + n) : Panics (readN n) d :=
  ⟨_, _, readN_of_overflow hd hn hpos h⟩

section Containers

variable {decode : DecodeM Value}

theorem decodeArrayItems_panics {cs : List Item} (hcall : CompleteCall decode cs) {count : ℕ}
    (hlen : cs.length < count) (out : List Value) {d : Decoder} (hd : d.Valid)
    (hsees : d.Sees (Item.bytesList cs))
    (hpanics : Panics decode (d.advance (Item.bytesList cs).length)) :
    Panics (decodeArrayItems decode count out) d := by
  obtain ⟨left, rfl⟩ : ∃ n, count = n + 1 + cs.length := ⟨count - 1 - cs.length, by omega⟩
  rw [Panics, decodeArrayItems_run hcall _ _ hd hsees, decodeArrayItems]
  exact hpanics.bind _

theorem decodeArrayUntilBreak_panics {cs : List Item} (hcall : CompleteCall decode cs)
    (hopen : ∀ c ∈ cs, ¬c.IsBreak) {fuel : ℕ} (hfuel : cs.length < fuel) (out : List Value)
    {d : Decoder} (hd : d.Valid) (hsees : d.Sees (Item.bytesList cs))
    (hpanics : Panics decode (d.advance (Item.bytesList cs).length)) :
    Panics (decodeArrayUntilBreak decode fuel out) d := by
  obtain ⟨left, rfl⟩ : ∃ n, fuel = n + 1 + cs.length := ⟨fuel - 1 - cs.length, by omega⟩
  rw [Panics, decodeArrayUntilBreak_run hcall hopen _ _ hd hsees, decodeArrayUntilBreak]
  exact hpanics.bind _

theorem decodeChunks_panics {major : UInt8} (hmajor : major = majorBytes ∨ major = majorText)
    (invalid : DecodeError) {cs : List Item} (hcall : CompleteCall decode cs)
    (hmajors : ∀ c ∈ cs, c.head.major = major) {fuel : ℕ} (hfuel : cs.length < fuel)
    (out : List UInt8) {d : Decoder} (hd : d.Valid) (hsees : d.Sees (Item.bytesList cs))
    (hpanics : Panics decode (d.advance (Item.bytesList cs).length)) :
    Panics (decodeChunks decode major invalid fuel out) d := by
  obtain ⟨left, rfl⟩ : ∃ n, fuel = n + 1 + cs.length := ⟨fuel - 1 - cs.length, by omega⟩
  rw [Panics, decodeChunks_run hmajor invalid hcall hmajors _ _ hd hsees, decodeChunks]
  exact hpanics.bind _

/-- Alternating keys and values split into whole pairs and at most one key. -/
theorem exists_pairs_append {α : Type} (cs : List α) :
    ∃ pairs before rest, cs = before ++ rest ∧ before.length = 2 * pairs ∧ rest.length < 2 := by
  refine ⟨cs.length / 2, cs.take (2 * (cs.length / 2)), cs.drop (2 * (cs.length / 2)),
    (List.take_append_drop _ _).symm, ?_, ?_⟩
  · rw [List.length_take]
    omega
  · rw [List.length_drop]
    omega

theorem keysHashable_of_append {before rest : List Value}
    (heven : before.length % 2 = 0) (h : KeysHashable (before ++ rest)) : KeysHashable before := by
  match before, heven with
  | [], _ => simp [KeysHashable]
  | key :: val :: before, heven =>
    simp only [List.cons_append, KeysHashable] at h ⊢
    simp only [List.length_cons] at heven
    exact ⟨h.1, keysHashable_of_append (by omega) h.2⟩

theorem CompleteCall.of_append_left {cs cs' : List Item}
    (h : CompleteCall decode (cs ++ cs')) : CompleteCall decode cs :=
  fun c hc ↦ h c (by simp [hc])

theorem CompleteCall.of_append_right {cs cs' : List Item}
    (h : CompleteCall decode (cs ++ cs')) : CompleteCall decode cs' :=
  fun c hc ↦ h c (by simp [hc])

theorem decodeMapEntries_panics {cs : List Item} (hcall : CompleteCall decode cs)
    (hkeys : KeysHashable (Item.values cs)) {count : ℕ} (hlen : cs.length < 2 * count)
    (out : List (Value × Value)) {d : Decoder} (hd : d.Valid)
    (hsees : d.Sees (Item.bytesList cs))
    (hpanics : Panics decode (d.advance (Item.bytesList cs).length)) :
    Panics (decodeMapEntries decode count out) d := by
  obtain ⟨pairs, before, rest, rfl, heven, hrest⟩ := exists_pairs_append cs
  rw [List.length_append] at hlen
  obtain ⟨left, rfl⟩ : ∃ n, count = n + 1 + pairs := ⟨count - 1 - pairs, by omega⟩
  rw [Item.bytesList_append, Decoder.sees_append] at hsees
  rw [Item.bytesList_append, List.length_append, ← Decoder.advance_advance] at hpanics
  have hbefore : KeysHashable (Item.values before) :=
    keysHashable_of_append (by rw [Item.length_values]; omega) (by rwa [← Item.values_append])
  rw [Panics, decodeMapEntries_run heven hcall.of_append_left hbefore _ _ hd hsees.1,
    decodeMapEntries]
  rcases rest with _ | ⟨key, _ | ⟨val, rest⟩⟩
  · exact Panics.bind (by simpa using hpanics) _
  · have hkey := hcall.of_append_right.head (hd.advance hsees.1) (by simpa using hsees.2)
    exact Panics.bind_of_ok hkey (Panics.bind (by simpa using hpanics) _)
  · simp at hrest

theorem decodeMapUntilBreak_panics {cs : List Item} (hcall : CompleteCall decode cs)
    (hopen : ∀ i c, cs[i]? = some c → i % 2 = 0 → ¬c.IsBreak)
    (hkeys : KeysHashable (Item.values cs)) {fuel : ℕ} (hfuel : cs.length < fuel)
    (out : List (Value × Value)) {d : Decoder} (hd : d.Valid)
    (hsees : d.Sees (Item.bytesList cs))
    (hpanics : Panics decode (d.advance (Item.bytesList cs).length)) :
    Panics (decodeMapUntilBreak decode fuel out) d := by
  obtain ⟨pairs, before, rest, rfl, heven, hrest⟩ := exists_pairs_append cs
  rw [List.length_append] at hfuel
  obtain ⟨left, rfl⟩ : ∃ n, fuel = n + 1 + pairs := ⟨fuel - 1 - pairs, by omega⟩
  rw [Item.bytesList_append, Decoder.sees_append] at hsees
  rw [Item.bytesList_append, List.length_append, ← Decoder.advance_advance] at hpanics
  have hbefore : KeysHashable (Item.values before) :=
    keysHashable_of_append (by rw [Item.length_values]; omega) (by rwa [← Item.values_append])
  have hopenBefore : ∀ i c, before[i]? = some c → i % 2 = 0 → ¬c.IsBreak := by
    intro i c hc hi
    have hlt := (List.getElem?_eq_some_iff.mp hc).1
    exact hopen i c (by rwa [List.getElem?_append_left hlt]) hi
  rw [Panics, decodeMapUntilBreak_run heven hopenBefore hcall.of_append_left hbefore _ _ hd
    hsees.1, decodeMapUntilBreak]
  rcases rest with _ | ⟨key, _ | ⟨val, rest⟩⟩
  · exact Panics.bind (by simpa using hpanics) _
  · have hkey := hcall.of_append_right.head (hd.advance hsees.1) (by simpa using hsees.2)
    have hnot : ¬key.value.isBreakMarker = true := by
      intro h
      exact hopen before.length key (by simp) (by omega) (Item.isBreakMarker_value.mp h)
    apply Panics.bind_of_ok hkey
    rw [if_neg hnot]
    exact Panics.bind (by simpa using hpanics) _
  · simp at hrest

/-- The pair that ends in an assignment to a key that cannot be hashed. -/
theorem assignPair_panics {γ : Type} {k v : Item} (hcall : CompleteCall decode [v])
    (out : List (Value × Value)) (hk : k.value.hashable = false)
    (next : List (Value × Value) → DecodeM γ) {d : Decoder} (hd : d.Valid)
    (hsees : d.Sees v.bytes) :
    Panics (do let v ← decode; let out ← assign out k.value v; next out : DecodeM γ) d := by
  have hassign (d' : Decoder) : Panics (assign out k.value v.value) d' :=
    ⟨.unhashableKey, d', by simp [assign, hk]⟩
  exact Panics.bind_of_ok (hcall.head hd hsees) ((hassign _).bind _)

theorem decodeContent_panics {h : Head} (hv : h.Valid) {cs : List Item}
    (hreadsOn : Decoder.ReadsOn h cs) (hcall : CompleteCall decode cs) {fuel : ℕ}
    (hfuel : cs.length < fuel) {d : Decoder} (hd : d.Valid)
    (hsees : d.Sees (Item.bytesList cs))
    (hpanics : Panics decode (d.advance (Item.bytesList cs).length))
    (hdefinite : h.major = majorBytes ∨ h.major = majorText → h.Indefinite) :
    Panics (decodeContent decode fuel h.major h.arg (decide h.Indefinite)) d := by
  obtain ⟨hcontainer, hcounted, hopened, hchunks, hkeys⟩ := hreadsOn
  rcases hcontainer with h2 | h3 | h4 | h5 | h6
  · have hmajors : ∀ c ∈ cs, c.head.major = majorBytes :=
      fun c hc ↦ (hchunks (.inl h2) c hc).trans h2
    rw [h2, decodeContent_bytes, if_pos (decide_eq_true (hdefinite (.inl h2)))]
    exact (decodeChunks_panics (.inl rfl) .invalidBytesChunk hcall hmajors hfuel [] hd hsees
      hpanics).bind _
  · have hmajors : ∀ c ∈ cs, c.head.major = majorText :=
      fun c hc ↦ (hchunks (.inr h3) c hc).trans h3
    rw [h3, decodeContent_text, if_pos (decide_eq_true (hdefinite (.inr h3)))]
    exact (decodeChunks_panics (.inr rfl) .invalidTextChunk hcall hmajors hfuel [] hd hsees
      hpanics).bind _
  · rw [h4, decodeContent_array, decodeArray]
    by_cases hi : h.Indefinite
    · have hchildCount : h.childCount = none := by simp [Head.childCount, h4, hi, majorArray]
      have hopen : ∀ c ∈ cs, ¬c.IsBreak := by
        intro c hc
        obtain ⟨i, hi⟩ := List.mem_iff_getElem?.mp hc
        exact hopened hchildCount i c hi (fun h5 ↦ absurd (h4.symm.trans h5) (by decide))
      rw [if_pos (decide_eq_true hi)]
      exact (decodeArrayUntilBreak_panics hcall hopen hfuel [] hd hsees hpanics).bind _
    · have hlen := hcounted h.count (by simp only [Head.childCount, h4, hi]; rfl)
      rw [if_neg (by simpa using hi), Head.toNat_arg hv]
      exact (decodeArrayItems_panics hcall hlen [] hd hsees hpanics).bind _
  · rw [h5, decodeContent_map, decodeMap]
    by_cases hi : h.Indefinite
    · have hchildCount : h.childCount = none := by simp [Head.childCount, h5, hi, majorMap]
      rw [if_pos (decide_eq_true hi)]
      exact (decodeMapUntilBreak_panics hcall
        (fun i c hc heven ↦ hopened hchildCount i c hc fun _ ↦ heven) (hkeys h5) hfuel [] hd hsees
        hpanics).bind _
    · have hlen := hcounted (2 * h.count) (by simp only [Head.childCount, h5, hi]; rfl)
      rw [if_neg (by simpa using hi), Head.toNat_arg hv]
      exact (decodeMapEntries_panics hcall (hkeys h5) hlen [] hd hsees hpanics).bind _
  · have hlen := hcounted 1 (by simp only [Head.childCount, h6]; rfl)
    obtain rfl : cs = [] := List.length_eq_zero_iff.mp (by omega)
    rw [h6, decodeContent_tag]
    exact Panics.bind (by simpa using hpanics) _

theorem decodeMap_panics_of_key {h : Head} (hv : h.Valid) (hmap : h.major = majorMap)
    {cs : List Item} {k v : Item} (heven : cs.length % 2 = 0)
    (hreadsKey : Decoder.ReadsOn h cs) (hreadsValue : Decoder.ReadsOn h (cs ++ [k]))
    (hunhashable : k.value.hashable = false) (hcall : CompleteCall decode (cs ++ [k, v]))
    {fuel : ℕ} (hfuel : cs.length < fuel) {d : Decoder} (hd : d.Valid)
    (hsees : d.Sees (Item.bytesList (cs ++ [k, v]))) :
    Panics (decodeMap decode fuel h.arg (decide h.Indefinite)) d := by
  obtain ⟨pairs, hlen⟩ : ∃ n, cs.length = 2 * n := ⟨cs.length / 2, by omega⟩
  simp only [Item.bytesList_append, Item.bytesList_cons, Item.bytesList_nil, List.append_nil,
    Decoder.sees_append] at hsees
  obtain ⟨hbefore, hkey, hval⟩ := hsees
  have hd₁ := hd.advance hbefore
  have hpair := hcall.of_append_right
  have hkeys := hreadsKey.keys hmap
  unfold decodeMap
  by_cases hi : h.Indefinite
  · have hchildCount : h.childCount = none := by simp [Head.childCount, hmap, hi, majorMap]
    obtain ⟨left, rfl⟩ : ∃ n, fuel = n + 1 + pairs := ⟨fuel - 1 - pairs, by omega⟩
    have hnot : ¬k.value.isBreakMarker = true := fun hbreak ↦
      hreadsValue.opened hchildCount cs.length k (by simp) (fun _ ↦ heven)
        (Item.isBreakMarker_value.mp hbreak)
    rw [if_pos (decide_eq_true hi)]
    refine Panics.bind ?_ _
    rw [Panics, decodeMapUntilBreak_run hlen
      (fun i c hc heven ↦ hreadsKey.opened hchildCount i c hc fun _ ↦ heven)
      hcall.of_append_left hkeys _ _ hd hbefore, decodeMapUntilBreak]
    refine Panics.bind_of_ok (hpair.head hd₁ hkey) ?_
    rw [if_neg hnot]
    exact assignPair_panics hpair.second _ hunhashable _ (hd₁.advance hkey) hval
  · have hcount := hreadsValue.counted (2 * h.count)
      (by simp only [Head.childCount, hmap, hi]; rfl)
    rw [List.length_append, List.length_singleton] at hcount
    obtain ⟨left, hleft⟩ : ∃ n, h.count = n + 1 + pairs := ⟨h.count - 1 - pairs, by omega⟩
    rw [if_neg (by simpa using hi), Head.toNat_arg hv, hleft]
    refine Panics.bind ?_ _
    rw [Panics, decodeMapEntries_run hlen hcall.of_append_left hkeys _ _ hd hbefore,
      decodeMapEntries]
    exact Panics.bind_of_ok (hpair.head hd₁ hkey)
      (assignPair_panics hpair.second _ hunhashable _ (hd₁.advance hkey) hval)

end Containers

theorem completeCall_decode {cs : List Item} (hcs : ∀ c ∈ cs, c.Accepted) {fuel : ℕ}
    (hfuel : (Item.bytesList cs).length < fuel) : CompleteCall (decode fuel) cs := by
  intro c hc d hd hsees
  have hle := Item.length_bytes_le_of_mem hc
  exact decode_complete (hcs c hc) (by omega) hd hsees

/-- Once the head is read, `decode` goes on with its content. -/
theorem decode_of_head {h : Head} (hv : h.Valid) (hm : h.major ≠ majorSimple) {d : Decoder}
    (hd : d.Valid) (hsees : d.Sees h.bytes) (fuel : ℕ) :
    decode (fuel + 1) d = decodeContent (decode fuel) fuel h.major h.arg (decide h.Indefinite)
      (d.advance h.bytes.length) := by
  obtain ⟨initial, argument⟩ := h
  rw [Head.bytes, Decoder.sees_cons] at hsees
  obtain ⟨hfirst, hargument⟩ := hsees
  have hd₁ : (d.advance 1).Valid := hd.advance hfirst
  have hbyte : readByte d = (.ok initial, d.advance 1) := readByte_eq_ok.mpr ⟨hfirst, rfl⟩
  have hnot : ¬initial >>> 5 = majorSimple := hm
  rw [decode, Action.bind_of_ok hbyte, if_neg hnot,
    Action.bind_of_ok ((readArg_eq_ok hd₁).mpr ⟨argument, hv, hargument, rfl, rfl, rfl⟩)]
  simp [Head.major, Nat.add_comm]

theorem ReadsOn.ne_simple {h : Head} {cs : List Item} (hreads : Decoder.ReadsOn h cs) :
    h.major ≠ majorSimple := by
  rcases hreads.container with hm | hm | hm | hm | hm <;> rw [hm] <;> decide

theorem decode_panics_of_argument {d : Decoder} (hd : d.Valid) {initial : UInt8} {width : ℕ}
    (hsees : d.Sees [initial]) (hwidth : Head.argumentWidth (initial &&& 0x1f) = some width)
    (hwide : 2 ≤ width) (hover : 2 ^ 63 ≤ d.pos + 1 + width) (fuel : ℕ) :
    Panics (decode (fuel + 1)) d := by
  have hd₁ : (d.advance 1).Valid := hd.advance hsees
  rw [Panics, decode]
  refine Panics.bind_of_ok (readByte_eq_ok.mpr ⟨hsees, rfl⟩) ?_
  split_ifs with hsimple
  · have hread {n : ℕ} (hn : width = n) (hsmall : n < 2 ^ 63) : Panics (readN n) (d.advance 1) := by
      subst hn
      exact readN_panics hd₁ (by exact_mod_cast hsmall) (by omega) (by exact_mod_cast hover)
    have hcases : initial &&& 0x1f = 25 ∧ width = 2 ∨ initial &&& 0x1f = 26 ∧ width = 4 ∨
        initial &&& 0x1f = 27 ∧ width = 8 := by
      unfold Head.argumentWidth at hwidth
      split_ifs at hwidth with h24 h25 h26 h27 h28 h31 <;> simp at hwidth
      all_goals first
        | omega
        | exact .inl ⟨h26, hwidth.symm⟩
        | exact .inr (.inl ⟨h27, hwidth.symm⟩)
        | exact .inr (.inr ⟨h28, hwidth.symm⟩)
    rcases hcases with ⟨hinfo, hn⟩ | ⟨hinfo, hn⟩ | ⟨hinfo, hn⟩
    · simpa [hinfo, decodeSimple, indefinite] using (hread hn (by norm_num)).bind
        (fun b ↦ (pure (.float64 (widenFloat32 (halfToFloat32bits (bigEndianUint16 b)))) :
          DecodeM Value))
    · simpa [hinfo, decodeSimple, indefinite] using (hread hn (by norm_num)).bind
        (fun b ↦ (pure (.float64 (widenFloat32 (bigEndianUint32 b))) : DecodeM Value))
    · simpa [hinfo, decodeSimple, indefinite] using (hread hn (by norm_num)).bind
        (fun b ↦ (pure (.float64 (bigEndianUint64 b)) : DecodeM Value))
  · refine Panics.bind ?_ _
    exact ⟨_, _, (readArg_eq_panic hd₁).mpr ⟨width, hwidth, hwide, hover, rfl, rfl⟩⟩

/-- Where `Decoder.Crashes` says so, `decode` does panic. -/
theorem Decoder.Crashes.panics {d : Decoder} (h : d.Crashes) (hd : d.Valid) {fuel : ℕ}
    (hfuel : d.remaining < fuel) : Panics (decode fuel) d := by
  induction h generalizing fuel with
  | argument hsees hwidth hwide hover =>
    obtain ⟨fuel, rfl⟩ : ∃ n, fuel = n + 1 := ⟨fuel - 1, by omega⟩
    exact decode_panics_of_argument hd hsees hwidth hwide hover fuel
  | @string d h hv hsees hstring hdef hlt hover =>
    obtain ⟨fuel, rfl⟩ : ∃ n, fuel = n + 1 := ⟨fuel - 1, by omega⟩
    have hm : h.major ≠ majorSimple := by
      rcases hstring with hm | hm <;> rw [hm] <;> decide
    have hread : Panics (readN (wrapInt64 h.arg.toNat)) (d.advance h.bytes.length) := by
      rw [Head.toNat_arg hv, wrapInt64_of_fits (by omega) (by omega)]
      exact readN_panics (hd.advance hsees) (by omega) (by omega) (by exact_mod_cast hover)
    have hindef : ¬decide h.Indefinite = true := by simpa using hdef
    rw [Panics, decode_of_head hv hm hd hsees]
    rcases hstring with h2 | h3
    · rw [h2, decodeContent_bytes, if_neg hindef]
      exact hread.bind _
    · rw [h3, decodeContent_text, if_neg hindef]
      exact hread.bind _
  | @key d d' h cs k v hv hsees hmap htakes heven hreadsKey hreadsValue hunhashable =>
    obtain ⟨fuel, rfl⟩ : ∃ n, fuel = n + 1 := ⟨fuel - 1, by omega⟩
    obtain ⟨haccepted, hbody, -⟩ := htakes
    have hd₁ := hd.advance hsees
    have hlen := hbody.length_le_remaining hd₁
    have hhead := hsees.length_le_remaining hd
    rw [Decoder.remaining_advance, Head.length_bytes] at hlen
    rw [Head.length_bytes] at hhead
    have hcall := completeCall_decode haccepted (show _ < fuel by omega)
    have hitems := Item.length_le_bytesList (cs ++ [k, v])
    rw [List.length_append] at hitems
    have hloop := decodeMap_panics_of_key hv hmap heven hreadsKey hreadsValue hunhashable hcall
      (show cs.length < fuel by omega) hd₁ hbody
    rw [Panics, decode_of_head hv (ReadsOn.ne_simple hreadsKey) hd hsees, hmap,
      decodeContent_map]
    exact hloop
  | @nested d d' h cs hv hsees htakes hreadsOn _ ih =>
    obtain ⟨fuel, rfl⟩ : ∃ n, fuel = n + 1 := ⟨fuel - 1, by omega⟩
    have hd₁ := hd.advance hsees
    have hhead := hsees.length_le_remaining hd
    have hle := htakes.remaining_le
    rw [Decoder.remaining_advance, Head.length_bytes] at hle
    rw [Head.length_bytes] at hhead
    have hpanics := ih (htakes.valid hd₁) (show d'.remaining < fuel by omega)
    obtain ⟨haccepted, hbody, rfl⟩ := htakes
    have hlen := hbody.length_le_remaining hd₁
    rw [Decoder.remaining_advance, Head.length_bytes] at hlen
    have hitems := Item.length_le_bytesList cs
    rw [Panics, decode_of_head hv (ReadsOn.ne_simple hreadsOn) hd hsees]
    refine decodeContent_panics hv hreadsOn (completeCall_decode haccepted (by omega)) (by omega)
      hd₁ hbody hpanics fun hstring ↦ ?_
    by_contra hdef
    have hzero := hreadsOn.counted 0 (by
      rcases hstring with hm | hm <;> simp [Head.childCount, hm, hdef, majorBytes, majorText])
    exact absurd hzero (Nat.not_lt_zero _)

/-- The decoder panics exactly where `Decoder.Crashes` says so. -/
theorem decode_panics_iff {d : Decoder} (hd : d.Valid) {fuel : ℕ} (hfuel : d.remaining < fuel) :
    Panics (decode fuel) d ↔ d.Crashes := by
  constructor
  · rintro ⟨reason, d', h⟩
    exact decode_panic fuel hd h
  · intro h
    exact h.panics hd hfuel

end Zenith.Cbor
