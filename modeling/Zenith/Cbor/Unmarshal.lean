import Zenith.Go.Actions
import Zenith.Cbor.Panics

/-!
# What `Unmarshal` returns

The fuel that `unmarshal` starts with never runs out, because every turn of every loop reads at
least one byte. What remains is a description of its three outcomes without a decoder: a value means
that the data start with an accepted item, a panic that the start of the data `Crashes`.
-/

namespace Zenith.Cbor

open Go

/-! ## The fuel is enough -/

theorem readByte_lowers : Action.Lowers Decoder.remaining readByte := by
  intro d d' b h
  obtain ⟨hsees, rfl⟩ := readByte_eq_ok.mp h
  have hlen := List.IsPrefix.length_le hsees
  rw [List.length_singleton, List.length_drop] at hlen
  rw [Decoder.remaining_advance]
  unfold Decoder.remaining
  omega

theorem readByte_halts (bound : ℕ) : Action.Halts Decoder.remaining bound readByte where
  comesBack _ _ _ := readByte_ne_outOfFuel
  le _ _ _ h := (readByte_lowers h).le

/-- No read goes back. -/
theorem readN_halts (bound : ℕ) (n : ℤ) : Action.Halts Decoder.remaining bound (readN n) where
  comesBack _ _ _ := readN_ne_outOfFuel
  le d d' bs h := by
    unfold readN at h
    dsimp only at h
    split_ifs at h with hguard hslice
    · simp at h
    · simp at h
    · rw [Prod.mk.injEq] at h
      rw [← h.2]
      unfold Decoder.remaining
      dsimp only
      omega

theorem readArg_halts (bound : ℕ) (ai : UInt8) :
    Action.Halts Decoder.remaining bound (readArg ai) := by
  unfold readArg
  split_ifs
  · exact .pure _
  · exact (readByte_halts bound).bind fun _ ↦ .pure _
  · exact (readN_halts bound 2).bind fun _ ↦ .pure _
  · exact (readN_halts bound 4).bind fun _ ↦ .pure _
  · exact (readN_halts bound 8).bind fun _ ↦ .pure _
  · exact .pure _
  · exact .throw _

theorem decodeSimple_halts (bound : ℕ) (ai : UInt8) :
    Action.Halts Decoder.remaining bound (decodeSimple ai) := by
  unfold decodeSimple
  split_ifs
  · exact .pure _
  · exact .pure _
  · exact .pure _
  · exact .pure _
  · exact (readN_halts bound 2).bind fun _ ↦ .pure _
  · exact (readN_halts bound 4).bind fun _ ↦ .pure _
  · exact (readN_halts bound 8).bind fun _ ↦ .pure _
  · exact .throw _

theorem assign_halts (bound : ℕ) (out : List (Value × Value)) (k v : Value) :
    Action.Halts Decoder.remaining bound (assign out k v) := .ite (.pure _) (.crash _)

section Containers

variable {decode : DecodeM Value} {bound : ℕ} (h : Action.Halts Decoder.remaining bound decode)
  (hlowers : Action.Lowers Decoder.remaining decode)

include h

theorem decodeArrayItems_halts (count : ℕ) (out : List Value) :
    Action.Halts Decoder.remaining bound (decodeArrayItems decode count out) := by
  induction count generalizing out with
  | zero => exact .pure _
  | succ count ih => exact h.bind fun v ↦ ih _

theorem decodeMapEntries_halts (count : ℕ) (out : List (Value × Value)) :
    Action.Halts Decoder.remaining bound (decodeMapEntries decode count out) := by
  induction count generalizing out with
  | zero => exact .pure _
  | succ count ih =>
    exact h.bind fun k ↦ h.bind fun v ↦ (assign_halts bound out k v).bind fun _ ↦ ih _

include hlowers

-- each turn of a loop up to a break reads, so that it needs no more fuel than there are bytes

theorem decodeArrayUntilBreak_halts {fuel : ℕ} (hfuel : fuel ≤ bound) (out : List Value) :
    Action.Halts Decoder.remaining fuel (decodeArrayUntilBreak decode fuel out) := by
  induction fuel generalizing out with
  | zero => exact .exhausted
  | succ fuel ih =>
    exact (h.mono hfuel).bind_of_lowers hlowers fun v ↦ .ite (.pure _) (ih (by omega) _)

theorem decodeMapUntilBreak_halts {fuel : ℕ} (hfuel : fuel ≤ bound) (out : List (Value × Value)) :
    Action.Halts Decoder.remaining fuel (decodeMapUntilBreak decode fuel out) := by
  induction fuel generalizing out with
  | zero => exact .exhausted
  | succ fuel ih =>
    refine (h.mono hfuel).bind_of_lowers hlowers fun k ↦ .ite (.pure _) ?_
    refine (h.mono (by omega)).bind fun v ↦ ?_
    exact (assign_halts fuel out k v).bind fun _ ↦ ih (by omega) _

theorem decodeChunks_halts (major : UInt8) (invalid : DecodeError) {fuel : ℕ} (hfuel : fuel ≤ bound)
    (out : List UInt8) :
    Action.Halts Decoder.remaining fuel (decodeChunks decode major invalid fuel out) := by
  induction fuel generalizing out with
  | zero => exact .exhausted
  | succ fuel ih =>
    refine (h.mono hfuel).bind_of_lowers hlowers fun v ↦ .ite (.pure _) ?_
    cases chunkOf major v with
    | none => exact .throw _
    | some chunk => exact ih (by omega) _

theorem decodeContent_halts (major : UInt8) (arg : UInt64) (indef : Bool) :
    Action.Halts Decoder.remaining bound (decodeContent decode bound major arg indef) := by
  unfold decodeContent
  split_ifs
  · exact .pure _
  · exact .pure _
  · exact (decodeChunks_halts h hlowers _ _ le_rfl _).bind fun _ ↦ .pure _
  · exact (readN_halts bound _).bind fun _ ↦ .pure _
  · exact (decodeChunks_halts h hlowers _ _ le_rfl _).bind fun _ ↦ .pure _
  · exact (readN_halts bound _).bind fun _ ↦ .pure _
  · unfold decodeArray
    split_ifs
    · exact (decodeArrayUntilBreak_halts h hlowers le_rfl _).bind fun _ ↦ .pure _
    · exact (decodeArrayItems_halts h _ _).bind fun _ ↦ .pure _
  · unfold decodeMap
    split_ifs
    · exact (decodeMapUntilBreak_halts h hlowers le_rfl _).bind fun _ ↦ .pure _
    · exact (decodeMapEntries_halts h _ _).bind fun _ ↦ .pure _
  · exact h.bind fun _ ↦ .pure _
  · exact .throw _

end Containers

/-- With more fuel than bytes left, `decode` comes back, and it has read at least one byte. -/
theorem decode_halts (fuel : ℕ) : Action.Halts Decoder.remaining fuel (decode fuel) ∧
    Action.Lowers Decoder.remaining (decode fuel) := by
  induction fuel with
  | zero => exact ⟨.exhausted, .exhausted⟩
  | succ fuel ih =>
    refine (readByte_halts _).bind_and_lowers readByte_lowers fun b ↦ .ite ?_ ?_
    · exact decodeSimple_halts fuel _
    · exact (readArg_halts fuel _).bind fun _ ↦ decodeContent_halts ih.1 ih.2 _ _ _

/-- A recursive call that comes back whenever fewer than `bound` bytes are left. -/
def ComesBack (bound : ℕ) (decode : DecodeM Value) : Prop :=
  ∀ ⦃d d' : Decoder⦄, d.Valid → d.remaining < bound → decode d ≠ (.outOfFuel, d')

theorem decode_comesBack (fuel : ℕ) : ComesBack fuel (decode fuel) :=
  fun _ _ _ hlt ↦ (decode_halts fuel).1.comesBack hlt

/-! ## `Unmarshal` -/

/-- The decoder as `Unmarshal` creates it. -/
def Decoder.start (data : List UInt8) : Decoder := ⟨data, 0⟩

theorem Decoder.valid_start {data : List UInt8} (hdata : data.length < 2 ^ 63) :
    (Decoder.start data).Valid := ⟨hdata, Nat.zero_le _⟩

theorem Decoder.remaining_start (data : List UInt8) :
    (Decoder.start data).remaining < data.length + 1 := by
  simp [Decoder.start, Decoder.remaining]

theorem exists_decode_start (data : List UInt8) :
    ∃ d, decode (data.length + 1) (Decoder.start data) = ((unmarshal data).1, d) ∧
      (unmarshal data).2 = d.pos :=
  ⟨_, rfl, rfl⟩

/-- `unmarshal` returns a value exactly on data that start with an accepted item. -/
theorem unmarshal_eq_ok {data : List UInt8} (hdata : data.length < 2 ^ 63) {v : Value} {n : ℕ} :
    unmarshal data = (.ok v, n) ↔
      ∃ s : Item, s.Accepted ∧ data.take n = s.bytes ∧ n = s.bytes.length ∧ v = s.value := by
  have hd := Decoder.valid_start hdata
  constructor
  · intro h
    obtain ⟨d, hdecode, hpos⟩ := exists_decode_start data
    rw [h] at hdecode hpos
    obtain ⟨s, ⟨haccepted, hsees, hadvance⟩, hvalue⟩ := decode_sound (data.length + 1) hd hdecode
    have hlen : n = s.bytes.length := by
      rw [show n = d.pos from hpos, hadvance]
      simp [Decoder.start]
    exact ⟨s, haccepted, hlen ▸ hsees.of_start, hlen, hvalue⟩
  · rintro ⟨s, haccepted, htake, rfl, rfl⟩
    have hsees : (Decoder.start data).Sees s.bytes := by
      conv_rhs => rw [← htake]
      exact List.take_prefix _ _
    have hlen : s.bytes.length ≤ data.length := by
      have hle := hsees.length_le hd.pos_le
      simpa [Decoder.start] using hle
    obtain ⟨d, hdecode, hpos⟩ := exists_decode_start data
    rw [decode_complete haccepted (by omega) hd hsees, Prod.mk.injEq] at hdecode
    obtain ⟨hresult, rfl⟩ := hdecode
    exact Prod.ext hresult.symm (by simpa [Decoder.start] using hpos)

/-- `unmarshal` reads an accepted item off the front of whatever follows it. -/
theorem unmarshal_append {s : Item} (hs : s.Accepted) {tail : List UInt8}
    (hlen : s.bytes.length + tail.length < 2 ^ 63) :
    unmarshal (s.bytes ++ tail) = (.ok s.value, s.bytes.length) :=
  (unmarshal_eq_ok (by simpa using hlen)).mpr ⟨s, hs, by simp, rfl, rfl⟩

/-- `unmarshal` panics exactly where `Decoder.Crashes` says so. -/
theorem unmarshal_panics_iff {data : List UInt8} (hdata : data.length < 2 ^ 63) :
    (∃ reason, (unmarshal data).1 = .panic reason) ↔ (Decoder.start data).Crashes := by
  rw [← decode_panics_iff (Decoder.valid_start hdata) (Decoder.remaining_start data)]
  obtain ⟨d, hdecode, -⟩ := exists_decode_start data
  constructor
  · rintro ⟨reason, h⟩
    exact ⟨reason, d, h ▸ hdecode⟩
  · rintro ⟨reason, d', h⟩
    rw [hdecode, Prod.mk.injEq] at h
    exact ⟨reason, h.1⟩

theorem unmarshal_ne_outOfFuel {data : List UInt8} (hdata : data.length < 2 ^ 63) :
    (unmarshal data).1 ≠ .outOfFuel := by
  intro h
  obtain ⟨d, hdecode, -⟩ := exists_decode_start data
  rw [h] at hdecode
  exact decode_comesBack (data.length + 1) (Decoder.valid_start hdata)
    (Decoder.remaining_start data) hdecode

theorem unmarshal_returns_iff {data : List UInt8} (hdata : data.length < 2 ^ 63) :
    (unmarshal data).1.Returns ↔ ¬(Decoder.start data).Crashes := by
  rw [← unmarshal_panics_iff hdata]
  have hfuel := unmarshal_ne_outOfFuel hdata
  cases hresult : (unmarshal data).1 with
  | ok value => simp
  | error err => simp
  | panic reason => simp
  | outOfFuel => exact absurd hresult hfuel

/-! ## Prefixes and extensions -/

/-- The same cursor on a longer input. -/
def Decoder.extend (d : Decoder) (t : List UInt8) : Decoder := { d with data := d.data ++ t }

theorem Decoder.Sees.extend {d : Decoder} {bs : List UInt8} (h : d.Sees bs) (t : List UInt8) :
    (d.extend t).Sees bs := by
  unfold Decoder.Sees Decoder.extend at *
  dsimp only
  rw [List.drop_append]
  exact h.trans (List.prefix_append _ _)

theorem Decoder.TakesAll.extend {d d' : Decoder} {cs : List Item} (h : d.TakesAll cs d')
    (t : List UInt8) : (d.extend t).TakesAll cs (d'.extend t) := by
  obtain ⟨haccepted, hsees, rfl⟩ := h
  exact ⟨haccepted, hsees.extend t, rfl⟩

/-- Whatever makes the decoder panic is in front of it, and stays there when bytes are appended. -/
theorem Decoder.Crashes.extend {d : Decoder} (h : d.Crashes) (t : List UInt8) :
    (d.extend t).Crashes := by
  induction h with
  | argument sees announces wide overflows =>
    exact .argument (sees.extend t) announces wide overflows
  | string valid sees isString definite length_lt overflows =>
    exact .string valid (sees.extend t) isString definite length_lt overflows
  | key valid sees isMap takes even readsKey readsValue unhashable =>
    exact .key valid (sees.extend t) isMap (takes.extend t) even readsKey readsValue unhashable
  | nested valid sees takes readsOn _ ih =>
    exact .nested valid (sees.extend t) (takes.extend t) readsOn ih

/-- No proper prefix of an accepted item starts with an accepted item. -/
theorem Item.Accepted.eq_of_prefix {s s' : Item} (hs : s.Accepted) (hs' : s'.Accepted)
    (h : s'.bytes <+: s.bytes) : s' = s := by
  obtain ⟨rest, hrest⟩ := h
  have heq : s'.bytes ++ rest = s.bytes ++ [] := by rw [hrest, List.append_nil]
  exact (Item.bytes_append_inj hs'.1 hs.1 heq).1

/-- Data items are self-delimiting: the decoder takes at least one byte and none that is not there,
what follows the bytes it takes changes nothing, and without the last of them it reports an error. -/
theorem unmarshal_selfDelimiting {data : List UInt8} (hdata : data.length < 2 ^ 63) {v : Value}
    {n : ℕ} (h : unmarshal data = (.ok v, n)) :
    1 ≤ n ∧ n ≤ data.length ∧
      (∀ t : List UInt8, n + t.length < 2 ^ 63 → unmarshal (data.take n ++ t) = (.ok v, n)) ∧
      ∀ m < n, ∃ err, (unmarshal (data.take m)).1 = .error err := by
  obtain ⟨s, haccepted, htake, hn, hvalue⟩ := (unmarshal_eq_ok hdata).mp h
  have hle : n ≤ data.length := by
    have hlen := congrArg List.length htake
    rw [List.length_take, ← hn] at hlen
    omega
  refine ⟨hn ▸ s.length_bytes_pos, hle, fun t ht ↦ ?_, fun m hm ↦ ?_⟩
  · rw [htake, hn, hvalue]
    exact unmarshal_append haccepted (hn ▸ ht)
  · have hshort : (data.take m).length < 2 ^ 63 := by
      rw [List.length_take]
      omega
    cases hresult : (unmarshal (data.take m)).1 with
    | error err => exact ⟨err, rfl⟩
    | outOfFuel => exact absurd hresult (unmarshal_ne_outOfFuel hshort)
    | panic reason =>
      -- the same panic would have stopped the decoder on all of the data
      have hcrash := (unmarshal_panics_iff hshort).mp ⟨reason, hresult⟩
      have hextend : (Decoder.start data).Crashes := by
        have hcrash' := hcrash.extend (data.drop m)
        unfold Decoder.extend Decoder.start at hcrash'
        rwa [List.take_append_drop] at hcrash'
      obtain ⟨reason', hpanic⟩ := (unmarshal_panics_iff hdata).mpr hextend
      rw [h] at hpanic
      cases hpanic
    | ok v' =>
      obtain ⟨s', haccepted', htake', hn', -⟩ :=
        (unmarshal_eq_ok hshort (n := (unmarshal (data.take m)).2)).mp (Prod.ext hresult rfl)
      have hprefix : s'.bytes <+: s.bytes := by
        rw [← htake', ← htake]
        calc
          (data.take m).take (unmarshal (data.take m)).2 <+: data.take m := List.take_prefix _ _
          _ <+: data.take n := List.take_prefix_take_left hm.le
      have heq := haccepted.eq_of_prefix haccepted' hprefix
      have hlen := congrArg List.length htake'
      rw [heq, ← hn, List.length_take, List.length_take] at hlen
      omega

theorem unmarshal_selfDelimiting_array :
    unmarshal [0x9f, 0x18, 0xff, 0xff, 0x00] = (.ok (.array [.uint64 255]), 4) ∧
      ∀ m < 4, ∃ err, (unmarshal ([0x9f, 0x18, 0xff, 0xff, 0x00].take m)).1 = .error err := by
  have hread : unmarshal [0x9f, 0x18, 0xff, 0xff, 0x00] = (.ok (.array [.uint64 255]), 4) := rfl
  exact ⟨hread, (unmarshal_selfDelimiting (by decide) hread).2.2.2⟩

end Zenith.Cbor
