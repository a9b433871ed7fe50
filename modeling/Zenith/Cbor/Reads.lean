import Zenith.Cbor.Unmarshal

/-!
# The cursor along a run

The decoder moves its cursor by `readByte` and `readN` only, so that what both keep holds in every
state of a run; in particular the cursor never leaves the input. A declared length is converted to an
`int` and added to the cursor before it is compared. The conversion makes a length from `2 ^ 63` on
negative, which the guard rejects. The sum wraps when a smaller length ends past the last `int`, and
then the guard lets it pass.
-/

namespace Zenith.Cbor

open Go

/-! ## What a run keeps -/

section Keeps

variable {P : Decoder → Prop} (hbyte : Action.Keeps P readByte)
  (hread : ∀ n, Action.Keeps P (readN n))

include hread in
theorem decodeSimple_keeps (ai : UInt8) : Action.Keeps P (decodeSimple ai) := by
  unfold decodeSimple
  split_ifs
  · exact .pure _
  · exact .pure _
  · exact .pure _
  · exact .pure _
  · exact (hread 2).bind fun _ ↦ .pure _
  · exact (hread 4).bind fun _ ↦ .pure _
  · exact (hread 8).bind fun _ ↦ .pure _
  · exact .throw _

include hbyte hread in
theorem readArg_keeps (ai : UInt8) : Action.Keeps P (readArg ai) := by
  unfold readArg
  split_ifs
  · exact .pure _
  · exact hbyte.bind fun _ ↦ .pure _
  · exact (hread 2).bind fun _ ↦ .pure _
  · exact (hread 4).bind fun _ ↦ .pure _
  · exact (hread 8).bind fun _ ↦ .pure _
  · exact .pure _
  · exact .throw _

section Containers

variable {decode : DecodeM Value} (hdecode : Action.Keeps P decode)

include hdecode

theorem decodeArrayItems_keeps (count : ℕ) (out : List Value) :
    Action.Keeps P (decodeArrayItems decode count out) := by
  induction count generalizing out with
  | zero => exact .pure _
  | succ count ih => exact hdecode.bind fun v ↦ ih _

theorem decodeArrayUntilBreak_keeps (fuel : ℕ) (out : List Value) :
    Action.Keeps P (decodeArrayUntilBreak decode fuel out) := by
  induction fuel generalizing out with
  | zero => exact .exhausted
  | succ fuel ih => exact hdecode.bind fun v ↦ .ite (.pure _) (ih _)

omit hdecode in
theorem assign_keeps (out : List (Value × Value)) (k v : Value) :
    Action.Keeps P (assign out k v) := .ite (.pure _) (.crash _)

theorem decodeMapEntries_keeps (count : ℕ) (out : List (Value × Value)) :
    Action.Keeps P (decodeMapEntries decode count out) := by
  induction count generalizing out with
  | zero => exact .pure _
  | succ count ih =>
    exact hdecode.bind fun k ↦ hdecode.bind fun v ↦ (assign_keeps out k v).bind fun _ ↦ ih _

theorem decodeMapUntilBreak_keeps (fuel : ℕ) (out : List (Value × Value)) :
    Action.Keeps P (decodeMapUntilBreak decode fuel out) := by
  induction fuel generalizing out with
  | zero => exact .exhausted
  | succ fuel ih =>
    refine hdecode.bind fun k ↦ .ite (.pure _) ?_
    exact hdecode.bind fun v ↦ (assign_keeps out k v).bind fun _ ↦ ih _

theorem decodeChunks_keeps (major : UInt8) (invalid : DecodeError) (fuel : ℕ) (out : List UInt8) :
    Action.Keeps P (decodeChunks decode major invalid fuel out) := by
  induction fuel generalizing out with
  | zero => exact .exhausted
  | succ fuel ih =>
    refine hdecode.bind fun v ↦ .ite (.pure _) ?_
    cases chunkOf major v with
    | none => exact .throw _
    | some chunk => exact ih _

include hread in
theorem decodeContent_keeps (fuel : ℕ) (major : UInt8) (arg : UInt64) (indef : Bool) :
    Action.Keeps P (decodeContent decode fuel major arg indef) := by
  unfold decodeContent
  split_ifs
  · exact .pure _
  · exact .pure _
  · exact (decodeChunks_keeps hdecode _ _ _ _).bind fun _ ↦ .pure _
  · exact (hread _).bind fun _ ↦ .pure _
  · exact (decodeChunks_keeps hdecode _ _ _ _).bind fun _ ↦ .pure _
  · exact (hread _).bind fun _ ↦ .pure _
  · unfold decodeArray
    split_ifs
    · exact (decodeArrayUntilBreak_keeps hdecode _ _).bind fun _ ↦ .pure _
    · exact (decodeArrayItems_keeps hdecode _ _).bind fun _ ↦ .pure _
  · unfold decodeMap
    split_ifs
    · exact (decodeMapUntilBreak_keeps hdecode _ _).bind fun _ ↦ .pure _
    · exact (decodeMapEntries_keeps hdecode _ _).bind fun _ ↦ .pure _
  · exact hdecode.bind fun _ ↦ .pure _
  · exact .throw _

end Containers

include hbyte hread in
/-- Whatever both reads keep, a call of `decode` keeps, also one that fails or panics. -/
theorem decode_keeps (fuel : ℕ) : Action.Keeps P (decode fuel) := by
  induction fuel with
  | zero => exact .exhausted
  | succ fuel ih =>
    refine hbyte.bind fun b ↦ .ite (decodeSimple_keeps hread _) ?_
    exact (readArg_keeps hbyte hread _).bind fun _ ↦ decodeContent_keeps hread ih _ _ _ _

end Keeps

/-! ## Reachable states -/

/-- The states that reads lead to from the one `Unmarshal` starts in. -/
inductive Reachable (data : List UInt8) : Decoder → Prop
  | start : Reachable data (.start data)
  | readByte {d : Decoder} (h : Reachable data d) : Reachable data (readByte d).2
  | readN {d : Decoder} (n : ℤ) (h : Reachable data d) : Reachable data (readN n d).2

namespace Reachable

variable {data : List UInt8} {d : Decoder}

theorem decode (h : Reachable data d) (fuel : ℕ) : Reachable data (Cbor.decode fuel d).2 :=
  decode_keeps (fun _ ↦ readByte) (fun n _ ↦ readN n) fuel d h

end Reachable

/-- The decoder reads `data`, and its cursor lies within. -/
def Decoder.Inside (data : List UInt8) (d : Decoder) : Prop := d.data = data ∧ d.pos ≤ data.length

theorem readByte_inside (data : List UInt8) : Action.Keeps (Decoder.Inside data) readByte := by
  intro d hd
  unfold readByte
  split
  · exact hd
  · next b hb =>
    have hlt := (List.getElem?_eq_some_iff.mp hb).1
    exact ⟨hd.1, by rw [← hd.1]; exact hlt⟩

theorem readN_inside (data : List UInt8) (n : ℤ) : Action.Keeps (Decoder.Inside data) (readN n) := by
  intro d hd
  unfold readN
  dsimp only
  split_ifs with hguard hslice
  · exact hd
  · exact hd
  · push Not at hguard hslice
    have hlen : (d.data.length : ℤ) = data.length := by rw [hd.1]
    refine ⟨hd.1, ?_⟩
    dsimp only
    omega

namespace Reachable

variable {data : List UInt8} {d : Decoder}

theorem inside (h : Reachable data d) : d.Inside data := by
  induction h with
  | start => exact ⟨rfl, Nat.zero_le _⟩
  | readByte _ ih => exact readByte_inside data _ ih
  | readN n _ ih => exact readN_inside data n _ ih

theorem valid (h : Reachable data d) (hdata : data.length < 2 ^ 63) : d.Valid :=
  ⟨by rw [h.inside.1]; exact hdata, by rw [h.inside.1]; exact h.inside.2⟩

end Reachable

/-! ## Reads of a declared length -/

/-- `readN` answers a declared length as it should: an error and the cursor unmoved exactly if fewer
bytes are left, these bytes otherwise, with no overflow on the way and the cursor inside. -/
structure ReadsSoundly (d : Decoder) (arg : UInt64) : Prop where
  short : d.remaining < arg.toNat → readN (wrapInt64 arg.toNat) d = (.error .unexpectedEOF, d)
  enough : arg.toNat ≤ d.remaining → readN (wrapInt64 arg.toNat) d =
    (.ok ((d.data.drop d.pos).take arg.toNat), d.advance arg.toNat)
  sum : wrapInt64 (d.pos + wrapInt64 arg.toNat) = d.pos + wrapInt64 arg.toNat
  inside : (readN (wrapInt64 arg.toNat) d).2.pos ≤ d.data.length

section Declared

variable {d : Decoder} (hd : d.Valid)

theorem wrapInt64_arg_neg {arg : UInt64} (h : 2 ^ 63 ≤ arg.toNat) :
    -(2 ^ 63) ≤ wrapInt64 arg.toNat ∧ wrapInt64 arg.toNat < 0 := by
  have hlt := arg.toNat_lt
  rw [wrapInt64_of_overflow (by exact_mod_cast h) (by omega)]
  omega

theorem wrapInt64_arg_eq {arg : UInt64} (h : arg.toNat < 2 ^ 63) :
    wrapInt64 arg.toNat = arg.toNat :=
  wrapInt64_of_fits (by omega) (by exact_mod_cast h)

include hd

/-- The guard rejects every length whose conversion is negative. -/
theorem readsSoundly_of_negative {arg : UInt64} (h : 2 ^ 63 ≤ arg.toNat) : ReadsSoundly d arg := by
  obtain ⟨hlow, hneg⟩ := wrapInt64_arg_neg h
  have hlength := hd.length_lt
  have hpos := hd.pos_le
  have hread : readN (wrapInt64 arg.toNat) d = (.error .unexpectedEOF, d) :=
    readN_of_short hd (by omega) (.inl hneg)
  exact
    { short := fun _ ↦ hread
      enough := fun hle ↦ by
        have hrem : d.remaining ≤ d.data.length := Nat.sub_le _ _
        omega
      sum := wrapInt64_of_fits (by omega) (by omega)
      inside := by
        rw [hread]
        exact hpos }

theorem readsSoundly_of_fits {arg : UInt64} (harg : arg.toNat < 2 ^ 63)
    (h : d.pos + arg.toNat < 2 ^ 63) : ReadsSoundly d arg := by
  have hconv := wrapInt64_arg_eq harg
  have hpos := hd.pos_le
  have hsum : wrapInt64 (d.pos + arg.toNat) = d.pos + arg.toNat :=
    wrapInt64_of_fits (by omega) (by exact_mod_cast h)
  by_cases hle : arg.toNat ≤ d.remaining
  · have hbytes : ((d.data.drop d.pos).take arg.toNat).length = arg.toNat := by
      rw [List.length_take, List.length_drop]
      exact Nat.min_eq_left hle
    have hread := readN_of_sees hd (List.take_prefix arg.toNat (d.data.drop d.pos))
    rw [hbytes] at hread
    exact
      { short := fun hlt ↦ absurd hle (by omega)
        enough := fun _ ↦ by rw [hconv, hread]
        sum := by rw [hconv, hsum]
        inside := by
          rw [hconv, hread]
          unfold Decoder.remaining at hle
          rw [Decoder.advance_pos]
          omega }
  · have hread : readN arg.toNat d = (.error .unexpectedEOF, d) := by
      apply readN_of_short hd (by exact_mod_cast h)
      unfold Decoder.remaining at hle
      omega
    exact
      { short := fun _ ↦ by rw [hconv, hread]
        enough := fun h ↦ absurd h hle
        sum := by rw [hconv, hsum]
        inside := by
          rw [hconv, hread]
          exact hpos }

/-- Past the last `int` the sum wraps, the guard lets it pass and the slice expression panics. -/
theorem not_readsSoundly {arg : UInt64} (harg : arg.toNat < 2 ^ 63)
    (h : 2 ^ 63 ≤ d.pos + arg.toNat) :
    readN (wrapInt64 arg.toNat) d = (.panic .sliceBounds, d) ∧ ¬ReadsSoundly d arg := by
  have hconv := wrapInt64_arg_eq harg
  have hread : readN (wrapInt64 arg.toNat) d = (.panic .sliceBounds, d) := by
    rw [hconv]
    exact readN_of_overflow hd (by exact_mod_cast harg) (by omega) (by exact_mod_cast h)
  refine ⟨hread, fun hsound ↦ ?_⟩
  have hlength := hd.length_lt
  have hpos := hd.pos_le
  have hshort := hsound.short (by unfold Decoder.remaining; omega)
  rw [hread, Prod.mk.injEq] at hshort
  cases hshort.1

end Declared

/-- In every reachable state, and for every declared length, the read is sound exactly if the length
converts to a negative number or does not end past the last `int`. -/
theorem readN_declared_iff {data : List UInt8} (hdata : data.length < 2 ^ 63) {d : Decoder}
    (hd : Reachable data d) (arg : UInt64) :
    ReadsSoundly d arg ↔ (arg.toNat < 2 ^ 63 → d.pos + arg.toNat < 2 ^ 63) := by
  have hvalid := hd.valid hdata
  constructor
  · intro hsound harg
    by_contra hover
    exact (not_readsSoundly hvalid harg (not_lt.mp hover)).2 hsound
  · intro hfits
    by_cases harg : arg.toNat < 2 ^ 63
    · exact readsSoundly_of_fits hvalid harg (hfits harg)
    · exact readsSoundly_of_negative hvalid (not_lt.mp harg)

theorem readN_declared_two : ReadsSoundly ⟨[0x42, 0x01, 0x02], 1⟩ 2 :=
  (@readN_declared_iff [0x42, 0x01, 0x02] (by decide) _ (.readByte .start) 2).mpr (by decide)

/-- The head of a byte string of `2 ^ 63 - 1` bytes. -/
def hugeString : List UInt8 := [0x5b, 0x7f, 0xff, 0xff, 0xff, 0xff, 0xff, 0xff, 0xff]

theorem readN_declared_panics :
    Reachable hugeString ⟨hugeString, 9⟩ ∧ ¬ReadsSoundly ⟨hugeString, 9⟩ 0x7fffffffffffffff ∧
      unmarshal hugeString = (.panic .sliceBounds, 9) := by
  have hone : Reachable hugeString ⟨hugeString, 1⟩ := .readByte .start
  have hargument : readN 8 ⟨hugeString, 1⟩ = (.ok (hugeString.drop 1), ⟨hugeString, 9⟩) :=
    @readN_of_sees ⟨hugeString, 1⟩ ⟨by decide, by decide⟩ (hugeString.drop 1) List.prefix_rfl
  refine ⟨?_, ?_, rfl⟩
  · have hnine := hone.readN 8
    rwa [hargument] at hnine
  · exact (not_readsSoundly ⟨by decide, by decide⟩ (by decide) (by decide)).2

end Zenith.Cbor
