import Zenith.Cbor.Decoder

/-!
# The decoder's cursor

What the decoder still has in front of it is described by `Decoder.Sees`, and every successful read
is an `advance` over bytes that were seen. The only sum that can overflow is the one in `readN`, and
it does so exactly when the bytes asked for would end past the last `int`.
-/

namespace Zenith.Cbor

open Go

namespace Decoder

/-- The next bytes of the input, from the cursor on, start with `bs`. -/
def Sees (d : Decoder) (bs : List UInt8) : Prop := bs <+: d.data.drop d.pos

def advance (d : Decoder) (n : ℕ) : Decoder := { d with pos := d.pos + n }

/-- The cursor lies within the input, whose length is an `int`. -/
structure Valid (d : Decoder) : Prop where
  length_lt : d.data.length < 2 ^ 63
  pos_le : d.pos ≤ d.data.length

/-- How many bytes are left. -/
def remaining (d : Decoder) : ℕ := d.data.length - d.pos

@[simp] theorem advance_data (d : Decoder) (n : ℕ) : (d.advance n).data = d.data := rfl
@[simp] theorem advance_pos (d : Decoder) (n : ℕ) : (d.advance n).pos = d.pos + n := rfl
@[simp] theorem advance_zero (d : Decoder) : d.advance 0 = d := rfl

@[simp] theorem advance_advance (d : Decoder) (m n : ℕ) :
    (d.advance m).advance n = d.advance (m + n) := by
  simp [advance, Nat.add_assoc]

@[simp] theorem sees_nil (d : Decoder) : d.Sees [] := List.nil_prefix

theorem sees_append {d : Decoder} {as bs : List UInt8} :
    d.Sees (as ++ bs) ↔ d.Sees as ∧ (d.advance as.length).Sees bs := by
  simp only [Sees, advance_data, advance_pos, ← List.drop_drop]
  constructor
  · rintro ⟨rest, h⟩
    rw [← h, List.append_assoc]
    refine ⟨List.prefix_append _ _, ?_⟩
    simp
  · rintro ⟨⟨rest, h⟩, hbs⟩
    rw [← h, List.drop_left] at hbs
    rw [← h]
    exact (List.prefix_append_right_inj as).mpr hbs

theorem sees_cons {d : Decoder} {b : UInt8} {bs : List UInt8} :
    d.Sees (b :: bs) ↔ d.Sees [b] ∧ (d.advance 1).Sees bs :=
  @sees_append d [b] bs

theorem Sees.length_le {d : Decoder} {bs : List UInt8} (hd : d.pos ≤ d.data.length)
    (h : d.Sees bs) : d.pos + bs.length ≤ d.data.length := by
  have hlen := List.IsPrefix.length_le h
  rw [List.length_drop] at hlen
  omega

theorem Valid.advance {d : Decoder} (hd : d.Valid) {bs : List UInt8} (h : d.Sees bs) :
    (d.advance bs.length).Valid :=
  ⟨hd.length_lt, h.length_le hd.pos_le⟩

theorem remaining_advance {d : Decoder} (n : ℕ) : (d.advance n).remaining = d.remaining - n := by
  simp only [remaining, advance_data, advance_pos]
  omega

theorem Sees.length_le_remaining {d : Decoder} (hd : d.Valid) {bs : List UInt8} (h : d.Sees bs) :
    bs.length ≤ d.remaining := by
  have hle := h.length_le hd.pos_le
  simp only [remaining]
  omega

theorem Sees.of_start {data bs : List UInt8} (h : (Decoder.mk data 0).Sees bs) :
    data.take bs.length = bs :=
  (List.prefix_iff_eq_take.mp (by simpa [Sees] using h)).symm

end Decoder

/-! ## The reading primitives -/

theorem readByte_eq_ok {d d' : Decoder} {b : UInt8} :
    readByte d = (.ok b, d') ↔ d.Sees [b] ∧ d' = d.advance 1 := by
  have hsees : d.Sees [b] ↔ d.data[d.pos]? = some b := by
    rw [Decoder.Sees, List.singleton_prefix_iff_head?_eq_some, List.head?_drop]
  rw [hsees]
  unfold readByte
  split
  · next h => simp [h]
  · next c h => simp [h, Decoder.advance, eq_comm]

theorem readByte_ne_panic {d d' : Decoder} {reason : RuntimePanic} :
    readByte d ≠ (.panic reason, d') := by
  unfold readByte
  split <;> simp

theorem readByte_ne_outOfFuel {d d' : Decoder} : readByte d ≠ (.outOfFuel, d') := by
  unfold readByte
  split <;> simp

/-- Past the last `int` the slice bounds are out of order. -/
theorem readN_of_overflow {d : Decoder} (hd : d.Valid) {n : ℤ} (hn : n < 2 ^ 63) (hpos : 0 ≤ n)
    (h : 2 ^ 63 ≤ d.pos + n) : readN n d = (.panic .sliceBounds, d) := by
  have hlen := hd.length_lt
  have hle := hd.pos_le
  have hwrap : wrapInt64 (d.pos + n) = d.pos + n - 2 ^ 64 :=
    wrapInt64_of_overflow h (by omega)
  unfold readN
  simp only [hwrap]
  rw [if_neg (by omega), if_pos (by omega)]

theorem readN_of_short {d : Decoder} (hd : d.Valid) {n : ℤ} (h : d.pos + n < 2 ^ 63)
    (hshort : n < 0 ∨ d.data.length < d.pos + n) : readN n d = (.error .unexpectedEOF, d) := by
  unfold readN
  rcases lt_or_ge n 0 with hneg | hpos
  · simp [hneg]
  · have hle := hd.pos_le
    have hwrap : wrapInt64 (d.pos + n) = d.pos + n := wrapInt64_of_fits (by omega) h
    simp only [hwrap]
    rw [if_pos (by omega)]

theorem readN_of_sees {d : Decoder} (hd : d.Valid) {bs : List UInt8} (h : d.Sees bs) :
    readN bs.length d = (.ok bs, d.advance bs.length) := by
  have hle := h.length_le hd.pos_le
  have hlen := hd.length_lt
  have hwrap : wrapInt64 ((d.pos : ℤ) + bs.length) = d.pos + bs.length :=
    wrapInt64_of_fits (by omega) (by omega)
  have htake : (d.data.drop d.pos).take bs.length = bs :=
    (List.prefix_iff_eq_take.mp h).symm
  unfold readN
  simp only [hwrap]
  rw [if_neg (by omega), if_neg (by omega)]
  have hcount : ((d.pos : ℤ) + bs.length - d.pos).toNat = bs.length := by omega
  have hstop : ((d.pos : ℤ) + bs.length).toNat = d.pos + bs.length := by omega
  rw [hcount, hstop, htake]
  rfl

/-- The three ways `readN` ends. -/
theorem readN_cases {d : Decoder} (hd : d.Valid) {n : ℤ} (hn : n < 2 ^ 63) :
    (readN n d = (.error .unexpectedEOF, d)) ∨
    (0 ≤ n ∧ 2 ^ 63 ≤ d.pos + n ∧ readN n d = (.panic .sliceBounds, d)) ∨
    (∃ bs : List UInt8, n = bs.length ∧ d.Sees bs ∧ readN n d = (.ok bs, d.advance bs.length)) := by
  rcases lt_or_ge ((d.pos : ℤ) + n) (2 ^ 63) with hfits | hover
  · by_cases hshort : n < 0 ∨ d.data.length < d.pos + n
    · exact .inl (readN_of_short hd hfits hshort)
    · right; right
      push Not at hshort
      obtain ⟨hnonneg, hle⟩ := hshort
      have hlength : ((d.data.drop d.pos).take n.toNat).length = n.toNat := by
        rw [List.length_take, List.length_drop]
        omega
      have hsees : d.Sees ((d.data.drop d.pos).take n.toNat) := List.take_prefix _ _
      refine ⟨_, by omega, hsees, ?_⟩
      have hread := readN_of_sees hd hsees
      rwa [show ((((d.data.drop d.pos).take n.toNat).length : ℕ) : ℤ) = n by omega] at hread
  · have hnonneg : 0 ≤ n := by
      have := hd.length_lt
      have := hd.pos_le
      omega
    exact .inr (.inl ⟨hnonneg, hover, readN_of_overflow hd hn hnonneg hover⟩)

theorem readN_eq_ok {d d' : Decoder} (hd : d.Valid) {n : ℤ} (hn : n < 2 ^ 63) {bs : List UInt8} :
    readN n d = (.ok bs, d') ↔ n = bs.length ∧ d.Sees bs ∧ d' = d.advance bs.length := by
  constructor
  · intro h
    rcases readN_cases hd hn with herr | ⟨_, _, hpanic⟩ | ⟨bs', hlen, hsees, hok⟩
    · simp [herr] at h
    · simp [hpanic] at h
    · rw [hok] at h
      simp only [Prod.mk.injEq, Outcome.ok.injEq] at h
      obtain ⟨rfl, rfl⟩ := h
      exact ⟨hlen, hsees, rfl⟩
  · rintro ⟨rfl, hsees, rfl⟩
    exact readN_of_sees hd hsees

theorem readN_eq_panic {d d' : Decoder} (hd : d.Valid) {n : ℤ} (hn : n < 2 ^ 63)
    {reason : RuntimePanic} :
    readN n d = (.panic reason, d') ↔
      0 ≤ n ∧ 2 ^ 63 ≤ d.pos + n ∧ reason = .sliceBounds ∧ d' = d := by
  constructor
  · intro h
    rcases readN_cases hd hn with herr | ⟨hnonneg, hover, hpanic⟩ | ⟨bs', _, _, hok⟩
    · simp [herr] at h
    · rw [hpanic] at h
      simp only [Prod.mk.injEq, Outcome.panic.injEq] at h
      exact ⟨hnonneg, hover, h.1.symm, h.2.symm⟩
    · simp [hok] at h
  · rintro ⟨hnonneg, hover, rfl, rfl⟩
    exact readN_of_overflow hd hn hnonneg hover

theorem readN_ne_outOfFuel {d d' : Decoder} {n : ℤ} : readN n d ≠ (.outOfFuel, d') := by
  unfold readN
  dsimp only
  split_ifs <;> simp

/-! ## The argument of a head -/

theorem bigEndianUint16_putUint16 (x : UInt16) : bigEndianUint16 (putUint16 x) = x := by
  rw [bigEndianUint16, decode_putUint16]
  exact UInt16.ofNat_toNat

theorem bigEndianUint32_putUint32 (x : UInt32) : bigEndianUint32 (putUint32 x) = x := by
  rw [bigEndianUint32, decode_putUint32]
  exact UInt32.ofNat_toNat

theorem bigEndianUint64_putUint64 (x : UInt64) : bigEndianUint64 (putUint64 x) = x := by
  rw [bigEndianUint64, decode_putUint64]
  exact UInt64.ofNat_toNat

theorem bigEndianUint16_toUInt64 {b : List UInt8} (h : b.length = 2) :
    (bigEndianUint16 b).toUInt64 = UInt64.ofNat (BigEndian.decode b) := by
  have hlt : BigEndian.decode b < 65536 := by simpa [h] using BigEndian.decode_lt b
  apply UInt64.toNat_inj.mp
  simp only [bigEndianUint16, UInt16.toNat_toUInt64, UInt16.toNat_ofNat', UInt64.toNat_ofNat']
  omega

theorem bigEndianUint32_toUInt64 {b : List UInt8} (h : b.length = 4) :
    (bigEndianUint32 b).toUInt64 = UInt64.ofNat (BigEndian.decode b) := by
  have hlt : BigEndian.decode b < 4294967296 := by simpa [h] using BigEndian.decode_lt b
  apply UInt64.toNat_inj.mp
  simp only [bigEndianUint32, UInt32.toNat_toUInt64, UInt32.toNat_ofNat', UInt64.toNat_ofNat']
  omega

/-- The argument as `readArg` delivers it. -/
def Head.arg (h : Head) : UInt64 := UInt64.ofNat h.count

theorem Head.toNat_arg {h : Head} (hv : h.Valid) : h.arg.toNat = h.count := by
  have hlt := h.count_lt hv
  simp only [Head.arg, UInt64.toNat_ofNat']
  exact Nat.mod_eq_of_lt hlt

/-- An argument of `width` bytes, read by `readN` and converted by `convert`. -/
theorem readArg_bytes {d d' : Decoder} (hd : d.Valid) {initial : UInt8} {width : ℕ}
    (hwidth : Head.argumentWidth (initial &&& 0x1f) = some width) (hsmall : width < 2 ^ 63)
    (hinfo : ¬initial &&& 0x1f < 24) (hdef : ¬initial &&& 0x1f = 31)
    (convert : List UInt8 → UInt64)
    (hconvert : ∀ b : List UInt8, b.length = width →
      convert b = UInt64.ofNat (BigEndian.decode b)) {arg : UInt64} {indef : Bool} :
    (do let b ← readN width; pure (convert b, false) : DecodeM (UInt64 × Bool)) d =
        (.ok (arg, indef), d') ↔
      ∃ argument, (Head.mk initial argument).Valid ∧ d.Sees argument ∧
        d' = d.advance argument.length ∧ arg = (Head.mk initial argument).arg ∧
        indef = decide (Head.mk initial argument).Indefinite := by
  have hcount (argument : List UInt8) : (Head.mk initial argument).arg =
      UInt64.ofNat (BigEndian.decode argument) := by
    rw [Head.arg, Head.count, Head.info, if_neg hinfo]
  have hindef (argument : List UInt8) : ¬(Head.mk initial argument).Indefinite := hdef
  rw [Action.bind_eq_ok]
  constructor
  · rintro ⟨b, d₁, hread, hpure⟩
    obtain ⟨hlen, hsees, rfl⟩ := (readN_eq_ok hd (by exact_mod_cast hsmall)).mp hread
    simp only [Action.pure_apply, Prod.mk.injEq, Outcome.ok.injEq] at hpure
    obtain ⟨⟨rfl, rfl⟩, rfl⟩ := hpure
    have hlen' : b.length = width := by exact_mod_cast hlen.symm
    refine ⟨b, ?_, hsees, rfl, ?_, ?_⟩
    · rw [Head.Valid, Head.info, hwidth, hlen']
    · rw [hcount, hconvert b hlen']
    · simp [hindef]
  · rintro ⟨argument, hvalid, hsees, rfl, rfl, rfl⟩
    have hlen : argument.length = width := by
      rw [Head.Valid, Head.info, hwidth] at hvalid
      exact (Option.some.inj hvalid).symm
    refine ⟨argument, d.advance argument.length, ?_, ?_⟩
    · rw [← hlen]
      exact readN_of_sees hd hsees
    · simp [hcount, hconvert argument hlen, hindef]

theorem argumentWidth_of_reserved {ai : UInt8} (h24 : ¬ai < 24) (h25 : ¬ai = 24)
    (h26 : ¬ai = 25) (h27 : ¬ai = 26) (h28 : ¬ai = 27) (h31 : ¬ai = indefinite) :
    Head.argumentWidth ai = none := by
  simp only [Head.argumentWidth, h24, h25, h26, h27, h28, if_false]
  exact if_neg h31

/-- An argument without bytes of its own. -/
theorem readArg_pure {d d' : Decoder} {initial : UInt8} {value : UInt64} {isOpen : Bool}
    (hwidth : Head.argumentWidth (initial &&& 0x1f) = some 0)
    (hvalue : (Head.mk initial []).arg = value)
    (hopen : decide (Head.mk initial []).Indefinite = isOpen) {arg : UInt64} {indef : Bool} :
    (pure (value, isOpen) : DecodeM (UInt64 × Bool)) d = (.ok (arg, indef), d') ↔
      ∃ argument, (Head.mk initial argument).Valid ∧ d.Sees argument ∧
        d' = d.advance argument.length ∧ arg = (Head.mk initial argument).arg ∧
        indef = decide (Head.mk initial argument).Indefinite := by
  constructor
  · intro h
    simp only [Action.pure_apply, Prod.mk.injEq, Outcome.ok.injEq] at h
    obtain ⟨⟨rfl, rfl⟩, rfl⟩ := h
    exact ⟨[], hwidth, d.sees_nil, rfl, hvalue.symm, hopen.symm⟩
  · rintro ⟨argument, hvalid, -, rfl, rfl, rfl⟩
    rw [Head.Valid, Head.info, hwidth] at hvalid
    obtain rfl : argument = [] := List.length_eq_zero_iff.mp (Option.some.inj hvalid).symm
    rw [Action.pure_apply, hvalue, hopen]
    rfl

/-- An argument of one byte. -/
theorem readArg_byte {d d' : Decoder} {initial : UInt8} (h24 : initial &&& 0x1f = 24) {arg : UInt64}
    {indef : Bool} :
    (do let b ← readByte; pure (b.toUInt64, false) : DecodeM (UInt64 × Bool)) d =
        (.ok (arg, indef), d') ↔
      ∃ argument, (Head.mk initial argument).Valid ∧ d.Sees argument ∧
        d' = d.advance argument.length ∧ arg = (Head.mk initial argument).arg ∧
        indef = decide (Head.mk initial argument).Indefinite := by
  have hwidth : Head.argumentWidth (initial &&& 0x1f) = some 1 := by rw [h24]; rfl
  have hindef : ¬initial &&& 0x1f = 31 := by rw [h24]; decide
  have hcount (b : UInt8) : (Head.mk initial [b]).arg = b.toUInt64 := by
    rw [Head.arg, Head.count, Head.info, if_neg (by rw [h24]; decide)]
    apply UInt64.toNat_inj.mp
    simp [BigEndian.decode]
  rw [Action.bind_eq_ok]
  constructor
  · rintro ⟨b, d₁, hread, hpure⟩
    obtain ⟨hsees, rfl⟩ := readByte_eq_ok.mp hread
    simp only [Action.pure_apply, Prod.mk.injEq, Outcome.ok.injEq] at hpure
    obtain ⟨⟨rfl, rfl⟩, rfl⟩ := hpure
    refine ⟨[b], hwidth, hsees, rfl, (hcount b).symm, ?_⟩
    exact (decide_eq_false hindef).symm
  · rintro ⟨argument, hvalid, hsees, rfl, rfl, rfl⟩
    rw [Head.Valid, Head.info, hwidth] at hvalid
    obtain ⟨b, rfl⟩ := List.length_eq_one_iff.mp (Option.some.inj hvalid).symm
    refine ⟨b, d.advance 1, readByte_eq_ok.mpr ⟨hsees, rfl⟩, ?_⟩
    rw [Action.pure_apply, hcount, decide_eq_false (p := (Head.mk initial [b]).Indefinite) hindef]
    rfl

theorem readArg_eq_ok {d d' : Decoder} (hd : d.Valid) {initial : UInt8} {arg : UInt64}
    {indef : Bool} :
    readArg (initial &&& 0x1f) d = (.ok (arg, indef), d') ↔
      ∃ argument, (Head.mk initial argument).Valid ∧ d.Sees argument ∧
        d' = d.advance argument.length ∧ arg = (Head.mk initial argument).arg ∧
        indef = decide (Head.mk initial argument).Indefinite := by
  unfold readArg
  split_ifs with h24 h25 h26 h27 h28 h31
  · have hindef : ¬initial &&& 0x1f = 31 := by
      intro h
      rw [h] at h24
      exact absurd h24 (by decide)
    apply readArg_pure
    · simp [Head.argumentWidth, h24]
    · rw [Head.arg, Head.count, Head.info, if_pos h24]
      apply UInt64.toNat_inj.mp
      simp
    · exact decide_eq_false hindef
  · exact readArg_byte h25
  · exact readArg_bytes hd (by rw [h26]; rfl) (by norm_num) h24 (by rw [h26]; decide) _
      (fun _ ↦ bigEndianUint16_toUInt64)
  · exact readArg_bytes hd (by rw [h27]; rfl) (by norm_num) h24 (by rw [h27]; decide) _
      (fun _ ↦ bigEndianUint32_toUInt64)
  · exact readArg_bytes hd (by rw [h28]; rfl) (by norm_num) h24 (by rw [h28]; decide) _
      (fun _ _ ↦ rfl)
  · apply readArg_pure
    · rw [h31]
      rfl
    · rw [Head.arg, Head.count, Head.info, if_neg h24]
      rfl
    · exact decide_eq_true h31
  · constructor
    · intro h
      simp at h
    · rintro ⟨argument, hvalid, -⟩
      rw [Head.Valid, Head.info, argumentWidth_of_reserved h24 h25 h26 h27 h28 h31] at hvalid
      exact absurd hvalid (by simp)

/-- `readArg` panics only where the argument itself would end past the last `int`. -/
theorem readArg_eq_panic {d d' : Decoder} (hd : d.Valid) {ai : UInt8} {reason : RuntimePanic} :
    readArg ai d = (.panic reason, d') ↔
      ∃ width, Head.argumentWidth ai = some width ∧ 2 ≤ width ∧ 2 ^ 63 ≤ d.pos + width ∧
        reason = .sliceBounds ∧ d' = d := by
  have hwide {n : ℕ} (hn : 2 ≤ n) (hsmall : n < 2 ^ 63) {β : Type} (convert : List UInt8 → β) :
      (do let b ← readN n; pure (convert b) : DecodeM β) d = (.panic reason, d') ↔
        2 ≤ n ∧ 2 ^ 63 ≤ d.pos + n ∧ reason = .sliceBounds ∧ d' = d := by
    rw [Action.bind_eq_panic, readN_eq_panic hd (by exact_mod_cast hsmall)]
    constructor
    · rintro (⟨-, hover, rfl, rfl⟩ | ⟨b, d₁, -, hpure⟩)
      · exact ⟨hn, by exact_mod_cast hover, rfl, rfl⟩
      · simp at hpure
    · rintro ⟨-, hover, rfl, rfl⟩
      exact .inl ⟨by omega, by exact_mod_cast hover, rfl, rfl⟩
  unfold readArg Head.argumentWidth
  split_ifs with h24 h25 h26 h27 h28 h31
  · simp
  · have hpanic : ¬(do let b ← readByte; pure (b.toUInt64, false) : DecodeM (UInt64 × Bool)) d =
        (.panic reason, d') := by
      rw [Action.bind_eq_panic]
      rintro (h | ⟨b, d₁, -, hpure⟩)
      · exact readByte_ne_panic h
      · simp at hpure
    exact iff_of_false hpanic (by simp)
  · simpa using hwide (n := 2) le_rfl (by norm_num) _
  · simpa using hwide (n := 4) (by norm_num) (by norm_num) _
  · simpa using hwide (n := 8) (by norm_num) (by norm_num) _
  · simp
  · contradiction
  · contradiction
  · simp

end Zenith.Cbor
