import Zenith.Bpv7.RoundTrip
import Zenith.Go.Text

/-!
# The two forms of an endpoint

An endpoint has a text and a CBOR array. Reading the text of what was parsed gives it back whatever
spelling its numbers had, and so does reading the array from its bytes; so the text identifies a parsed
endpoint.
-/

namespace Zenith.Bpv7

open Go Cbor

/-! ## Text of endpoints -/

theorem string_dtn (ssp : GoString) : (DTN ssp).string = lit "dtn:" ++ ssp := rfl

theorem string_null : NullEndpoint.string = lit "dtn:" ++ lit "none" := rfl

theorem string_ipn (node service : UInt64) : (IPN node service).string =
    (lit "ipn:" ++ decimal node.toNat) ++ 46 :: decimal service.toNat := by
  have hdot : lit "." = [46] := by decide
  calc
    (IPN node service).string =
        lit "ipn:" ++ decimal node.toNat ++ lit "." ++ decimal service.toNat := rfl
    _ = (lit "ipn:" ++ decimal node.toNat) ++ 46 :: decimal service.toNat := by
      rw [hdot, List.append_assoc (lit "ipn:" ++ decimal node.toNat), List.singleton_append]

/-- The text of an ipn endpoint does not start like that of a dtn endpoint. -/
theorem string_ipn_ne (node service : UInt64) (ssp : GoString) :
    (IPN node service).string ≠ lit "dtn:" ++ ssp := by
  have hipn : lit "ipn:" = [105, 112, 110, 58] := by decide
  have hdtn : lit "dtn:" = [100, 116, 110, 58] := by decide
  intro h
  rw [string_ipn, hipn, hdtn] at h
  simp at h

/-! ## Reading numbers -/

theorem le_ofDigitChars (cs : List Char) (n : ℕ) : n ≤ Nat.ofDigitChars 10 cs n := by
  induction cs generalizing n with
  | nil => rw [Nat.ofDigitChars_nil]
  | cons c cs ih =>
    rw [Nat.ofDigitChars_cons]
    calc
      n ≤ 10 * n + (c.toNat - '0'.toNat) := by omega
      _ ≤ Nat.ofDigitChars 10 cs (10 * n + (c.toNat - '0'.toNat)) := ih _

/-- The loop of `ParseUint` over digits; a number in range never leaves it on the way. -/
theorem parseDigits_map (cs : List Char) (hcs : ∀ c ∈ cs, 48 ≤ c.toNat ∧ c.toNat ≤ 57) {n : ℕ}
    (hrange : Nat.ofDigitChars 10 cs n < 2 ^ 64) :
    parseDigits n (cs.map fun c ↦ UInt8.ofNat c.toNat) =
      .ok (UInt64.ofNat (Nat.ofDigitChars 10 cs n)) := by
  induction cs generalizing n with
  | nil => rfl
  | cons c cs ih =>
    obtain ⟨hlow, hhigh⟩ := hcs c List.mem_cons_self
    have hbyte : (UInt8.ofNat c.toNat).toNat = c.toNat := by
      rw [UInt8.toNat_ofNat']
      omega
    have hdigit : 48 ≤ UInt8.ofNat c.toNat ∧ UInt8.ofNat c.toNat ≤ 57 := by
      rw [UInt8.le_iff_toNat_le, UInt8.le_iff_toNat_le, hbyte]
      exact ⟨hlow, hhigh⟩
    have hnext : n * 10 + (c.toNat - 48) = 10 * n + (c.toNat - '0'.toNat) := by
      rw [mul_comm]
      rfl
    rw [Nat.ofDigitChars_cons, ← hnext] at hrange
    have hfits : ¬2 ^ 64 ≤ n * 10 + (c.toNat - 48) := by
      have hle := le_ofDigitChars cs (n * 10 + (c.toNat - 48))
      omega
    rw [List.map_cons, parseDigits, if_pos hdigit, hbyte, if_neg hfits, Nat.ofDigitChars_cons,
      ← hnext]
    exact ih (fun d hd ↦ hcs d (List.mem_cons_of_mem c hd)) hrange

theorem parseUint_decimal (x : UInt64) : parseUint (decimal x.toNat) = .ok x := by
  have hne : decimal x.toNat ≠ [] := by
    rw [decimal_eq_map]
    simp
  have hread := parseDigits_map (Nat.toDigits 10 x.toNat) (n := 0)
    fun c hc ↦ isDigit_of_mem_toDigits hc
  rw [Nat.ofDigitChars_ten_toDigits] at hread
  rw [parseUint, if_neg hne, decimal_eq_map, hread x.toNat_lt, UInt64.ofNat_toNat]

/-- The first dot is the one between the numbers. -/
theorem splitDot_append {s : GoString} (hs : 46 ∉ s) (t : GoString) :
    splitDot (s ++ 46 :: t) = (s, some t) := by
  have hall : ∀ b ∈ s, decide (b ≠ 46) = true := by
    intro b hb
    apply decide_eq_true
    intro heq
    exact hs (heq ▸ hb)
  unfold splitDot
  rw [List.dropWhile_append_of_pos hall, List.takeWhile_append_of_pos hall]
  simp

/-! ## Reading endpoints -/

theorem isPrefixOf_append (s t : GoString) : s.isPrefixOf (s ++ t) = true :=
  List.isPrefixOf_iff_prefix.mpr (List.prefix_append s t)

theorem trimPrefix_append (s t : GoString) : trimPrefix (s ++ t) s = t := by
  unfold trimPrefix
  rw [if_pos (isPrefixOf_append s t), List.drop_left]

theorem parseEID_null : ParseEID NullEndpoint.string = .ok NullEndpoint := by
  have hnull : NullEndpoint.string = lit "dtn:none" := rfl
  unfold ParseEID
  rw [if_pos hnull]

/-- The rest of a dtn endpoint may be any text but nothing at all and the name of the null
endpoint. -/
theorem parseEID_dtn {ssp : GoString} (hempty : ssp ≠ []) (hnone : ssp ≠ lit "none") :
    ParseEID (DTN ssp).string = .ok (DTN ssp) := by
  have hnull : lit "dtn:" ++ ssp ≠ lit "dtn:none" := by
    intro heq
    have hsplit : lit "dtn:none" = lit "dtn:" ++ lit "none" := by decide
    rw [hsplit] at heq
    exact hnone (List.append_cancel_left heq)
  rw [string_dtn]
  unfold ParseEID
  dsimp only
  rw [if_neg hnull, if_pos (isPrefixOf_append _ _), trimPrefix_append, if_neg hempty]
  rfl

theorem parseEID_ipn (node service : UInt64) :
    ParseEID (IPN node service).string = .ok (IPN node service) := by
  have hnull : (IPN node service).string ≠ lit "dtn:none" := string_ipn_ne node service (lit "none")
  have hdtn : ¬(lit "dtn:").isPrefixOf (IPN node service).string = true := by
    intro h
    obtain ⟨ssp, hssp⟩ := List.isPrefixOf_iff_prefix.mp h
    exact string_ipn_ne node service ssp hssp.symm
  have htext : (IPN node service).string =
      lit "ipn:" ++ (decimal node.toNat ++ 46 :: decimal service.toNat) := by
    rw [string_ipn, List.append_assoc]
  unfold ParseEID
  dsimp only
  rw [if_neg hnull, if_neg hdtn, htext, if_pos (isPrefixOf_append _ _), trimPrefix_append,
    splitDot_append (not_mem_decimal (by decide) _)]
  simp only [parseUint_decimal]
  rfl

/-- What `ParseEID` returns, by scheme. -/
theorem parseEID_cases {uri : GoString} {e : EndpointID} (h : ParseEID uri = .ok e) :
    e = NullEndpoint ∨ (∃ ssp, ssp ≠ [] ∧ ssp ≠ lit "none" ∧ e = DTN ssp) ∨
      ∃ node service, e = IPN node service := by
  unfold ParseEID at h
  dsimp only at h
  split_ifs at h with hnull hdtn hempty hipn
  · exact .inl (Except.ok.inj h).symm
  · obtain ⟨ssp, rfl⟩ := List.isPrefixOf_iff_prefix.mp hdtn
    rw [trimPrefix_append] at h hempty
    refine .inr (.inl ⟨ssp, hempty, ?_, (Except.ok.inj h).symm⟩)
    intro hnone
    rw [hnone] at hnull
    exact hnull (by decide)
  · split at h
    · simp at h
    · split at h
      · simp at h
      · split at h
        · simp at h
        · exact .inr (.inr ⟨_, _, (Except.ok.inj h).symm⟩)

/-- The text of a parsed endpoint is parsed to the same endpoint. -/
theorem parseEID_string {uri : GoString} {e : EndpointID} (h : ParseEID uri = .ok e) :
    ParseEID e.string = .ok e := by
  rcases parseEID_cases h with rfl | ⟨ssp, hempty, hnone, rfl⟩ | ⟨node, service, rfl⟩
  · exact parseEID_null
  · exact parseEID_dtn hempty hnone
  · exact parseEID_ipn node service

/-- Both forms of a parsed endpoint are read back, and its text is its own. -/
theorem parseEID_forms {uri : GoString} {e : EndpointID} (h : ParseEID uri = .ok e) :
    ParseEID e.string = .ok e ∧
      (∃ bs, marshal (.array e.toCBOR) = .ok bs ∧
        (bs.length < 2 ^ 63 → ∃ v, Cbor.unmarshal bs = (.ok v, bs.length) ∧
          eidFromCBOR v = .ok e)) ∧
      ∀ (uri' : GoString) (e' : EndpointID), ParseEID uri' = .ok e' →
        (e = e' ↔ e.string = e'.string) := by
  refine ⟨parseEID_string h, ?_, ?_⟩
  · have hfield := e.fieldValue_toCBOR
    refine ⟨_, hfield.encodable.marshal_eq, fun hlen ↦ ⟨.array e.toCBOR, ?_, ?_⟩⟩
    · have hread := hfield.encodable.unmarshal_bytes [] (by simpa using hlen)
      rwa [List.append_nil, hfield.definite_eq] at hread
    · exact (made_of_parseEID h).eidFromCBOR_toCBOR
  · intro uri' e' h'
    constructor
    · intro heq
      rw [heq]
    · intro heq
      have hread := parseEID_string h
      rw [heq, parseEID_string h'] at hread
      exact (Except.ok.inj hread).symm

/-- Leading zeros are not part of an endpoint. -/
theorem parseEID_forms_zeros : ParseEID (IPN 7 1).string = .ok (IPN 7 1) := by
  have hzeros : ParseEID (lit "ipn:007.01") = .ok (IPN 7 1) := by decide +kernel
  exact (parseEID_forms hzeros).1

end Zenith.Bpv7
