import Zenith.Go.Runtime

/-!
# Numbers in text

Decimal numbers consist of digits and determine the number. So the last of several parts that are
joined by a separator can be told from the rest where it is a number.
-/

namespace Zenith.Go

theorem lit_injective : Function.Injective lit := by
  intro s t h
  apply String.toByteArray_inj.mp
  have hdata : s.toUTF8.data = t.toUTF8.data := Array.toList_inj.mp h
  exact ByteArray.ext hdata

theorem lit_ofList (chars : List Char) :
    lit (String.ofList chars) = chars.flatMap String.utf8EncodeChar := by
  unfold lit
  rw [String.toUTF8_eq_toByteArray, String.toByteArray_ofList, List.utf8Encode,
    List.toList_data_toByteArray]

theorem decimal_injective : Function.Injective decimal := by
  intro n m h
  have hrepr : n.repr = m.repr := lit_injective h
  calc
    n = Nat.ofDigitChars 10 n.repr.toList 0 := by simp
    _ = Nat.ofDigitChars 10 m.repr.toList 0 := by rw [hrepr]
    _ = m := by simp

theorem isDigit_of_mem_toDigits {n : ℕ} {c : Char} (h : c ∈ Nat.toDigits 10 n) :
    48 ≤ c.toNat ∧ c.toNat ≤ 57 := by
  have hbounds := Nat.isDigit_of_mem_toDigits (by norm_num) (by norm_num) h
  unfold Char.isDigit at hbounds
  rw [Bool.and_eq_true, decide_eq_true_iff, decide_eq_true_iff] at hbounds
  exact hbounds

/-- A decimal number is one byte a digit. -/
theorem decimal_eq_map (n : ℕ) :
    decimal n = (Nat.toDigits 10 n).map fun c ↦ UInt8.ofNat c.toNat := by
  unfold decimal
  rw [Nat.repr_eq_ofList_toDigits, lit_ofList, List.map_eq_flatMap]
  apply List.flatMap_congr
  intro c hc
  have hsize : c.utf8Size = 1 := by
    unfold Char.utf8Size
    rw [if_pos]
    apply UInt32.le_iff_toNat_le.mpr
    exact (isDigit_of_mem_toDigits hc).2.trans (by norm_num)
  rw [String.utf8EncodeChar_eq_singleton hsize]
  rfl

/-- The bytes of a decimal number are digits. -/
theorem digit_of_mem_decimal {n : ℕ} {b : UInt8} (h : b ∈ decimal n) : 48 ≤ b ∧ b ≤ 57 := by
  rw [decimal_eq_map, List.mem_map] at h
  obtain ⟨c, hc, rfl⟩ := h
  have hdigit := isDigit_of_mem_toDigits hc
  have hbyte : (UInt8.ofNat c.toNat).toNat = c.toNat := by
    rw [UInt8.toNat_ofNat']
    omega
  rw [UInt8.le_iff_toNat_le, UInt8.le_iff_toNat_le, hbyte]
  exact hdigit

theorem not_mem_decimal {b : UInt8} (h : b < 48 ∨ 57 < b) (n : ℕ) : b ∉ decimal n := by
  intro hmem
  obtain ⟨hlow, hhigh⟩ := digit_of_mem_decimal hmem
  rcases h with hlt | hlt
  · exact absurd hlow (UInt8.not_le.mpr hlt)
  · exact absurd hhigh (UInt8.not_le.mpr hlt)

/-- What decimal digits denote. -/
def digitsValue (s : GoString) : ℕ := s.foldl (fun n b ↦ n * 10 + (b.toNat - 48)) 0

theorem eq_of_append_cons {sep : UInt8} {s s' t t' : GoString} (ht : sep ∉ t)
    (h : ∃ mid, s' = s ++ mid ∧ sep :: t = mid ++ sep :: t') : s = s' ∧ t = t' := by
  obtain ⟨mid, hs, hsep⟩ := h
  cases mid with
  | nil =>
    rw [List.nil_append, List.cons.injEq] at hsep
    exact ⟨(hs.trans (List.append_nil s)).symm, hsep.2⟩
  | cons b mid =>
    rw [List.cons_append, List.cons.injEq] at hsep
    exact absurd (hsep.2 ▸ List.mem_append_right mid List.mem_cons_self) ht

/-- What follows the last separator can be told from what is in front of it. -/
theorem append_cons_inj {sep : UInt8} {s s' t t' : GoString} (ht : sep ∉ t) (ht' : sep ∉ t') :
    s ++ sep :: t = s' ++ sep :: t' ↔ s = s' ∧ t = t' := by
  constructor
  · intro h
    rcases List.append_eq_append_iff.mp h with hlonger | hshorter
    · exact eq_of_append_cons ht hlonger
    · obtain ⟨hs, ht⟩ := eq_of_append_cons ht' hshorter
      exact ⟨hs.symm, ht.symm⟩
  · intro ⟨hs, ht⟩
    rw [hs, ht]

end Zenith.Go
