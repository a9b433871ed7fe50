import Zenith.Contactplan.Load
import Zenith.Data.Rounding
import Zenith.Go.Text

/-!
# The printed contact plan

The text that `export_contacts` prints: a document with one line for each contact, whose times and rates
are decimals of a fixed number of places. A decimal denotes the number it was rounded to, and is read back
as the double nearest to that.
-/

namespace Zenith.Contactplan

open Go BinaryFloat

/-! ## Decimals -/

/-- The number that the format `{:.n}` rounds to. -/
def fixed (digits : ℕ) (x : ℚ) : ℚ := nearestEven (x * 10 ^ digits) / 10 ^ digits

/-- With zeros in front. -/
def padded (width n : ℕ) : GoString := List.replicate (width - (decimal n).length) 48 ++ decimal n

/-- What the format `{:.n}` prints. -/
def formatFixed (digits : ℕ) (x : ℚ) : GoString :=
  let units := (nearestEven (x * 10 ^ digits)).natAbs
  let text := decimal (units / 10 ^ digits) ++ 46 :: padded digits (units % 10 ^ digits)
  if x < 0 then 45 :: text else text

/-- What a decimal without a sign denotes. -/
def unsignedValue (s : GoString) : ℚ :=
  let whole := s.takeWhile (· ≠ 46)
  let fraction := s.drop (whole.length + 1)
  digitsValue (whole ++ fraction) / 10 ^ fraction.length

def decimalValue (s : GoString) : ℚ :=
  if s.head? = some 45 then -unsignedValue s.tail else unsignedValue s

/-- The double that a printed decimal is read as. -/
def reread (digits : ℕ) (x : ℚ) : ℚ := binary64.round (fixed digits x)

section Decimals

variable {digits : ℕ} {x y : ℚ}

theorem fixed_mono (h : x ≤ y) : fixed digits x ≤ fixed digits y := by
  apply div_le_div_of_nonneg_right _ (by positivity)
  exact_mod_cast nearestEven_mono (mul_le_mul_of_nonneg_right h (by positivity))

theorem fixed_nonneg (digits : ℕ) (hx : 0 ≤ x) : 0 ≤ fixed digits x := by
  apply div_nonneg _ (by positivity)
  have hscaled : ((0 : ℤ) : ℚ) ≤ x * 10 ^ digits := by
    push_cast
    positivity
  exact_mod_cast le_nearestEven hscaled

theorem abs_fixed_sub_le (digits : ℕ) (x : ℚ) : |fixed digits x - x| ≤ 1 / 2 / 10 ^ digits := by
  have hpow : (0 : ℚ) < 10 ^ digits := by positivity
  have hsplit : fixed digits x - x = (nearestEven (x * 10 ^ digits) - x * 10 ^ digits) / 10 ^ digits := by
    rw [fixed, sub_div, mul_div_cancel_right₀ _ hpow.ne']
  rw [hsplit, abs_div, abs_of_pos hpow]
  exact div_le_div_of_nonneg_right (abs_nearestEven_sub_le _) hpow.le

theorem reread_nonneg (hx : 0 ≤ x) : 0 ≤ reread digits x :=
  binary64.round_nonneg (fixed_nonneg digits hx)

theorem reread_mono (hx : 0 ≤ x) (h : x ≤ y) : reread digits x ≤ reread digits y := by
  rcases (fixed_nonneg digits hx).eq_or_lt with hzero | hpos
  · rw [reread, ← hzero, Format.round_zero]
    exact reread_nonneg (hx.trans h)
  · exact Format.round_mono hpos (fixed_mono h)

/-- What is read back is off by half a unit of the last digit, and by the rounding of a double. -/
theorem abs_reread_sub_le (digits : ℕ) (hx : 0 ≤ x) (hlt : x ≤ 10 ^ 8 + 1) :
    |reread digits x - x| ≤ 1 / 2 / 10 ^ digits + 1 / 2 ^ 27 := by
  have hfixed := abs_fixed_sub_le digits x
  have hrounded : |binary64.round (fixed digits x) - fixed digits x| ≤ 1 / 2 ^ 27 := by
    rcases (fixed_nonneg digits hx).eq_or_lt with hzero | hpos
    · rw [← hzero, Format.round_zero, sub_zero, abs_zero]
      positivity
    · have hhalf : (1 : ℚ) / 2 / 10 ^ digits ≤ 1 / 2 :=
        div_le_self (by norm_num) (one_le_pow₀ (by norm_num))
      have hbelow : fixed digits x < 2 ^ ((26 : ℤ) + 1) := by
        have hclose := (abs_le.mp hfixed).2
        norm_num
        linarith
      have hplace := Format.lastPlace_le_of_lt (f := binary64) hpos hbelow (by decide)
      have hbits : (26 : ℤ) - binary64.fractionBits = -26 := by decide
      rw [hbits] at hplace
      calc
        |binary64.round (fixed digits x) - fixed digits x| ≤
            2 ^ binary64.lastPlace (fixed digits x) / 2 := binary64.abs_round_sub_le _
        _ ≤ 2 ^ (-26 : ℤ) / 2 := by
          apply div_le_div_of_nonneg_right _ (by norm_num)
          exact zpow_le_zpow_right₀ one_le_two hplace
        _ = 1 / 2 ^ 27 := by norm_num
  calc
    |reread digits x - x| ≤ |reread digits x - fixed digits x| + |fixed digits x - x| :=
      abs_sub_le _ _ _
    _ ≤ 1 / 2 / 10 ^ digits + 1 / 2 ^ 27 := by
      rw [add_comm]
      exact add_le_add hfixed hrounded

end Decimals

/-! ## The document -/

/-- The strings and the numbers of a contact, as the text has them. -/
structure ContactText where
  fromNode : GoString
  toNode : GoString
  startMin : GoString
  endMin : GoString
  dataRateBytesSec : GoString
  owltMs : GoString
  confidence : GoString
  deriving DecidableEq, Repr

/-- The format string of `contact_json`. -/
def ContactText.line (c : ContactText) : GoString :=
  lit "\x7b\"from\": \"" ++ c.fromNode ++ lit "\", \"to\": \"" ++ c.toNode ++
    lit "\", \"start_min\": " ++ c.startMin ++ lit ", \"end_min\": " ++ c.endMin ++
    lit ", \"data_rate_bytes_per_sec\": " ++ c.dataRateBytesSec ++ lit ", \"owlt_ms\": " ++ c.owltMs ++
    lit ", \"confidence\": " ++ c.confidence ++ lit "\x7d"

/-- The contact with each number read as the double nearest to its decimal. -/
def ContactText.read (c : ContactText) : ContactJSON where
  fromNode := c.fromNode
  toNode := c.toNode
  startMin := binary64.round (decimalValue c.startMin)
  endMin := binary64.round (decimalValue c.endMin)
  dataRateBytesSec := binary64.round (decimalValue c.dataRateBytesSec)
  owltMs := binary64.round (decimalValue c.owltMs)
  confidence := binary64.round (decimalValue c.confidence)

end Zenith.Contactplan
