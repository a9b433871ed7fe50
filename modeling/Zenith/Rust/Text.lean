import Zenith.Rust.Runtime

/-!
# Rust text

A `str` is the list of its characters, addressed by byte offsets into its UTF-8 form. Only offsets
between characters can be sliced at.
-/

namespace Zenith.Rust

abbrev Str := List Char

namespace Str

/-- `str::len`, in bytes. -/
def len (s : Str) : ℕ := (s.map Char.utf8Size).sum

def asBytes (s : Str) : List UInt8 := s.flatMap String.utf8EncodeChar

/-- `split_at`, which panics inside a character and past the end. -/
def splitAt : Str → ℕ → Option (Str × Str)
  | [], mid => if mid = 0 then some ([], []) else none
  | c :: s, mid =>
    if mid = 0 then some ([], c :: s)
    else if c.utf8Size ≤ mid then
      (splitAt s (mid - c.utf8Size)).map fun (left, right) ↦ (c :: left, right)
    else none

/-- `&s[start..stop]`. -/
def slice (s : Str) (start stop : ℕ) : Option Str := do
  let (left, _) ← splitAt s stop
  let (_, middle) ← splitAt left start
  some middle

/-- An offset between two characters, or at either end. -/
def IsCharBoundary (s : Str) (i : ℕ) : Prop := ∃ left right, s = left ++ right ∧ len left = i

@[simp] theorem len_nil : len [] = 0 := rfl

@[simp] theorem len_cons (c : Char) (s : Str) : len (c :: s) = c.utf8Size + len s := by
  simp [len]

@[simp] theorem len_append (s t : Str) : len (s ++ t) = len s + len t := by
  simp [len]

theorem len_eq_zero {s : Str} : len s = 0 ↔ s = [] := by
  cases s with
  | nil => simp
  | cons c s =>
    have hpos := c.utf8Size_pos
    simp
    omega

theorem splitAt_eq_some {s left right : Str} {mid : ℕ} :
    splitAt s mid = some (left, right) ↔ s = left ++ right ∧ len left = mid := by
  induction s generalizing mid left with
  | nil =>
    rw [splitAt]
    constructor
    · intro h
      split_ifs at h with hmid
      cases h
      exact ⟨rfl, hmid.symm⟩
    · rintro ⟨happend, rfl⟩
      obtain ⟨rfl, rfl⟩ := List.nil_eq_append_iff.mp happend
      exact if_pos rfl
  | cons c s ih =>
    have hpos := c.utf8Size_pos
    rw [splitAt]
    constructor
    · intro h
      split_ifs at h with hmid hfits
      · cases h
        exact ⟨rfl, hmid.symm⟩
      · obtain ⟨⟨left', right'⟩, hsplit, hpair⟩ := Option.map_eq_some_iff.mp h
        cases hpair
        obtain ⟨rfl, hlen⟩ := ih.mp hsplit
        refine ⟨rfl, ?_⟩
        rw [len_cons, hlen]
        omega
    · rintro ⟨happend, rfl⟩
      rcases List.cons_eq_append_iff.mp happend with ⟨rfl, rfl⟩ | ⟨left', rfl, rfl⟩
      · exact if_pos rfl
      · have hsplit : splitAt (left' ++ right) (len left') = some (left', right) := ih.mpr ⟨rfl, rfl⟩
        rw [len_cons, if_neg (by omega), if_pos (by omega), Nat.add_sub_cancel_left, hsplit]
        rfl

theorem isSome_splitAt_iff {s : Str} {mid : ℕ} :
    (splitAt s mid).isSome = true ↔ s.IsCharBoundary mid := by
  simp only [Option.isSome_iff_exists, Prod.exists, splitAt_eq_some, IsCharBoundary]

theorem slice_eq_some {s middle : Str} {start stop : ℕ} :
    slice s start stop = some middle ↔
      ∃ left right, s = left ++ middle ++ right ∧ len left = start ∧ len (left ++ middle) = stop := by
  unfold slice
  simp only [bind, Option.bind_eq_some_iff, Prod.exists, splitAt_eq_some, Option.some.injEq]
  constructor
  · rintro ⟨_, right, ⟨rfl, hstop⟩, left, _, ⟨rfl, hstart⟩, rfl⟩
    exact ⟨left, right, rfl, hstart, hstop⟩
  · rintro ⟨left, right, rfl, hstart, hstop⟩
    exact ⟨_, right, ⟨rfl, hstop⟩, left, middle, ⟨rfl, hstart⟩, rfl⟩

/-- A slice needs a boundary at either end. -/
theorem isSome_slice_iff {s : Str} {start stop : ℕ} (h : start ≤ stop) :
    (slice s start stop).isSome = true ↔ s.IsCharBoundary start ∧ s.IsCharBoundary stop := by
  rw [Option.isSome_iff_exists]
  simp only [slice_eq_some]
  constructor
  · rintro ⟨middle, left, right, rfl, hstart, hstop⟩
    exact ⟨⟨left, middle ++ right, List.append_assoc _ _ _, hstart⟩, _, right, rfl, hstop⟩
  · rintro ⟨⟨left, rest, rfl, rfl⟩, left', right, happend, rfl⟩
    rcases List.append_eq_append_iff.mp happend with ⟨middle, rfl, rfl⟩ | ⟨middle, rfl, rfl⟩
    · exact ⟨middle, left, right, (List.append_assoc _ _ _).symm, rfl, rfl⟩
    · -- The offsets agree, so that nothing lies between them.
      have hempty : middle = [] := by
        rw [← len_eq_zero]
        rw [len_append] at h
        omega
      subst hempty
      exact ⟨[], left', rest, by simp, by simp, by simp⟩

/-! ## White space and lines -/

/-- `char::is_whitespace`. -/
def isWhitespace (c : Char) : Bool :=
  let n := c.toNat
  (9 ≤ n ∧ n ≤ 13) ∨ n = 0x20 ∨ n = 0x85 ∨ n = 0xA0 ∨ n = 0x1680 ∨ (0x2000 ≤ n ∧ n ≤ 0x200A) ∨
    n = 0x2028 ∨ n = 0x2029 ∨ n = 0x202F ∨ n = 0x205F ∨ n = 0x3000

def trimEnd (s : Str) : Str := s.rdropWhile isWhitespace

def trim (s : Str) : Str := trimEnd (s.dropWhile isWhitespace)

/-- A line without its line feed and the carriage return before it, given in reverse. -/
def endLine : Str → Str
  | '\r' :: line => line.reverse
  | line => line.reverse

/-- `str::lines`; `line` is what was read of the current line, in reverse. -/
def linesFrom (line : Str) : Str → List Str
  | [] => if line = [] then [] else [line.reverse]
  | '\n' :: rest => endLine line :: linesFrom [] rest
  | c :: rest => linesFrom (c :: line) rest

def lines (s : Str) : List Str := linesFrom [] s

/-! ## Numbers -/

def digit (c : Char) : Option ℕ := if '0' ≤ c ∧ c ≤ '9' then some (c.toNat - 48) else none

/-- The digits of an unsigned number below `bound`, after the value `n` of those before them. -/
def parseDigits (bound : ℕ) : ℕ → Str → Option ℕ
  | n, [] => some n
  | n, c :: rest => do
    let d ← digit c
    if n * 10 + d < bound then parseDigits bound (n * 10 + d) rest else none

/-- `str::parse::<u32>`. -/
def parseU32 (s : Str) : Option UInt32 :=
  match s with
  | [] => none
  | ['+'] => none
  | '+' :: digits => (parseDigits (2 ^ 32) 0 digits).map UInt32.ofNat
  | digits => (parseDigits (2 ^ 32) 0 digits).map UInt32.ofNat

theorem length_le_len (s : Str) : s.length ≤ s.len := by
  induction s with
  | nil => exact le_rfl
  | cons c s ih =>
    have hpos := c.utf8Size_pos
    rw [len_cons, List.length_cons]
    omega

theorem length_trim_le (s : Str) : (trim s).length ≤ s.length := by
  calc
    (trim s).length ≤ (s.dropWhile isWhitespace).length :=
      (List.rdropWhile_prefix _ _).length_le
    _ ≤ s.length := List.length_dropWhile_le _ _

/-- Digits multiply the value by no more than a power of ten. -/
theorem parseDigits_lt {bound n v : ℕ} {s : Str} (h : parseDigits bound n s = some v) :
    v < (n + 1) * 10 ^ s.length := by
  induction s generalizing n with
  | nil =>
    rw [parseDigits, Option.some.injEq] at h
    simp [h]
  | cons c s ih =>
    rw [parseDigits] at h
    obtain ⟨d, hd, hrest⟩ := Option.bind_eq_some_iff.mp h
    have hd10 : d < 10 := by
      unfold digit at hd
      split_ifs at hd with hdigit
      have hnine : c.toNat ≤ 57 := hdigit.2
      rw [Option.some.injEq] at hd
      omega
    split_ifs at hrest
    calc
      v < (n * 10 + d + 1) * 10 ^ s.length := ih hrest
      _ ≤ ((n + 1) * 10) * 10 ^ s.length := Nat.mul_le_mul_right _ (by omega)
      _ = (n + 1) * 10 ^ (c :: s).length := by rw [List.length_cons, pow_succ]; ring

theorem parseU32_lt {s : Str} {x : UInt32} (h : parseU32 s = some x) : x.toNat < 10 ^ s.length := by
  have hdigits {digits : Str}
      (hx : (parseDigits (2 ^ 32) 0 digits).map UInt32.ofNat = some x) :
      x.toNat < 10 ^ digits.length := by
    obtain ⟨v, hv, rfl⟩ := Option.map_eq_some_iff.mp hx
    have hlt := parseDigits_lt hv
    rw [Nat.zero_add, Nat.one_mul] at hlt
    exact (Nat.mod_le v _).trans_lt hlt
  unfold parseU32 at h
  split at h
  · cases h
  · cases h
  · next digits _ =>
    calc
      x.toNat < 10 ^ digits.length := hdigits h
      _ ≤ 10 ^ (digits.length + 1) := Nat.pow_le_pow_right (by decide) (Nat.le_succ _)
  · exact hdigits h

/-- The value of decimal digits. -/
def natOfDigits (digits : Str) : ℕ := digits.foldl (fun n c ↦ n * 10 + (c.toNat - 48)) 0

/-- The exponent of a float, with its mark; there is none in an empty text. -/
def parseExponent (s : Str) : Option ℤ :=
  match s with
  | [] => some 0
  | mark :: rest =>
    if mark = 'e' ∨ mark = 'E' then
      let (negative, digits) := match rest with
        | '-' :: digits => (true, digits)
        | '+' :: digits => (false, digits)
        | digits => (false, digits)
      if digits = [] ∨ digits.any (fun c ↦ (digit c).isNone) then none
      else some (if negative then -(natOfDigits digits) else natOfDigits digits)
    else none

/-- A float without sign: digits with at most one point among them, and an exponent. -/
def parseNumber (s : Str) : Option ℚ := do
  let isDigit := fun c ↦ (digit c).isSome
  let whole := s.takeWhile isDigit
  let afterWhole := s.dropWhile isDigit
  let (fraction, rest) := match afterWhole with
    | '.' :: after => (after.takeWhile isDigit, after.dropWhile isDigit)
    | after => ([], after)
  if whole = [] ∧ fraction = [] then none
  else
    let exponent ← parseExponent rest
    some (natOfDigits (whole ++ fraction) * (10 : ℚ) ^ (exponent - fraction.length))

/-- `str::parse::<f64>`, without rounding. -/
def parseF64 (s : Str) : Option F64 :=
  let (negative, body) := match s with
    | '-' :: body => (true, body)
    | '+' :: body => (false, body)
    | body => (false, body)
  let word := body.map Char.toLower
  if word = "inf".toList ∨ word = "infinity".toList then some (.infinite negative)
  else if word = "nan".toList then some .nan
  else (parseNumber body).map fun value ↦ .finite (if negative then -value else value)

end Str

end Zenith.Rust
