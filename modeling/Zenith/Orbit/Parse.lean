import Zenith.Orbit.Tle
import Zenith.Rust.Outcome
import Zenith.Rust.Text

/-!
# Parsing element sets

The parser of `tle.rs` cuts fixed byte ranges out of two lines, each of which panics inside a character.
-/

namespace Zenith.Orbit

open Rust Str

namespace Tle

/-! ## Checks and fields -/

/-- The checksum of the first 68 bytes: digits count as themselves and minus signs as one. -/
def computedChecksum (line : Str) : UInt8 :=
  let sum := ((asBytes line).take 68).foldl (fun sum ch ↦
    if 48 ≤ ch ∧ ch ≤ 57 then sum + (ch - 48).toNat else if ch = 45 then sum + 1 else sum) 0
  UInt8.ofNat (sum % 10)

/-- `check_checksum`: the index may be out of bounds and the subtraction of `b'0'` underflow. -/
def checkChecksum (line : Str) : Outcome OrbitError Unit :=
  match (asBytes line)[68]? with
  | none => .panic
  | some raw =>
    if raw < 48 then .panic
    else
      let expected := raw - 48
      let computed := computedChecksum line
      if computed ≠ expected then .error (.checksumMismatch computed expected) else .ok ()

/-- An addition of `u32` with overflow checks. -/
def addChecked (x y : UInt32) : Option UInt32 :=
  if x.toNat + y.toNat < 2 ^ 32 then some (x + y) else none

def parseEpoch (s : Str) : Outcome OrbitError (UInt32 × F64) := do
  let s := trim s
  let (yStr, dStr) ← .ofOption (splitAt s 2)
  let yy ← .okOr (parseU32 (trim yStr)) (.invalidEpoch (String.ofList s))
  let year ← .ofOption (if yy < 57 then addChecked 2000 yy else addChecked 1900 yy)
  let day ← .okOr (parseF64 (trim dStr)) (.invalidEpoch (String.ofList s))
  .ok (year, day)

/-- The product with a positive constant. -/
def scale (x : F64) (factor : ℚ) : F64 :=
  match x with
  | .finite value => .finite (value * factor)
  | x => x

def parseDecimalField (s : Str) (field : String) : Outcome OrbitError F64 :=
  let s := trim s
  .okOr (parseF64 s) (.parseField field (String.ofList s))

def parseEccentricity (s : Str) : Outcome OrbitError F64 := do
  let v ← parseDecimalField s "eccentricity"
  .ok (scale v (1 / 10 ^ 7))

def isSign (c : Char) : Bool := c = '+' ∨ c = '-'

/-- The exponential notation with the implicit point written out, for `parse::<f64>`. -/
def combined (s : Str) : Str :=
  let sign := if s.head? = some '-' then ['-'] else []
  let digits := trim (s.dropWhile isSign)
  -- The exponent starts at the last sign.
  let (mantissa, exp) := match digits.rdropWhile (!isSign ·) with
    | [] => (digits, [])
    | upTo => (upTo.dropLast, digits.drop (upTo.length - 1))
  sign ++ ['0', '.'] ++ mantissa ++ ['e'] ++ exp

def parseExpField (s : Str) (field : String) : Outcome OrbitError F64 :=
  let s := trim s
  if s.all (fun c ↦ c = '0' ∨ c = ' ' ∨ c = '-' ∨ c = '+') then .ok (.finite 0)
  else .okOr (parseF64 (combined s)) (.parseField field (String.ofList s))

/-- A field read from `&s[start..stop]`. -/
def onSlice {α : Type} (s : Str) (start stop : ℕ) (read : Str → Outcome OrbitError α) :
    Outcome OrbitError α := do
  let text ← .ofOption (slice s start stop)
  read text

/-- `Tle::u32`; the error quotes the whole line. -/
def u32 (s : Str) (start stop : ℕ) (field : String) : Outcome OrbitError UInt32 :=
  onSlice s start stop fun text ↦
    .okOr (parseU32 (trim text)) (.parseField field (String.ofList s))

/-- `Tle::f64`. -/
def f64 (s : Str) (start stop : ℕ) (field : String) : Outcome OrbitError F64 :=
  onSlice s start stop fun text ↦
    .okOr (parseF64 (trim text)) (.parseField field (String.ofList s))

/-! ## Lines -/

/-- `parse_lines` from the checksums on, with the lines cut to 69 bytes. -/
def parseFields (name : Option Str) (line1 line2 : Str) : Outcome OrbitError (Tle F64) := do
  checkChecksum line1
  checkChecksum line2
  let satelliteNumber ← u32 line1 2 7 "satellite_number"
  let internationalDesignator ← onSlice line1 9 17 fun text ↦ .ok (String.ofList (trim text))
  let (epochYear, epochDay) ← onSlice line1 18 32 parseEpoch
  let meanMotionDot ← onSlice line1 33 43 (parseDecimalField · "mean_motion_dot")
  let meanMotionDdot ← onSlice line1 44 52 (parseExpField · "mean_motion_ddot")
  let bstar ← onSlice line1 53 61 (parseExpField · "bstar")
  let elementSetNumber ← u32 line1 64 68 "element_set_number"
  let inclinationDeg ← f64 line2 8 16 "inclination"
  let raanDeg ← f64 line2 17 25 "raan"
  let eccentricity ← onSlice line2 26 33 parseEccentricity
  let argPerigeeDeg ← f64 line2 34 42 "arg_perigee"
  let meanAnomalyDeg ← f64 line2 43 51 "mean_anomaly"
  let meanMotion ← f64 line2 52 63 "mean_motion"
  let revNumberAtEpoch ← u32 line2 63 68 "rev_number_at_epoch"
  .ok { name := name.map String.ofList
        satelliteNumber
        internationalDesignator
        epochYear
        epochDay
        meanMotionDot
        meanMotionDdot
        bstar
        elementSetNumber
        inclinationDeg
        raanDeg
        eccentricity
        argPerigeeDeg
        meanAnomalyDeg
        meanMotion
        revNumberAtEpoch }

def parseLines (name : Option Str) (line1 line2 : Str) : Outcome OrbitError (Tle F64) :=
  if line1.len < 69 then .error (.invalidLineLength line1.len)
  else if line2.len < 69 then .error (.invalidLineLength line2.len)
  else do
    let line1 ← .ofOption (slice line1 0 69)
    let line2 ← .ofOption (slice line2 0 69)
    parseFields name line1 line2

/-- `Tle::parse`. -/
def parse (input : Str) : Outcome OrbitError (Tle F64) :=
  match (lines input).map trimEnd with
  | [line1, line2] => parseLines none line1 line2
  | [line0, line1, line2] => parseLines (some line0) line1 line2
  | lines => .error (.invalidLineCount lines.length)

/-! ## What panics -/

theorem onSlice_returns_iff {α : Type} {s : Str} {start stop : ℕ} (h : start ≤ stop)
    {read : Str → Outcome OrbitError α} : (onSlice s start stop read).Returns ↔
      (s.IsCharBoundary start ∧ s.IsCharBoundary stop) ∧
        ∀ text, slice s start stop = some text → (read text).Returns := by
  unfold onSlice
  rw [Outcome.returns_bind_iff, Outcome.returns_ofOption_iff, isSome_slice_iff h]
  simp only [Outcome.ofOption_eq_ok]

/-- A field whose contents are always read with a value or an error. -/
theorem onSlice_returns_iff_of {α : Type} {s : Str} {start stop : ℕ} (h : start ≤ stop)
    {read : Str → Outcome OrbitError α} (hread : ∀ text, (read text).Returns) :
    (onSlice s start stop read).Returns ↔ s.IsCharBoundary start ∧ s.IsCharBoundary stop := by
  rw [onSlice_returns_iff h]
  exact and_iff_left fun text _ ↦ hread text

theorem returns_parseDecimalField (s : Str) (field : String) :
    (parseDecimalField s field).Returns := Outcome.returns_okOr _ _

theorem returns_parseEccentricity (s : Str) : (parseEccentricity s).Returns := by
  unfold parseEccentricity
  rw [Outcome.returns_bind_iff]
  exact ⟨returns_parseDecimalField _ _, fun _ _ ↦ trivial⟩

theorem returns_parseExpField (s : Str) (field : String) : (parseExpField s field).Returns := by
  unfold parseExpField
  dsimp only
  split_ifs
  · trivial
  · exact Outcome.returns_okOr _ _

/-! The year of an epoch is read from two bytes, so that the addition to it does not overflow. -/

theorem year_fits {s : Str} (hlen : s.len = 2) {yy : UInt32} (h : parseU32 (trim s) = some yy) :
    (if yy < 57 then addChecked 2000 yy else addChecked 1900 yy).isSome = true := by
  have hshort : (trim s).length ≤ 2 := by
    calc
      (trim s).length ≤ s.length := length_trim_le s
      _ ≤ s.len := length_le_len s
      _ = 2 := hlen
  have hyy : yy.toNat < 100 := by
    calc
      yy.toNat < 10 ^ (trim s).length := parseU32_lt h
      _ ≤ 10 ^ 2 := Nat.pow_le_pow_right (by decide) hshort
  have hcentury (century : UInt32) (hfits : century.toNat ≤ 2000) :
      (addChecked century yy).isSome = true := by
    unfold addChecked
    rw [if_pos (by omega)]
    rfl
  split_ifs
  · exact hcentury 2000 (by decide)
  · exact hcentury 1900 (by decide)

theorem returns_parseEpoch_iff (s : Str) :
    (parseEpoch s).Returns ↔ (trim s).IsCharBoundary 2 := by
  unfold parseEpoch
  dsimp only
  rw [Outcome.returns_bind_iff, Outcome.returns_ofOption_iff, isSome_splitAt_iff]
  apply and_iff_left
  rintro ⟨yStr, dStr⟩ hsplit
  have hlen : yStr.len = 2 := (splitAt_eq_some.mp (Outcome.ofOption_eq_ok.mp hsplit)).2
  rw [Outcome.returns_bind_iff]
  refine ⟨Outcome.returns_okOr _ _, fun yy hyy ↦ ?_⟩
  rw [Outcome.returns_bind_iff, Outcome.returns_ofOption_iff]
  refine ⟨year_fits hlen (Outcome.okOr_eq_ok.mp hyy), fun year _ ↦ ?_⟩
  rw [Outcome.returns_bind_iff]
  exact ⟨Outcome.returns_okOr _ _, fun _ _ ↦ trivial⟩

/-- The checksum column holds no byte below `b'0'`. -/
def ChecksumColumn (line : Str) : Prop := ∃ raw, (asBytes line)[68]? = some raw ∧ 48 ≤ raw

theorem returns_checkChecksum_iff (line : Str) :
    (checkChecksum line).Returns ↔ ChecksumColumn line := by
  unfold checkChecksum ChecksumColumn
  cases hraw : (asBytes line)[68]? with
  | none => simp
  | some raw =>
    dsimp only
    split_ifs with hlow hsum
    · simpa using hlow
    · simpa using hlow
    · simpa using hlow

/-! ## Inputs that do not panic -/

/-- What a step of the parser needs not to panic, and when it lets the parser go on. -/
structure Step where
  safe : Prop
  passes : Prop

/-- No step panics up to the first one that the parser ends with. -/
def Clean : List Step → Prop
  | [] => True
  | step :: rest => step.safe ∧ (step.passes → Clean rest)

/-- A field in a range of columns, with its result. -/
def column {α : Type} (line : Str) (start stop : ℕ) (field : Outcome OrbitError α) : Step where
  safe := line.IsCharBoundary start ∧ line.IsCharBoundary stop
  passes := ∃ v, field = .ok v

/-- The columns of the epoch, which its reader splits after two bytes. -/
def epochColumn (line : Str) : Step where
  safe := (line.IsCharBoundary 18 ∧ line.IsCharBoundary 32) ∧
    ∀ text, slice line 18 32 = some text → (trim text).IsCharBoundary 2
  passes := ∃ v, onSlice line 18 32 parseEpoch = .ok v

def checksum (line : Str) : Step := ⟨ChecksumColumn line, ∃ v, checkChecksum line = .ok v⟩

/-- The steps after the lines are cut to 69 bytes. -/
def steps (line1 line2 : Str) : List Step :=
  [checksum line1, checksum line2,
    column line1 2 7 (u32 line1 2 7 "satellite_number"),
    column line1 9 17 (onSlice line1 9 17 fun text ↦ .ok (String.ofList (trim text))),
    epochColumn line1,
    column line1 33 43 (onSlice line1 33 43 (parseDecimalField · "mean_motion_dot")),
    column line1 44 52 (onSlice line1 44 52 (parseExpField · "mean_motion_ddot")),
    column line1 53 61 (onSlice line1 53 61 (parseExpField · "bstar")),
    column line1 64 68 (u32 line1 64 68 "element_set_number"),
    column line2 8 16 (f64 line2 8 16 "inclination"),
    column line2 17 25 (f64 line2 17 25 "raan"),
    column line2 26 33 (onSlice line2 26 33 parseEccentricity),
    column line2 34 42 (f64 line2 34 42 "arg_perigee"),
    column line2 43 51 (f64 line2 43 51 "mean_anomaly"),
    column line2 52 63 (f64 line2 52 63 "mean_motion"),
    column line2 63 68 (u32 line2 63 68 "rev_number_at_epoch")]

/-- Lines of full length can be cut after 69 bytes, and the steps that follow are clean. -/
def Harmless (line1 line2 : Str) : Prop :=
  69 ≤ line1.len → 69 ≤ line2.len → line1.IsCharBoundary 69 ∧ line2.IsCharBoundary 69 ∧
    ∀ cut1 cut2, slice line1 0 69 = some cut1 → slice line2 0 69 = some cut2 →
      Clean (steps cut1 cut2)

theorem returns_bind_iff_clean {α β : Type} {x : Outcome OrbitError α}
    {f : α → Outcome OrbitError β} {safe : Prop} {rest : List Step} (hx : x.Returns ↔ safe)
    (hf : ∀ a, x = .ok a → ((f a).Returns ↔ Clean rest)) :
    (x >>= f).Returns ↔ Clean (⟨safe, ∃ a, x = .ok a⟩ :: rest) :=
  Outcome.returns_bind_iff_of hx hf

theorem returns_u32_iff {s : Str} {start stop : ℕ} (h : start ≤ stop) (field : String) :
    (u32 s start stop field).Returns ↔ s.IsCharBoundary start ∧ s.IsCharBoundary stop :=
  onSlice_returns_iff_of h fun _ ↦ Outcome.returns_okOr _ _

theorem returns_f64_iff {s : Str} {start stop : ℕ} (h : start ≤ stop) (field : String) :
    (f64 s start stop field).Returns ↔ s.IsCharBoundary start ∧ s.IsCharBoundary stop :=
  onSlice_returns_iff_of h fun _ ↦ Outcome.returns_okOr _ _

theorem returns_epoch_iff (line : Str) :
    (onSlice line 18 32 parseEpoch).Returns ↔ (epochColumn line).safe := by
  rw [onSlice_returns_iff (by decide)]
  simp only [returns_parseEpoch_iff]
  rfl

theorem returns_parseFields_iff (name : Option Str) (line1 line2 : Str) :
    (parseFields name line1 line2).Returns ↔ Clean (steps line1 line2) := by
  refine returns_bind_iff_clean (returns_checkChecksum_iff line1) fun _ _ ↦ ?_
  refine returns_bind_iff_clean (returns_checkChecksum_iff line2) fun _ _ ↦ ?_
  refine returns_bind_iff_clean (returns_u32_iff (by decide) _) fun _ _ ↦ ?_
  refine returns_bind_iff_clean (onSlice_returns_iff_of (by decide) fun _ ↦ trivial) fun _ _ ↦ ?_
  refine returns_bind_iff_clean (returns_epoch_iff line1) fun _ _ ↦ ?_
  refine returns_bind_iff_clean (onSlice_returns_iff_of (by decide) fun text ↦
    returns_parseDecimalField text _) fun _ _ ↦ ?_
  refine returns_bind_iff_clean (onSlice_returns_iff_of (by decide) fun text ↦
    returns_parseExpField text _) fun _ _ ↦ ?_
  refine returns_bind_iff_clean (onSlice_returns_iff_of (by decide) fun text ↦
    returns_parseExpField text _) fun _ _ ↦ ?_
  refine returns_bind_iff_clean (returns_u32_iff (by decide) _) fun _ _ ↦ ?_
  refine returns_bind_iff_clean (returns_f64_iff (by decide) _) fun _ _ ↦ ?_
  refine returns_bind_iff_clean (returns_f64_iff (by decide) _) fun _ _ ↦ ?_
  refine returns_bind_iff_clean (onSlice_returns_iff_of (by decide) returns_parseEccentricity)
    fun _ _ ↦ ?_
  refine returns_bind_iff_clean (returns_f64_iff (by decide) _) fun _ _ ↦ ?_
  refine returns_bind_iff_clean (returns_f64_iff (by decide) _) fun _ _ ↦ ?_
  refine returns_bind_iff_clean (returns_f64_iff (by decide) _) fun _ _ ↦ ?_
  refine returns_bind_iff_clean (returns_u32_iff (by decide) _) fun _ _ ↦ ?_
  exact iff_of_true trivial trivial

theorem returns_parseLines_iff (name : Option Str) (line1 line2 : Str) :
    (parseLines name line1 line2).Returns ↔ Harmless line1 line2 := by
  have hcut (line : Str) : (slice line 0 69).isSome = true ↔ line.IsCharBoundary 69 := by
    rw [isSome_slice_iff (Nat.zero_le 69)]
    exact and_iff_right ⟨[], line, rfl, rfl⟩
  unfold parseLines Harmless
  split_ifs with hshort1 hshort2
  · simp [Nat.not_le.mpr hshort1]
  · simp [Nat.not_le.mpr hshort2]
  · simp only [Outcome.returns_bind_iff, Outcome.returns_ofOption_iff, hcut, Outcome.ofOption_eq_ok,
      returns_parseFields_iff, not_lt.mp hshort1, not_lt.mp hshort2, forall_const]
    constructor
    · intro ⟨hfirst, hrest⟩
      obtain ⟨cut1, hcut1⟩ := Option.isSome_iff_exists.mp ((hcut line1).mpr hfirst)
      exact ⟨hfirst, (hrest cut1 hcut1).1, fun cut1 cut2 hcut1 ↦ (hrest cut1 hcut1).2 cut2⟩
    · intro ⟨hfirst, hsecond, hclean⟩
      exact ⟨hfirst, fun cut1 hcut1 ↦ ⟨hsecond, fun cut2 ↦ hclean cut1 cut2 hcut1⟩⟩

/-- The two lines that an input has besides a name. -/
def HasLines (input line1 line2 : Str) : Prop :=
  (lines input).map trimEnd = [line1, line2] ∨
    ∃ line0, (lines input).map trimEnd = [line0, line1, line2]

/-- The parser returns exactly if no step up to the first error cuts a line inside a character or reads
a checksum below `b'0'`. -/
theorem parse_returns_iff (input : Str) (name : Option Str) (line1 line2 : Str) :
    ((parseLines name line1 line2).Returns ↔ Harmless line1 line2) ∧
    ((parse input).Returns ↔ ∀ line1 line2, HasLines input line1 line2 → Harmless line1 line2) := by
  refine ⟨returns_parseLines_iff name line1 line2, ?_⟩
  unfold parse HasLines
  split
  · next line1 line2 hlines =>
    rw [returns_parseLines_iff, hlines]
    constructor
    · rintro h _ _ (heq | ⟨line0, heq⟩)
      · cases heq
        exact h
      · cases heq
    · intro h
      exact h line1 line2 (.inl rfl)
  · next line0 line1 line2 hlines =>
    rw [returns_parseLines_iff, hlines]
    constructor
    · rintro h _ _ (heq | ⟨line0, heq⟩)
      · cases heq
      · cases heq
        exact h
    · intro h
      exact h line1 line2 (.inr ⟨line0, rfl⟩)
  · next hother htwo hthree =>
    refine iff_of_true trivial ?_
    rintro line1 line2 (hlines | ⟨line0, hlines⟩)
    · exact absurd hlines (htwo line1 line2)
    · exact absurd hlines (hthree line0 line1 line2)

/-- A line of dashes has a dash for its checksum, from which `b'0'` cannot be subtracted. -/
theorem not_parse_returns :
    ¬∀ input, (parse input).Returns := by
  intro h
  have hpanic : parse (List.replicate 69 '-' ++ '\n' :: List.replicate 69 '-') = .panic := by
    decide +kernel
  have hreturns := h (List.replicate 69 '-' ++ '\n' :: List.replicate 69 '-')
  rw [hpanic] at hreturns
  exact hreturns

end Tle

end Zenith.Orbit
