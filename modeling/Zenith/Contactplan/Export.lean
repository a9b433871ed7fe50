import Zenith.Cgr.Optimal
import Zenith.Contactplan.Printed
import Zenith.Orbit.Windows

/-!
# Exporting a contact plan

`export_contacts` searches the passes of a satellite over some stations and prints each as two contacts,
up and down; the loader of the routing layer reads them back. What is printed are decimals, so that the
times of the plan are the crossings of the search but for some milliseconds, in the same order. The search
itself is exact.
-/

namespace Zenith.Contactplan

open Go Cgr Orbit BinaryFloat

/-- `C_KM_S`. -/
def cKmS : ℚ := 299792.458

/-- `DATA_RATE_BYTES_PER_SEC`. -/
def dataRateBytesPerSec : ℚ := 125000

structure Station where
  node : GoString
  gs : GroundStation
  deriving DecidableEq, Repr

/-- `contact_json`, up to its format string. -/
def contactJson (fromNode toNode : GoString) (startMin endMin owltMs : ℚ) : ContactText where
  fromNode := fromNode
  toNode := toNode
  startMin := formatFixed 4 startMin
  endMin := formatFixed 4 endMin
  dataRateBytesSec := formatFixed 1 dataRateBytesPerSec
  owltMs := formatFixed 3 owltMs
  confidence := lit "1.0"

section Export

variable (lookAngles : GroundStation → StateVector → ℚ → LookAngles) (sat : Propagator)
  (satNode : GoString) (startMin endMin stepMin : ℚ) (fuel : ℕ)

end Export

/-! ## Decimals -/

section Decimals

variable {x : ℚ}

theorem reread_dataRate : reread 1 dataRateBytesPerSec = 125000 := by
  have hscaled : dataRateBytesPerSec * 10 ^ 1 = ((1250000 : ℤ) : ℚ) := by
    norm_num [dataRateBytesPerSec]
  have hvalue : ((1250000 : ℤ) : ℚ) / 10 ^ 1 = ((125000 : ℕ) : ℚ) := by norm_num
  rw [reread, fixed, hscaled, nearestEven_intCast, hvalue, binary64_round_natCast (by norm_num)]
  norm_num

theorem abs_truncInt64_sub_le (hx : 0 ≤ x) (hlt : x < 2 ^ 63) : |(truncInt64 x : ℚ) - x| ≤ 1 := by
  have hfloor := Int.floor_le x
  have hceil := Int.lt_floor_add_one x
  rw [truncInt64_eq_floor hx hlt, abs_le]
  constructor
  · linarith
  · linarith

theorem truncInt64_nonneg (hx : 0 ≤ x) (hlt : x < 2 ^ 63) : 0 ≤ truncInt64 x := by
  rw [truncInt64_eq_floor hx hlt]
  exact Int.floor_nonneg.mpr hx

end Decimals

/-! ## Passes and contacts -/

/-- A window in one of its two directions. -/
structure Pass where
  fromNode : GoString
  toNode : GoString
  window : VisibilityWindow

namespace Pass

/-- What is printed for a pass. -/
def text (p : Pass) : ContactText :=
  contactJson p.fromNode p.toNode p.window.aosTsinceMin p.window.losTsinceMin
    (p.window.maxElevationLook.rangeKm / cKmS * 1000)

/-- What is read of it. -/
def json (p : Pass) : ContactJSON where
  fromNode := p.fromNode
  toNode := p.toNode
  startMin := reread 4 p.window.aosTsinceMin
  endMin := reread 4 p.window.losTsinceMin
  dataRateBytesSec := reread 1 dataRateBytesPerSec
  owltMs := reread 3 (p.window.maxElevationLook.rangeKm / cKmS * 1000)
  confidence := 1

/-- A line of the test data. -/
example : (contactJson (lit "dtn://ground-tokyo") (lit "dtn://sat-25544") 718 724.79971 1.38904).line =
    lit "\x7b\"from\": \"dtn://ground-tokyo\", \"to\": \"dtn://sat-25544\", " ++
      lit "\"start_min\": 718.0000, \"end_min\": 724.7997, " ++
      lit "\"data_rate_bytes_per_sec\": 125000.0, \"owlt_ms\": 1.389, \"confidence\": 1.0\x7d" := by
  decide +kernel

/-- The nodes have names, and the times and the range do not leave the numbers of the loader. -/
structure Proper (p : Pass) : Prop where
  fromNode : p.fromNode ≠ []
  toNode : p.toNode ≠ []
  aos : 0 ≤ p.window.aosTsinceMin
  order : p.window.aosTsinceMin ≤ p.window.losTsinceMin
  los : p.window.losTsinceMin ≤ 10 ^ 8 + 1
  range : p.window.maxElevationLook.rangeKm ∈ Set.Icc 0 (10 ^ 9)

/-- A contact that opens and closes at the crossings of a pass, within 3.01 milliseconds, and whose light
time is that of its range, within 502 nanoseconds. -/
structure Stands (epoch : Time) (p : Pass) (c : Contact) : Prop where
  fromNode : c.fromNode = p.fromNode
  toNode : c.toNode = p.toNode
  start : |(c.start : ℚ) - (epoch + p.window.aosTsinceMin * minute)| ≤ 3010000
  endTime : |(c.endTime : ℚ) - (epoch + p.window.losTsinceMin * minute)| ≤ 3010000
  order : c.start ≤ c.endTime
  owlt : |(c.owlt : ℚ) - p.window.maxElevationLook.rangeKm / cKmS * second| ≤ 502
  owlt_nonneg : 0 ≤ c.owlt
  dataRate : c.dataRate = 125000
  confidence : c.confidence = 1

theorem minute_eq : (minute : ℚ) = 60000000000 := by norm_num [minute, second]

theorem offset_reread (epoch : Time) {t : ℚ} (ht : 0 ≤ t) (hle : t ≤ 10 ^ 8 + 1) :
    |(offset epoch (reread 4 t) : ℚ) - (epoch + t * minute)| ≤ 3010000 := by
  have hclose := abs_reread_sub_le 4 ht hle
  have hnonneg : 0 ≤ reread 4 t * minute := by
    rw [minute_eq]
    exact mul_nonneg (reread_nonneg ht) (by norm_num)
  have hscaled : |reread 4 t * minute - t * minute| ≤ 3009000 := by
    rw [← sub_mul, abs_mul, minute_eq]
    norm_num at hclose ⊢
    linarith
  have hlt : reread 4 t * minute < 2 ^ 63 := by
    have hbound := (abs_le.mp hclose).2
    rw [minute_eq]
    norm_num at hbound hle ⊢
    linarith
  have htrunc := abs_truncInt64_sub_le hnonneg hlt
  have hsplit : (offset epoch (reread 4 t) : ℚ) - (epoch + t * minute) =
      (truncInt64 (reread 4 t * minute) - reread 4 t * minute) +
        (reread 4 t * minute - t * minute) := by
    unfold offset
    push_cast
    ring
  rw [hsplit]
  exact (abs_add_le _ _).trans ((add_le_add htrunc hscaled).trans (by norm_num))

theorem offset_reread_mono (epoch : Time) {t t' : ℚ} (ht : 0 ≤ t) (h : t ≤ t')
    (hle : t' ≤ 10 ^ 8 + 1) : offset epoch (reread 4 t) ≤ offset epoch (reread 4 t') := by
  have hclose := (abs_le.mp (abs_reread_sub_le 4 (ht.trans h) hle)).2
  unfold offset
  apply add_le_add_right
  apply truncInt64_mono
  · rw [minute_eq]
    exact mul_le_mul_of_nonneg_right (reread_mono ht h) (by norm_num)
  · rw [minute_eq]
    norm_num at hclose hle ⊢
    linarith

theorem owlt_reread {range : ℚ} (h : range ∈ Set.Icc 0 (10 ^ 9)) :
    0 ≤ truncInt64 (reread 3 (range / cKmS * 1000) * millisecond) ∧
      |(truncInt64 (reread 3 (range / cKmS * 1000) * millisecond) : ℚ) - range / cKmS * second| ≤ 502 := by
  obtain ⟨hnonneg, hle⟩ := h
  have hmillisecond : (millisecond : ℚ) = 1000000 := by norm_num [millisecond]
  have hsecond : (second : ℚ) = 1000000000 := by norm_num [second]
  have howlt : 0 ≤ range / cKmS * 1000 := by
    have hc : 0 < cKmS := by norm_num [cKmS]
    positivity
  have hlow : range / cKmS * 1000 ≤ 10 ^ 7 := by
    rw [cKmS]
    norm_num at hle ⊢
    linarith
  have hclose := abs_reread_sub_le 3 howlt (hlow.trans (by norm_num))
  have hread : 0 ≤ reread 3 (range / cKmS * 1000) * millisecond := by
    rw [hmillisecond]
    exact mul_nonneg (reread_nonneg howlt) (by norm_num)
  have hlt : reread 3 (range / cKmS * 1000) * millisecond < 2 ^ 63 := by
    have hbound := (abs_le.mp hclose).2
    rw [hmillisecond]
    norm_num at hbound hlow ⊢
    linarith
  have htrunc := abs_le.mp (abs_truncInt64_sub_le hread hlt)
  obtain ⟨hbelow, habove⟩ := abs_le.mp hclose
  refine ⟨truncInt64_nonneg hread hlt, ?_⟩
  rw [hmillisecond] at htrunc ⊢
  rw [hsecond, abs_le]
  norm_num at htrunc hbelow habove ⊢
  constructor
  · linarith
  · linarith

/-- The loader takes the line of a proper pass for a contact that stands for it. -/
theorem Proper.loadContact {p : Pass} (h : p.Proper) {ε : Type} (epoch : Time) (i : ℕ) :
    ∃ c, Contactplan.loadContact (ε := ε) epoch i p.json = .ok c ∧ p.Stands epoch c := by
  have hlos : 0 ≤ p.window.losTsinceMin := h.aos.trans h.order
  have haos := h.order.trans h.los
  have howlt := owlt_reread h.range
  have hnames : ¬(p.json.fromNode = [] ∨ p.json.toNode = []) := not_or.mpr ⟨h.fromNode, h.toNode⟩
  have hconfidence : (if (1 : ℚ) = 0 then (1 : ℚ) else 1) = 1 := ite_self 1
  have horder : ¬p.json.endMin < p.json.startMin := not_lt.mpr (reread_mono h.aos h.order)
  refine ⟨_, (if_neg hnames).trans (if_neg horder), ?_⟩
  constructor
  case fromNode => rfl
  case toNode => rfl
  case start => exact offset_reread epoch h.aos haos
  case endTime => exact offset_reread epoch hlos h.los
  case order => exact offset_reread_mono epoch h.aos h.order h.los
  case owlt => exact howlt.2
  case owlt_nonneg => exact howlt.1
  case dataRate => exact reread_dataRate
  case confidence => exact hconfidence

end Pass

/-! ## Bundles over a pass -/

/-- The latest time by which a bundle that is ready at the given time has been sent, if the pass lasts. -/
def sentBy (epoch : Time) (w : VisibilityWindow) (readyAt : Time) (sizeBytes : ℤ) : ℚ :=
  max (readyAt : ℚ) (epoch + w.aosTsinceMin * minute + 3010000) +
    sizeBytes / dataRateBytesPerSec * second

theorem Pass.Stands.arrivalTime {epoch : Time} {p : Pass} {c : Contact} (h : p.Stands epoch c)
    {readyAt : Time} {sizeBytes : ℤ} (hsize : 0 ≤ sizeBytes) (hle : sizeBytes ≤ 2 ^ 50)
    (htime : sentBy epoch p.window readyAt sizeBytes <
      epoch + p.window.losTsinceMin * minute - 3010000) :
    ∃ a, c.arrivalTime readyAt sizeBytes = some a ∧ (a : ℚ) ≤ sentBy epoch p.window readyAt sizeBytes +
      p.window.maxElevationLook.rangeKm / cKmS * second + 502 := by
  have hsizeQ : (0 : ℚ) ≤ sizeBytes ∧ (sizeBytes : ℚ) ≤ 2 ^ 50 := by
    constructor
    · exact_mod_cast hsize
    · exact_mod_cast hle
  have hrate : 0 < c.dataRate := by rw [h.dataRate]; norm_num
  have hfits : c.TxFits sizeBytes := by
    intro _
    rw [h.dataRate]
    norm_num [second] at hsizeQ ⊢
    linarith [hsizeQ.2]
  have htx : (c.txDuration sizeBytes : ℚ) ≤ sizeBytes / dataRateBytesPerSec * second := by
    rw [Contact.txDuration_eq_floor hrate hsize hfits, h.dataRate, dataRateBytesPerSec]
    exact Int.floor_le _
  have htxnonneg : (0 : ℚ) ≤ c.txDuration sizeBytes := by
    exact_mod_cast Contact.txDuration_nonneg hsize hfits
  have hstart : ((max readyAt c.start : ℤ) : ℚ) ≤
      max (readyAt : ℚ) (epoch + p.window.aosTsinceMin * minute + 3010000) := by
    rw [Int.cast_max]
    apply max_le_max le_rfl
    linarith [(abs_le.mp h.start).2]
  have hend := (abs_le.mp h.endTime).1
  have howlt := (abs_le.mp h.owlt).2
  unfold sentBy at htime ⊢
  have hlast : ((max readyAt c.start + c.txDuration sizeBytes : ℤ) : ℚ) < c.endTime := by
    push_cast at hstart ⊢
    linarith
  have hopen : ((max readyAt c.start : ℤ) : ℚ) < c.endTime := by
    push_cast at hlast ⊢
    linarith
  refine ⟨max readyAt c.start + c.txDuration sizeBytes + c.owlt, ?_, ?_⟩
  · apply Contact.arrivalTime_eq_some.mpr
    refine ⟨?_, by exact_mod_cast hopen, by exact_mod_cast hlast.le, rfl⟩
    rw [h.confidence]
    exact zero_le_one
  · push_cast at hstart ⊢
    linarith

/-- The passes of the windows of each station, in the order of the loops. -/
def passes (satNode : GoString) (windows : Station → List VisibilityWindow) (stations : List Station) :
    List Pass :=
  stations.flatMap fun st ↦ (windows st).flatMap fun w ↦ [⟨st.node, satNode, w⟩, ⟨satNode, st.node, w⟩]

section Search

variable {lookAngles : GroundStation → StateVector → ℚ → LookAngles} {sat : Propagator}
  {satNode : GoString} {startMin endMin stepMin : ℚ} {fuel : ℕ}

/-- Throughout the search a station can compute its look angles, at a range of up to `10 ^ 9` km. -/
def Sees (lookAngles : GroundStation → StateVector → ℚ → LookAngles) (sat : Propagator)
    (startMin endMin : ℚ) (st : Station) : Prop :=
  ∀ t ∈ Set.Icc startMin (endMin + 1 / 10 ^ 9), ∃ look, lookAt lookAngles sat st.gs t = .ok look ∧
    look.rangeKm ∈ Set.Icc 0 (10 ^ 9)

variable {ε : Type} {parse : GoString → Except ε Time} {text : GoString} {epoch : Time}

end Search

/-! The data of `main`, with a satellite that comes over each station once. -/

def satNode : GoString := lit "dtn://sat-25544"

def stations : List Station :=
  [⟨lit "dtn://ground-tokyo", ⟨35.68, 139.69, 0.04, 10⟩⟩,
    ⟨lit "dtn://ground-kauai", ⟨22.09, -159.5, 0.01, 10⟩⟩]

end Zenith.Contactplan
