import Zenith.Go.Runtime

/-!
# Contacts and contact plans

A contact carries what is ready before it closes; the arrival time is a monotone function of the
time at which the bundle is ready. A plan keeps its contacts in the order of insertion together with
an index from each node to the contacts that leave it, and the index is right by construction.
-/

namespace Zenith.Cgr

open Go

structure Contact where
  fromNode : GoString
  toNode : GoString
  start : Time
  endTime : Time
  /-- Bytes per second. -/
  dataRate : ℚ
  owlt : Duration
  confidence : ℚ
  deriving DecidableEq, Repr

namespace Contact

/-- A rate that is not positive transmits instantaneously. The quotient is exact, not rounded to a double. -/
def txDuration (c : Contact) (sizeBytes : ℤ) : Duration :=
  if 0 < c.dataRate then truncInt64 (sizeBytes / c.dataRate * second) else 0

def arrivalTime (c : Contact) (readyAt : Time) (sizeBytes : ℤ) : Option Time :=
  if c.confidence < 0 then none
  else
    let txStart := if readyAt < c.start then c.start else readyAt
    if ¬txStart < c.endTime then none
    else
      let txFinish := txStart + c.txDuration sizeBytes
      if c.endTime < txFinish then none else some (txFinish + c.owlt)

/-- What an accepting contact says about the window and the arrival. -/
theorem arrivalTime_eq_some {c : Contact} {t a : Time} {sizeBytes : ℤ} :
    c.arrivalTime t sizeBytes = some a ↔
      0 ≤ c.confidence ∧ max t c.start < c.endTime ∧
        max t c.start + c.txDuration sizeBytes ≤ c.endTime ∧
        a = max t c.start + c.txDuration sizeBytes + c.owlt := by
  have hstart : (if t < c.start then c.start else t) = max t c.start := by
    split_ifs with hlt
    · exact (max_eq_right hlt.le).symm
    · exact (max_eq_left (not_lt.mp hlt)).symm
  unfold arrivalTime
  dsimp only
  rw [hstart]
  split_ifs with hconfidence hopen hlong
  · exact ⟨fun h ↦ (by cases h), fun h ↦ absurd h.1 (not_le.mpr hconfidence)⟩
  · constructor
    · intro h
      cases h
    · intro ⟨_, _, hfits, _⟩
      exact absurd hfits (not_le.mpr hlong)
  · constructor
    · intro h
      cases h
      exact ⟨not_lt.mp hconfidence, hopen, not_lt.mp hlong, rfl⟩
    · intro ⟨_, _, _, ha⟩
      exact congrArg some ha.symm
  · exact ⟨fun h ↦ (by cases h), fun h ↦ absurd h.2.1 hopen⟩

/-- A bundle that is ready earlier is carried as well and does not arrive later. -/
theorem arrivalTime_mono {c : Contact} {t t' a' : Time} {sizeBytes : ℤ} (hle : t ≤ t')
    (h : c.arrivalTime t' sizeBytes = some a') : ∃ a ≤ a', c.arrivalTime t sizeBytes = some a := by
  obtain ⟨hconfidence, hopen, hfits, rfl⟩ := arrivalTime_eq_some.mp h
  have hmax : max t c.start ≤ max t' c.start := max_le_max hle le_rfl
  have hopen' : max t c.start < c.endTime := by
    calc
      max t c.start ≤ max t' c.start := hmax
      _ < c.endTime := hopen
  refine ⟨max t c.start + c.txDuration sizeBytes + c.owlt, by linarith, ?_⟩
  exact arrivalTime_eq_some.mpr ⟨hconfidence, hopen', by linarith, rfl⟩

theorem le_arrivalTime {c : Contact} {t a : Time} {sizeBytes : ℤ}
    (hdelay : 0 ≤ c.txDuration sizeBytes + c.owlt) (h : c.arrivalTime t sizeBytes = some a) :
    t ≤ a := by
  obtain ⟨-, -, -, rfl⟩ := arrivalTime_eq_some.mp h
  have hmax : t ≤ max t c.start := le_max_left t c.start
  linarith

/-- The transmission time of `sizeBytes` fits a `time.Duration`. -/
def TxFits (c : Contact) (sizeBytes : ℤ) : Prop :=
  0 < c.dataRate → sizeBytes / c.dataRate * second < 2 ^ 63

theorem txDuration_eq_floor {c : Contact} {sizeBytes : ℤ} (hrate : 0 < c.dataRate)
    (hsize : 0 ≤ sizeBytes) (hfits : c.TxFits sizeBytes) :
    c.txDuration sizeBytes = ⌊(sizeBytes : ℚ) / c.dataRate * second⌋ := by
  have hx : 0 ≤ (sizeBytes : ℚ) / c.dataRate * second := by
    have hsizeQ : (0 : ℚ) ≤ sizeBytes := by exact_mod_cast hsize
    have hsecond : (0 : ℚ) ≤ second := by norm_num [second]
    positivity
  unfold txDuration
  rw [if_pos hrate]
  exact truncInt64_eq_floor hx (hfits hrate)

theorem txDuration_nonneg {c : Contact} {sizeBytes : ℤ} (hsize : 0 ≤ sizeBytes)
    (hfits : c.TxFits sizeBytes) : 0 ≤ c.txDuration sizeBytes := by
  by_cases hrate : 0 < c.dataRate
  · rw [txDuration_eq_floor hrate hsize hfits]
    have hsizeQ : (0 : ℚ) ≤ sizeBytes := by exact_mod_cast hsize
    have hsecond : (0 : ℚ) ≤ second := by norm_num [second]
    apply Int.floor_nonneg.mpr
    positivity
  · unfold txDuration
    rw [if_neg hrate]

/-! ## Capacity -/

def duration (c : Contact) : Duration := timeSub c.endTime c.start

/-- A rate that is not positive bounds nothing. -/
def volume (c : Contact) : ℚ :=
  if c.dataRate ≤ 0 then 1e300 else c.dataRate * (c.duration / second)

/-- A bundle that a contact takes fits what is left of its window, to the nanosecond. -/
theorem lt_of_arrivalTime {c : Contact} {t a : Time} {sizeBytes : ℤ} (hrate : 0 < c.dataRate)
    (hsize : 0 ≤ sizeBytes) (hfits : c.TxFits sizeBytes)
    (h : c.arrivalTime t sizeBytes = some a) :
    (sizeBytes : ℚ) * second < c.dataRate * (c.endTime - max t c.start + 1 : ℤ) := by
  obtain ⟨-, -, hlast, -⟩ := arrivalTime_eq_some.mp h
  rw [txDuration_eq_floor hrate hsize hfits] at hlast
  have hlt : (sizeBytes : ℚ) / c.dataRate * second < (c.endTime - max t c.start + 1 : ℤ) := by
    apply Int.floor_lt.mp
    linarith
  calc
    (sizeBytes : ℚ) * second = c.dataRate * ((sizeBytes : ℚ) / c.dataRate * second) := by
      field_simp
    _ < c.dataRate * (c.endTime - max t c.start + 1 : ℤ) := by gcongr

/-- So it is within the volume of the contact and what it carries in another nanosecond. -/
theorem lt_volume {c : Contact} {t a : Time} {sizeBytes : ℤ} (hrate : 0 < c.dataRate)
    (hsize : 0 ≤ sizeBytes) (hfits : c.TxFits sizeBytes)
    (h : c.arrivalTime t sizeBytes = some a) :
    (sizeBytes : ℚ) < c.volume + c.dataRate / second := by
  have hsecond : (0 : ℚ) < second := by norm_num [second]
  have hopen : c.start < c.endTime :=
    (le_max_right t c.start).trans_lt (arrivalTime_eq_some.mp h).2.1
  have hduration : (sizeBytes : ℚ) * second < c.dataRate * (c.duration + 1 : ℤ) := by
    unfold duration timeSub
    by_cases hlong : c.endTime - c.start ≤ 2 ^ 63 - 1
    · rw [min_eq_right hlong, max_eq_right (by linarith)]
      have hmax : c.start ≤ max t c.start := le_max_right t c.start
      calc
        (sizeBytes : ℚ) * second < c.dataRate * (c.endTime - max t c.start + 1 : ℤ) :=
          lt_of_arrivalTime hrate hsize hfits h
        _ ≤ c.dataRate * (c.endTime - c.start + 1 : ℤ) := by
          gcongr
    · rw [min_eq_left (by linarith), max_eq_right (by norm_num)]
      calc
        (sizeBytes : ℚ) * second = c.dataRate * ((sizeBytes : ℚ) / c.dataRate * second) := by
          field_simp
        _ < c.dataRate * 2 ^ 63 := by
          gcongr
          exact hfits hrate
        _ = c.dataRate * (2 ^ 63 - 1 + 1 : ℤ) := by norm_num
  calc
    (sizeBytes : ℚ) = sizeBytes * second / second := by field_simp
    _ < c.dataRate * (c.duration + 1 : ℤ) / second := by gcongr
    _ = c.volume + c.dataRate / second := by
      unfold volume
      rw [if_neg (not_le.mpr hrate)]
      push_cast
      ring

/-! ## The limit of the conversion -/

/-- What an answer promises: the window is open, the transmission ends within it up to a
nanosecond, and nothing arrives sooner than light does. The quotient is exact. -/
def Carries (c : Contact) (t : Time) (sizeBytes : ℤ) (a : Time) : Prop :=
  max t c.start < c.endTime ∧
    ((max t c.start : ℤ) : ℚ) + sizeBytes / c.dataRate * second < c.endTime + 1 ∧
    max t c.start + c.owlt ≤ a

/-- Past the limit of a `time.Duration` the transmission time is the most negative one. -/
theorem txDuration_of_two_pow_le {c : Contact} {sizeBytes : ℤ} (hrate : 0 < c.dataRate)
    (hlong : 2 ^ 63 ≤ (sizeBytes : ℚ) / c.dataRate * second) :
    c.txDuration sizeBytes = -(2 ^ 63) := by
  unfold txDuration
  rw [if_pos hrate]
  exact truncInt64_of_two_pow_le hlong

theorem carries_of_fits {c : Contact} {t a : Time} {sizeBytes : ℤ} (hrate : 0 < c.dataRate)
    (hsize : 0 ≤ sizeBytes) (hfits : (sizeBytes : ℚ) / c.dataRate * second < 2 ^ 63)
    (h : c.arrivalTime t sizeBytes = some a) : c.Carries t sizeBytes a := by
  have htx := txDuration_eq_floor hrate hsize fun _ ↦ hfits
  have hnonneg : 0 ≤ c.txDuration sizeBytes := txDuration_nonneg hsize fun _ ↦ hfits
  obtain ⟨-, hopen, hlast, rfl⟩ := arrivalTime_eq_some.mp h
  have hquotient : (sizeBytes : ℚ) / c.dataRate * second < c.txDuration sizeBytes + 1 := by
    rw [htx]
    exact Int.lt_floor_add_one _
  have hlastQ : ((max t c.start : ℤ) : ℚ) + c.txDuration sizeBytes ≤ c.endTime := by
    exact_mod_cast hlast
  exact ⟨hopen, by linarith, by linarith⟩

/-- A transmission that overflows is taken by every contact that is still open, and arrives
before it starts. -/
theorem not_carries_of_overflow {c : Contact} {t : Time} {sizeBytes : ℤ} (hrate : 0 < c.dataRate)
    (hconfidence : 0 ≤ c.confidence) (hopen : max t c.start < c.endTime)
    (hlong : 2 ^ 63 ≤ (sizeBytes : ℚ) / c.dataRate * second) :
    ∃ a, c.arrivalTime t sizeBytes = some a ∧ ¬c.Carries t sizeBytes a := by
  have htx := txDuration_of_two_pow_le hrate hlong
  refine ⟨max t c.start + c.txDuration sizeBytes + c.owlt, ?_, ?_⟩
  · apply arrivalTime_eq_some.mpr
    exact ⟨hconfidence, hopen, by rw [htx]; linarith, rfl⟩
  · intro ⟨_, _, harrival⟩
    rw [htx] at harrival
    linarith

/-- A contact keeps what its answer promises exactly when it is not used, is already closed, or the
transmission time fits a `time.Duration`. -/
theorem arrivalTime_carries_iff (c : Contact) (hrate : 0 < c.dataRate) (t : Time) (sizeBytes : ℤ)
    (hsize : 0 ≤ sizeBytes) :
    (∀ a, c.arrivalTime t sizeBytes = some a → c.Carries t sizeBytes a) ↔
      c.confidence < 0 ∨ c.endTime ≤ max t c.start ∨
        (sizeBytes : ℚ) / c.dataRate * second < 2 ^ 63 := by
  constructor
  · intro hcarries
    by_contra hnone
    push Not at hnone
    obtain ⟨hconfidence, hopen, hlong⟩ := hnone
    obtain ⟨a, haccept, hbroken⟩ := not_carries_of_overflow hrate hconfidence hopen hlong
    exact hbroken (hcarries a haccept)
  · intro hcondition a h
    obtain ⟨hconfidence, hopen, -, -⟩ := arrivalTime_eq_some.mp h
    rcases hcondition with hunused | hclosed | hfits
    · exact absurd hconfidence (not_le.mpr hunused)
    · exact absurd hopen (not_lt.mpr hclosed)
    · exact carries_of_fits hrate hsize hfits h

/-- An hour at one byte per second. -/
def slowHour : Contact where
  fromNode := lit "a"
  toNode := lit "b"
  start := 0
  endTime := 3600 * second
  dataRate := 1
  owlt := 0
  confidence := 1

theorem arrivalTime_carries_iff_slowHour : (3000 : ℚ) / slowHour.dataRate * second < 2 ^ 63 ∧
    ∀ a, slowHour.arrivalTime 0 3000 = some a → slowHour.Carries 0 3000 a := by
  have hfits : (3000 : ℚ) / slowHour.dataRate * second < 2 ^ 63 := by norm_num [slowHour, second]
  refine ⟨hfits, ?_⟩
  exact (arrivalTime_carries_iff slowHour (by norm_num [slowHour]) 0 3000 (by norm_num)).mpr
    (.inr (.inr (by exact_mod_cast hfits)))

/-- Ten gigabytes do not fit an hour at one byte per second, and are said to arrive long ago. -/
theorem slowHour_carries_ten_gigabytes :
    ¬∀ (c : Contact) (t : Time) (sizeBytes : ℤ) (a : Time), 0 < c.dataRate → 0 ≤ c.owlt →
      0 ≤ sizeBytes → c.arrivalTime t sizeBytes = some a → c.Carries t sizeBytes a := by
  intro hall
  have htx : slowHour.txDuration 10000000000 = -(2 ^ 63) :=
    txDuration_of_two_pow_le (by norm_num [slowHour]) (by norm_num [slowHour, second])
  have haccept : slowHour.arrivalTime 0 10000000000 = some (-(2 ^ 63)) := by
    apply arrivalTime_eq_some.mpr
    rw [htx]
    norm_num [slowHour, second]
  have hcarries := hall slowHour 0 10000000000 _ (by norm_num [slowHour]) (by norm_num [slowHour])
    (by norm_num) haccept
  have harrival := hcarries.2.2
  norm_num [slowHour] at harrival

end Contact

/-! ## Plans -/

structure ContactPlan where
  contacts : List Contact
  byFrom : GoMap GoString (List ℕ)
  /-- The index lists the contacts that leave a node, in the order of insertion. -/
  indexed : ∀ node, (byFrom node).getD [] =
    (List.range contacts.length).filter fun idx ↦ contacts[idx]?.map (·.fromNode) = some node

namespace ContactPlan

/-- The plan without contacts. -/
def empty : ContactPlan where
  contacts := []
  byFrom := GoMap.empty
  indexed := fun _ ↦ rfl

def add (p : ContactPlan) (c : Contact) : ContactPlan where
  contacts := p.contacts ++ [c]
  byFrom := p.byFrom.insert c.fromNode ((p.byFrom c.fromNode).getD [] ++ [p.contacts.length])
  indexed := by
    intro node
    have hold : (List.range p.contacts.length).filter
        (fun idx ↦ (p.contacts ++ [c])[idx]?.map (·.fromNode) = some node) =
        (p.byFrom node).getD [] := by
      rw [p.indexed]
      apply List.filter_congr
      intro idx hidx
      rw [List.getElem?_append_left (List.mem_range.mp hidx)]
    rw [List.length_append, List.length_singleton, List.range_succ, List.filter_append, hold,
      GoMap.insert_apply]
    by_cases hnode : node = c.fromNode
    · subst hnode
      simp
    · simp [hnode, Ne.symm hnode]

def newContactPlan (contacts : List Contact) : ContactPlan := contacts.foldl add empty

@[simp] theorem contacts_foldl_add (p : ContactPlan) (cs : List Contact) :
    (cs.foldl add p).contacts = p.contacts ++ cs := by
  induction cs generalizing p with
  | nil => simp
  | cons c cs ih =>
    rw [List.foldl_cons, ih]
    simp [add]

@[simp] theorem contacts_newContactPlan (cs : List Contact) :
    (newContactPlan cs).contacts = cs := by
  simp [newContactPlan, empty]

/-- The contacts that the search tries from a node: `p.contacts[idx]` for `idx` in `p.byFrom[node]`.
The index is in range by `indexed`. -/
def outgoing (p : ContactPlan) (node : GoString) : List Contact :=
  ((p.byFrom node).getD []).filterMap (p.contacts[·]?)

theorem outgoing_eq (p : ContactPlan) (node : GoString) :
    p.outgoing node = p.contacts.filter (·.fromNode = node) := by
  unfold outgoing
  rw [p.indexed]
  generalize p.contacts = cs
  induction cs using List.reverseRecOn with
  | nil => rfl
  | append_singleton cs c ih =>
    have hold : (List.range cs.length).filter
        (fun idx ↦ (cs ++ [c])[idx]?.map (·.fromNode) = some node) =
        (List.range cs.length).filter fun idx ↦ cs[idx]?.map (·.fromNode) = some node := by
      apply List.filter_congr
      intro idx hidx
      rw [List.getElem?_append_left (List.mem_range.mp hidx)]
    have hmap : ((List.range cs.length).filter
        fun idx ↦ cs[idx]?.map (·.fromNode) = some node).filterMap ((cs ++ [c])[·]?) =
        cs.filter (·.fromNode = node) := by
      rw [← ih]
      apply List.filterMap_congr
      intro idx hidx
      rw [List.getElem?_append_left (List.mem_range.mp (List.mem_of_mem_filter hidx))]
    rw [List.length_append, List.length_singleton, List.range_succ, List.filter_append, hold,
      List.filterMap_append, hmap, List.filter_append]
    by_cases hnode : c.fromNode = node <;> simp [hnode]

@[simp] theorem mem_outgoing {p : ContactPlan} {node : GoString} {c : Contact} :
    c ∈ p.outgoing node ↔ c ∈ p.contacts ∧ c.fromNode = node := by
  simp [outgoing_eq]

end ContactPlan

end Zenith.Cgr
