import Zenith.Cgr.Contact

/-!
# Loading a contact plan

The document of the orbital-mechanics engine becomes a contact plan. Reading the JSON text and the
RFC 3339 epoch belongs to the Go library; both are parameters here. The checks on a contact are those
of the source: nothing looks at the sign of the light time.
-/

namespace Zenith.Contactplan

open Go Cgr

structure ContactJSON where
  fromNode : GoString
  toNode : GoString
  startMin : ℚ
  endMin : ℚ
  dataRateBytesSec : ℚ
  owltMs : ℚ
  confidence : ℚ
  deriving DecidableEq, Repr

structure Document where
  epoch : GoString
  contacts : List ContactJSON
  deriving DecidableEq, Repr

structure Schedule where
  epoch : Time
  plan : ContactPlan

/-- The errors of `Load`; `ε` are those of the JSON and time packages. -/
inductive LoadError (ε : Type)
  | decode (err : ε)
  | parseEpoch (epoch : GoString) (err : ε)
  | missingNode (i : ℕ)
  | endsBeforeStart (i : ℕ)
  deriving DecidableEq, Repr

/-- The format strings of the source. -/
def LoadError.format {ε : Type} : LoadError ε → String
  | decode _ => "contactplan: decode: %w"
  | parseEpoch _ _ => "contactplan: parse epoch %q: %w"
  | missingNode _ => "contactplan: contact %d missing from/to"
  | endsBeforeStart _ => "contactplan: contact %d ends before it starts"

def minute : Duration := 60 * second

def offset (epoch : Time) (minutes : ℚ) : Time := epoch + truncInt64 (minutes * minute)

/-- `At`. -/
def Schedule.atMinutes (s : Schedule) (minutes : ℚ) : Time := offset s.epoch minutes

variable {ρ ε : Type}

/-- The body of the loop over the contacts of the document. -/
def loadContact (epoch : Time) (i : ℕ) (c : ContactJSON) : Except (LoadError ε) Contact :=
  if c.fromNode = [] ∨ c.toNode = [] then .error (.missingNode i)
  else if c.endMin < c.startMin then .error (.endsBeforeStart i)
  else
    .ok {
      fromNode := c.fromNode
      toNode := c.toNode
      start := offset epoch c.startMin
      endTime := offset epoch c.endMin
      dataRate := c.dataRateBytesSec
      owlt := truncInt64 (c.owltMs * millisecond)
      confidence := if c.confidence = 0 then 1 else c.confidence }

def loadContacts (epoch : Time) : ℕ → List ContactJSON → Except (LoadError ε) (List Contact)
  | _, [] => .ok []
  | i, c :: rest => do
    let contact ← loadContact epoch i c
    let contacts ← loadContacts epoch (i + 1) rest
    return contact :: contacts

/-- `Load`, with the JSON decoder and `time.Parse(time.RFC3339, ·)` as parameters. -/
def load (decode : ρ → Except ε Document) (parse : GoString → Except ε Time) (r : ρ) :
    Except (LoadError ε) Schedule := do
  let doc ← (decode r).mapError .decode
  let epoch ← (parse doc.epoch).mapError (.parseEpoch doc.epoch)
  let contacts ← loadContacts epoch 0 doc.contacts
  return ⟨epoch, ContactPlan.newContactPlan contacts⟩

/-! ## The order of the windows -/

/-- The minute offsets of the document, the two of each contact in turn. -/
def Document.offsets (doc : Document) : List ℚ :=
  doc.contacts.flatMap fun c ↦ [c.startMin, c.endMin]

/-- The absolute times assigned to them, at the same places. -/
def Schedule.times (s : Schedule) : List Time :=
  s.plan.contacts.flatMap fun c ↦ [c.start, c.endTime]

/-- No window ends before it starts, and offsets in order have their times in order. -/
def KeepsOrder (doc : Document) (s : Schedule) : Prop :=
  (∀ c ∈ s.plan.contacts, c.start ≤ c.endTime) ∧
    ∀ p ∈ doc.offsets.zip s.times, ∀ q ∈ doc.offsets.zip s.times, p.1 ≤ q.1 → p.2 ≤ q.2

/-- An offset fits a `time.Duration`. -/
def Fits (minutes : ℚ) : Prop := -(2 ^ 63) < minutes * minute ∧ minutes * minute < 2 ^ 63

theorem loadContact_eq_ok {epoch : Time} {i : ℕ} {c : ContactJSON} {contact : Contact}
    (h : loadContact (ε := ε) epoch i c = .ok contact) :
    c.startMin ≤ c.endMin ∧ contact.start = offset epoch c.startMin ∧
      contact.endTime = offset epoch c.endMin := by
  unfold loadContact at h
  by_cases hmissing : c.fromNode = [] ∨ c.toNode = []
  · rw [if_pos hmissing] at h
    cases h
  · by_cases hinverted : c.endMin < c.startMin
    · rw [if_neg hmissing, if_pos hinverted] at h
      cases h
    · rw [if_neg hmissing, if_neg hinverted] at h
      cases h
      exact ⟨not_lt.mp hinverted, rfl, rfl⟩

theorem loadContacts_eq_ok {epoch : Time} {i : ℕ} {cs : List ContactJSON}
    {contacts : List Contact} (h : loadContacts (ε := ε) epoch i cs = .ok contacts) :
    List.Forall₂ (fun c contact ↦ c.startMin ≤ c.endMin ∧
      contact.start = offset epoch c.startMin ∧ contact.endTime = offset epoch c.endMin)
      cs contacts := by
  induction cs generalizing i contacts with
  | nil =>
    cases h
    exact .nil
  | cons c rest ih =>
    obtain ⟨contact, hcontact, h⟩ := bind_eq_ok.mp h
    obtain ⟨contacts', hcontacts, h⟩ := bind_eq_ok.mp h
    cases h
    exact .cons (loadContact_eq_ok hcontact) (ih hcontacts)

section Loaded

variable {decode : ρ → Except ε Document} {parse : GoString → Except ε Time} {r : ρ}
  {doc : Document} {s : Schedule}

/-- An accepted document and its plan: the same windows, resolved against one epoch. -/
theorem load_eq_ok (hdecode : decode r = .ok doc) (h : load decode parse r = .ok s) :
    List.Forall₂ (fun c contact ↦ c.startMin ≤ c.endMin ∧
      contact.start = s.atMinutes c.startMin ∧ contact.endTime = s.atMinutes c.endMin)
      doc.contacts s.plan.contacts := by
  unfold load at h
  rw [hdecode] at h
  obtain ⟨doc', hdoc, h⟩ := bind_eq_ok.mp h
  obtain ⟨epoch, -, h⟩ := bind_eq_ok.mp h
  cases hdoc
  obtain ⟨contacts, hcontacts, h⟩ := bind_eq_ok.mp h
  cases h
  rw [ContactPlan.contacts_newContactPlan]
  exact loadContacts_eq_ok hcontacts

theorem times_of_load (hdecode : decode r = .ok doc) (h : load decode parse r = .ok s) :
    s.times = doc.offsets.map s.atMinutes := by
  have hcontacts := load_eq_ok hdecode h
  unfold Schedule.times Document.offsets
  generalize doc.contacts = cs at hcontacts ⊢
  generalize s.plan.contacts = contacts at hcontacts ⊢
  induction hcontacts with
  | nil => rfl
  | cons hc _ ih =>
    obtain ⟨-, hstart, hend⟩ := hc
    rw [List.flatMap_cons, List.flatMap_cons, List.map_append, ih, hstart, hend]
    rfl

/-- A window of the plan is one of the document. -/
theorem window_of_load (hdecode : decode r = .ok doc) (h : load decode parse r = .ok s)
    {contact : Contact} (hmem : contact ∈ s.plan.contacts) :
    ∃ c ∈ doc.contacts, c.startMin ≤ c.endMin ∧ contact.start = s.atMinutes c.startMin ∧
      contact.endTime = s.atMinutes c.endMin := by
  have hcontacts := load_eq_ok hdecode h
  generalize doc.contacts = cs at hcontacts ⊢
  generalize s.plan.contacts = contacts at hcontacts hmem
  induction hcontacts with
  | nil => cases hmem
  | cons hc _ ih =>
    rcases List.mem_cons.mp hmem with rfl | hrest
    · exact ⟨_, List.mem_cons_self, hc⟩
    · obtain ⟨c, hmem', hc'⟩ := ih hrest
      exact ⟨c, List.mem_cons_of_mem _ hmem', hc'⟩

theorem Document.startMin_mem_offsets {c : ContactJSON} (hc : c ∈ doc.contacts) :
    c.startMin ∈ doc.offsets := by
  apply List.mem_flatMap.mpr
  exact ⟨c, hc, List.mem_cons_self⟩

theorem Document.endMin_mem_offsets {c : ContactJSON} (hc : c ∈ doc.contacts) :
    c.endMin ∈ doc.offsets := by
  apply List.mem_flatMap.mpr
  exact ⟨c, hc, List.mem_cons_of_mem _ List.mem_cons_self⟩

/-- Order is a fact about the offsets of the document and the conversion alone. -/
theorem keepsOrder_iff (hdecode : decode r = .ok doc) (h : load decode parse r = .ok s) :
    KeepsOrder doc s ↔ ∀ m₁ ∈ doc.offsets, ∀ m₂ ∈ doc.offsets, m₁ ≤ m₂ →
      truncInt64 (m₁ * minute) ≤ truncInt64 (m₂ * minute) := by
  have hzip : doc.offsets.zip s.times = doc.offsets.map fun m ↦ (m, s.atMinutes m) := by
    rw [times_of_load hdecode h, ← List.zip_map', List.map_id']
  have htimes : (∀ p ∈ doc.offsets.zip s.times, ∀ q ∈ doc.offsets.zip s.times,
      p.1 ≤ q.1 → p.2 ≤ q.2) ↔ ∀ m₁ ∈ doc.offsets, ∀ m₂ ∈ doc.offsets, m₁ ≤ m₂ →
      truncInt64 (m₁ * minute) ≤ truncInt64 (m₂ * minute) := by
    rw [hzip]
    simp only [List.forall_mem_map, Schedule.atMinutes, offset, add_le_add_iff_left]
  unfold KeepsOrder
  rw [htimes]
  apply and_iff_right_of_imp
  intro horder contact hmem
  obtain ⟨c, hc, hle, hstart, hend⟩ := window_of_load hdecode h hmem
  rw [hstart, hend]
  unfold Schedule.atMinutes offset
  have hconverted := horder c.startMin (Document.startMin_mem_offsets hc) c.endMin
    (Document.endMin_mem_offsets hc) hle
  linarith

/-- The loaded windows keep their order exactly when no offset reaches the top of the range of a
`time.Duration`, or none of them is in range at all. -/
theorem load_keepsOrder_iff (hdecode : decode r = .ok doc) (h : load decode parse r = .ok s) :
    KeepsOrder doc s ↔
      (∀ m ∈ doc.offsets, m * minute < 2 ^ 63) ∨ (∀ m ∈ doc.offsets, ¬Fits m) := by
  have hminute : (0 : ℚ) < minute := by norm_num [minute, second]
  rw [keepsOrder_iff hdecode h]
  constructor
  · intro horder
    by_contra hnone
    push Not at hnone
    obtain ⟨⟨m₂, hm₂, hlong⟩, m₁, hm₁, hlow, hhigh⟩ := hnone
    have hle : m₁ ≤ m₂ := le_of_mul_le_mul_right (hhigh.le.trans hlong) hminute
    have hconverted := horder m₁ hm₁ m₂ hm₂ hle
    rw [truncInt64_of_two_pow_le hlong] at hconverted
    exact absurd hconverted (not_le.mpr (neg_two_pow_lt_truncInt64 hlow hhigh))
  · intro hcondition m₁ hm₁ m₂ hm₂ hle
    rcases hcondition with hbelow | hout
    · exact truncInt64_mono (mul_le_mul_of_nonneg_right hle hminute.le) (hbelow m₂ hm₂)
    · have hleast : truncInt64 (m₁ * minute) = -(2 ^ 63) := by
        rcases le_or_gt (2 ^ 63) (m₁ * minute) with hlong | hshort
        · exact truncInt64_of_two_pow_le hlong
        · exact truncInt64_of_le_neg (not_lt.mp fun hlow ↦ hout m₁ hm₁ ⟨hlow, hshort⟩)
      rw [hleast]
      exact neg_two_pow_le_truncInt64 _

end Loaded

/-- One contact from the epoch on, until the given minute. -/
def contactUntil (endMin : ℚ) : Document where
  epoch := lit "2024-01-15T12:00:00Z"
  contacts := [⟨lit "a", lit "b", 0, endMin, 0, 0, 1⟩]

/-- The loaded plan of one contact; the epoch is 2024-01-15T12:00:00Z. -/
def loadUntil (endMin : ℚ) : Except (LoadError Unit) Schedule :=
  load (fun doc ↦ .ok doc) (fun _ ↦ .ok (1705320000 * second)) (contactUntil endMin)

theorem load_keepsOrder_iff_oneDay :
    ∃ s, loadUntil 1440 = .ok s ∧ KeepsOrder (contactUntil 1440) s := by
  have hrun : (loadUntil 1440).toOption.isSome = true := by decide +kernel
  obtain ⟨s, hload⟩ := Option.isSome_iff_exists.mp hrun
  have hload' := eq_ok_of_toOption hload
  refine ⟨s, hload', (load_keepsOrder_iff rfl hload').mpr (Or.inl ?_)⟩
  norm_num [contactUntil, Document.offsets, minute, second]

/-- A window of 380 years is loaded as one that ends in 1731. -/
theorem loadUntil_reversed :
    ∃ s, loadUntil 200000000 = .ok s ∧ ¬KeepsOrder (contactUntil 200000000) s := by
  have hrun : (loadUntil 200000000).toOption.map
      (fun s ↦ decide (∀ c ∈ s.plan.contacts, c.start ≤ c.endTime)) = some false := by
    decide +kernel
  obtain ⟨s, hload, hreversed⟩ := Option.map_eq_some_iff.mp hrun
  exact ⟨s, eq_ok_of_toOption hload, fun horder ↦ of_decide_eq_false hreversed horder.1⟩

end Zenith.Contactplan
