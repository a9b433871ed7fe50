import Zenith.Sim.Causality

/-!
# Capacity

A node looks at each bundle by itself: it is forwarded where it fits what is left of the window of the
contact. What the contact already carries is written down nowhere, so that all the bundles together
may be more than the volume of the contact.
-/

namespace Zenith.Sim

open Go Bpv7 Cgr Dtn

variable {σ : Type}

/-- The bundle of the turn is forwarded over `c`. -/
def Turn.sentOver (c : Contact) (turn : Turn) : Bool :=
  match turn.fate with
  | .forwarded hop _ => hop = c
  | _ => false

/-- The bytes forwarded over `c`. -/
def carried (c : Contact) (trace : List Turn) : ℤ :=
  ((trace.filter (Turn.sentOver c)).map fun turn ↦ bundleSize turn.event.b).sum

theorem Turn.sentOver_iff {c : Contact} {turn : Turn} :
    turn.sentOver c = true ↔ ∃ arrival, turn.fate = .forwarded c arrival := by
  unfold sentOver
  cases turn.fate with
  | forwarded hop arrival => simp
  | _ => simp

theorem carried_cons (c : Contact) (turn : Turn) (trace : List Turn) :
    carried c (turn :: trace) =
      (if turn.sentOver c then bundleSize turn.event.b else 0) + carried c trace := by
  unfold carried
  rw [List.filter_cons]
  split_ifs with hsent
  · rw [List.map_cons, List.sum_cons]
  · exact (Int.zero_add _).symm

/-- Where every bundle is below a bound, all together are below as many times the bound. -/
theorem carried_le {c : Contact} {trace : List Turn} {bound : ℚ}
    (h : ∀ turn ∈ trace, turn.sentOver c = true → (bundleSize turn.event.b : ℚ) ≤ bound) :
    (carried c trace : ℚ) ≤ trace.countP (Turn.sentOver c) * bound := by
  induction trace with
  | nil => simp [carried]
  | cons turn trace ih =>
    have htail := ih fun later hlater ↦ h later (List.mem_cons_of_mem turn hlater)
    have hhead := h turn List.mem_cons_self
    rw [carried_cons, List.countP_cons]
    split_ifs with hsent
    · push_cast
      linarith [hhead hsent]
    · push_cast
      linarith

/-- Each bundle that is forwarded over a contact fits what is left of its window, to the nanosecond;
the bundles are not added up. -/
theorem run_capacity {m : Mesh σ} (hm : m.Fresh) {c : Contact} (hrate : 0 < c.dataRate)
    (hfits : ∀ b, m.Sends b → c.TxFits (bundleSize b)) {fuel : ℕ} {app : σ} {s : Run σ}
    (h : m.run fuel app = some s) :
    (∀ turn ∈ m.turns fuel app, turn.sentOver c = true →
      (bundleSize turn.event.b : ℚ) * second <
        c.dataRate * (c.endTime - max turn.event.time c.start + 1 : ℤ)) ∧
    (carried c (m.turns fuel app) : ℚ) ≤
      (m.turns fuel app).countP (Turn.sentOver c) * (c.volume + c.dataRate / second) := by
  have hruns := Mesh.runs_turns h
  have hfollows := (hruns.configured (Run.configured_start hm app)).2
  have hsends := (hruns.sends hfollows).1
  have hsent : ∀ turn ∈ m.turns fuel app, turn.sentOver c = true → ∃ arrival,
      c.arrivalTime turn.event.time (bundleSize turn.event.b) = some arrival := by
    intro turn hturn hover
    obtain ⟨arrival, hf⟩ := Turn.sentOver_iff.mp hover
    exact ⟨arrival, ((hfollows turn hturn).forwarded c arrival hf).2.2⟩
  constructor
  · intro turn hturn hover
    obtain ⟨arrival, harrival⟩ := hsent turn hturn hover
    exact Contact.lt_of_arrivalTime hrate (bundleSize_nonneg _) (hfits _ (hsends turn hturn)) harrival
  · apply carried_le
    intro turn hturn hover
    obtain ⟨arrival, harrival⟩ := hsent turn hturn hover
    exact (Contact.lt_volume hrate (bundleSize_nonneg _) (hfits _ (hsends turn hturn)) harrival).le

/-- 100 bytes can pass in one second. -/
def briefContact : Contact :=
  ⟨lit "dtn://ground-1", lit "dtn://ground-2", 0, second, 100, 0, 1⟩

/-- Two bundles of 76 bytes are sent over one contact. -/
def crowdedMesh : Mesh Unit :=
  ((Mesh.new (some (ContactPlan.newContactPlan [briefContact]))).inject (lit "dtn://ground-1")
    imageBundle 0).inject (lit "dtn://ground-1")
    { imageBundle with
      primary := { imageBundle.primary with creationTime := ⟨820540800000, 1⟩ } } 0

theorem fresh_crowdedMesh : crowdedMesh.Fresh := .inject _ _ _ (.inject _ _ _ (.new _))

theorem run_capacity_crowdedMesh : ∃ s, crowdedMesh.run 10 () = some s ∧
    (∀ turn ∈ crowdedMesh.turns 10 (), turn.sentOver briefContact = true →
      (bundleSize turn.event.b : ℚ) * second < briefContact.dataRate *
        (briefContact.endTime - max turn.event.time briefContact.start + 1 : ℤ)) ∧
    (carried briefContact (crowdedMesh.turns 10 ()) : ℚ) ≤
      (crowdedMesh.turns 10 ()).countP (Turn.sentOver briefContact) *
        (briefContact.volume + briefContact.dataRate / second) := by
  have hrun : (crowdedMesh.run 10 ()).isSome = true := by decide +kernel
  obtain ⟨s, hs⟩ := Option.isSome_iff_exists.mp hrun
  refine ⟨s, hs, run_capacity fresh_crowdedMesh (by decide +kernel) (fun b hb ↦ ?_) hs⟩
  cases hb with
  | injected hinj =>
    have hall : ∀ inj ∈ crowdedMesh.pending, briefContact.TxFits (bundleSize inj.b) := by
      unfold Contact.TxFits
      decide +kernel
    exact hall _ hinj
  | reply _ hhandler => cases hhandler

/-- Together the two are more than the contact can carry. -/
theorem volume_exceeded : ¬∀ (m : Mesh Unit) (fuel : ℕ) (s : Run Unit), m.Fresh →
    m.run fuel () = some s → ∀ plan, m.plan = some plan → ∀ c ∈ plan.contacts, 0 < c.dataRate →
      (carried c (m.turns fuel ()) : ℚ) ≤ c.volume := by
  intro hall
  have hrun : (crowdedMesh.run 10 ()).isSome = true := by decide +kernel
  obtain ⟨s, hs⟩ := Option.isSome_iff_exists.mp hrun
  have hle := hall crowdedMesh 10 s fresh_crowdedMesh hs _ rfl briefContact
    (by simp) (by decide +kernel)
  have hcarried : carried briefContact (crowdedMesh.turns 10 ()) = 152 := by decide +kernel
  have hvolume : briefContact.volume = 100 := by decide +kernel
  rw [hcarried, hvolume] at hle
  norm_num at hle

end Zenith.Sim
