import Zenith.Node.Store
import Zenith.Sim.Trace

/-!
# Custody

Every bundle that is injected comes to an end: it is delivered, it has expired, it is a duplicate, or
it stays in the store of a node that found no contact to send it over. Each turn of the loop settles
one arrival, and only a turn that forwards causes an arrival that is not an injection.
-/

namespace Zenith.Sim

open Go Bpv7 Cgr Dtn EventLoop

variable {σ : Type}

/-- The events of one kind about a bundle ID. -/
def Report.count (report : Report) (kind : EventKind) (bundleID : GoString) : ℕ :=
  report.events.countP fun e ↦ e.kind = kind ∧ e.bundleID = bundleID

/-- The events of one kind about a bundle ID at a node. -/
def Report.countAt (report : Report) (kind : EventKind) (node bundleID : GoString) : ℕ :=
  report.events.countP fun e ↦ e.kind = kind ∧ (e.node, e.bundleID) = (node, bundleID)

namespace Turn

theorem countP_events (turn : Turn) (p : Event → Bool) : turn.events.countP p =
    (if turn.event.injected ∧ p ⟨turn.event.time, turn.event.nodeID, .injected, turn.event.b.id, []⟩
      then 1 else 0) +
    if p ⟨turn.event.time, turn.event.nodeID, turn.fate.kind, turn.event.b.id, turn.fate.nextHop⟩
      then 1 else 0 := by
  unfold events MeshEvent.events
  rw [List.countP_append, List.countP_singleton]
  congr 1
  cases turn.event.injected with
  | true => simp
  | false => simp

end Turn

namespace Run

section Counts

variable {fuel : ℕ} {s s' : Run σ} {trace : List Turn}

/-- The report of a run that began with an empty one counts the turns of the run. -/
theorem Runs.count_eq (h : Runs fuel s trace s') (hs : s.report.events = []) {kind : EventKind}
    (hkind : kind ≠ .injected) (bundleID : GoString) : s'.report.count kind bundleID =
      trace.countP fun turn ↦ turn.fate.kind = kind ∧ turn.event.b.id = bundleID := by
  unfold Report.count
  rw [h.events_eq, hs, List.nil_append]
  apply countP_flatMap_of_forall
  intro turn _
  rw [Turn.countP_events]
  simp [Ne.symm hkind]

theorem Runs.count_injected (h : Runs fuel s trace s') (hs : s.report.events = [])
    (bundleID : GoString) : s'.report.count .injected bundleID =
      trace.countP fun turn ↦ turn.event.injected ∧ turn.event.b.id = bundleID := by
  unfold Report.count
  rw [h.events_eq, hs, List.nil_append]
  apply countP_flatMap_of_forall
  intro turn _
  rw [Turn.countP_events]
  simp [Fate.kind_ne_injected]

/-- The injections of the report are events that were at hand, or replies. -/
theorem Runs.countP_injected_le (h : Runs fuel s trace s') (hs : s.report.events = []) :
    s'.report.events.countP (·.kind = .injected) ≤
      s.queue.length + (trace.flatMap Turn.caused).countP (·.injected) := by
  calc
    s'.report.events.countP (·.kind = .injected) = trace.countP fun turn ↦ turn.event.injected := by
      rw [h.events_eq, hs, List.nil_append]
      apply countP_flatMap_of_forall
      intro turn _
      rw [Turn.countP_events]
      simp [Fate.kind_ne_injected]
    _ ≤ (trace.map Turn.event ++ s'.queue).countP (·.injected) := by
      rw [List.countP_append, List.countP_map]
      exact Nat.le_add_right _ _
    _ ≤ s.queue.length + (trace.flatMap Turn.caused).countP (·.injected) := by
      rw [h.perm.countP_eq, List.countP_append]
      exact Nat.add_le_add_right List.countP_le_length _

theorem Runs.countAt_eq (h : Runs fuel s trace s') (hs : s.report.events = []) {kind : EventKind}
    (hkind : kind ≠ .injected) (node bundleID : GoString) : s'.report.countAt kind node bundleID =
      trace.countP fun turn ↦ turn.fate.kind = kind ∧ turn.visit = (node, bundleID) := by
  unfold Report.countAt
  rw [h.events_eq, hs, List.nil_append]
  apply countP_flatMap_of_forall
  intro turn _
  rw [Turn.countP_events]
  simp [Ne.symm hkind, Turn.visit]

/-- Each turn is either the end of a bundle or forwards it. -/
theorem countP_kinds (trace : List Turn) (bundleID : GoString) :
    (trace.countP fun turn ↦ turn.event.injected ∧ turn.event.b.id = bundleID) +
      (trace.countP fun turn ↦ turn.event.injected = false ∧ turn.event.b.id = bundleID) =
    (trace.countP fun turn ↦ turn.fate.kind = .forwarded ∧ turn.event.b.id = bundleID) +
      ((trace.countP fun turn ↦ turn.fate.kind = .delivered ∧ turn.event.b.id = bundleID) +
        (trace.countP fun turn ↦ turn.fate.kind = .expired ∧ turn.event.b.id = bundleID) +
        (trace.countP fun turn ↦ turn.fate.kind = .duplicate ∧ turn.event.b.id = bundleID) +
        (trace.countP fun turn ↦ turn.fate.kind = .undeliverable ∧ turn.event.b.id = bundleID)) := by
  induction trace with
  | nil => rfl
  | cons turn trace ih =>
    simp only [List.countP_cons]
    by_cases hid : turn.event.b.id = bundleID
    · rcases turn.fate.kind_cases with hkind | hkind | hkind | hkind | hkind <;>
        cases turn.event.injected <;>
        simp only [hkind, hid, reduceCtorEq, and_self, and_true, decide_true, decide_false,
          Bool.false_eq_true, if_true, if_false] <;>
        omega
    · simp only [hid, and_false, decide_false, Bool.false_eq_true, if_false]
      omega

/-- Where nothing is left to do, every bundle that was forwarded has arrived. -/
theorem Runs.countP_arrivals {m : Mesh σ} (h : Runs fuel s trace s') (hs : s.Configured m)
    (hinjected : ∀ ev ∈ s.queue, ev.injected = true) (hempty : s'.queue = [])
    (bundleID : GoString) :
    (trace.countP fun turn ↦ turn.event.injected = false ∧ turn.event.b.id = bundleID) =
      trace.countP fun turn ↦ turn.fate.kind = .forwarded ∧ turn.event.b.id = bundleID := by
  have hperm := h.perm
  rw [hempty, List.append_nil] at hperm
  have hcount := hperm.countP_eq fun ev ↦ ev.injected = false ∧ ev.b.id = bundleID
  have hstart : s.queue.countP (fun ev ↦ ev.injected = false ∧ ev.b.id = bundleID) = 0 := by
    apply List.countP_eq_zero.mpr
    intro ev hev
    simp [hinjected ev hev]
  rw [List.countP_map, List.countP_append, hstart, Nat.zero_add] at hcount
  refine hcount.trans (countP_flatMap_of_forall fun turn hturn ↦ ?_)
  exact ((h.configured hs).2 turn hturn).countP_arrivals fun b ↦ b.id = bundleID

/-- A bundle ends or is forwarded once at each node, whatever arrives there later is a duplicate. -/
theorem Runs.countP_visit_le_one (h : Runs fuel s trace s') (visit : GoString × GoString) :
    (trace.countP fun turn ↦ ¬turn.fate.kind = .duplicate ∧ turn.visit = visit) ≤ 1 := by
  have hle := List.nodup_iff_count_le_one.mp h.visited.1 visit
  rw [List.count_eq_countP, List.countP_map, List.countP_filter] at hle
  refine (List.countP_congr fun turn _ ↦ ?_).trans_le hle
  simp [Fate.kind_eq_duplicate_iff, and_comm]

theorem countP_left_or_sent (trace : List Turn) (visit : GoString × GoString) :
    (trace.countP fun turn ↦ turn.fate.kind = .undeliverable ∧ turn.visit = visit) +
      (trace.countP fun turn ↦ turn.fate.kind = .forwarded ∧ turn.visit = visit) ≤
    trace.countP fun turn ↦ ¬turn.fate.kind = .duplicate ∧ turn.visit = visit := by
  induction trace with
  | nil => exact le_rfl
  | cons turn trace ih =>
    simp only [List.countP_cons]
    by_cases hvisit : turn.visit = visit
    · rcases turn.fate.kind_cases with hkind | hkind | hkind | hkind | hkind <;>
        simp only [hkind, hvisit, reduceCtorEq, not_false_eq_true, not_true, and_self, and_true,
          decide_true, decide_false, Bool.false_eq_true, if_true, if_false] <;>
        omega
    · simp only [hvisit, and_false, decide_false, Bool.false_eq_true, if_false]
      omega

end Counts

/-! ## The stores -/

/-- Nodes store what they cannot send on, and nothing else. -/
def Consistent (s : Run σ) : Prop := ∀ node, (s.mesh.nodeAt node).Consistent

theorem consistent_start {m : Mesh σ} (hm : m.Fresh) (app : σ) : (start m app).Consistent := by
  intro node
  rw [start, hm.nodeAt_eq]
  exact Node.consistent_new node m.plan

end Run

/-- The store after the turn of an event: the bundle is left there where it is undeliverable. -/
theorem isSome_store_settle {fuel : ℕ} {n : Node} {ev : MeshEvent} {f : Fate} (h : n.Consistent)
    (hfate : fate fuel n ev = some f) (bundleID : GoString) :
    ((f.settle n ev).store bundleID).isSome =
      ((n.store bundleID).isSome || decide (bundleID = ev.b.id ∧ f = .undeliverable)) := by
  have hfree (hnew : n.seen.isSet ev.b.id = false) : (n.store ev.b.id).isSome = false := by
    rw [← Bool.not_eq_true]
    intro hstored
    cases hnew.symm.trans (h.seen ev.b.id hstored)
  rcases fate_cases hfate with ⟨hseen, rfl⟩ | ⟨hnew, hexpired, rfl⟩ | ⟨hnew, hlive, hdest, rfl⟩ |
    ⟨hnew, hlive, hdest, honward⟩
  · simp [Fate.settle, Node.store_ingest, hseen]
  · simp [Fate.settle, Node.store_ingest, hexpired]
  · simp [Fate.settle, Node.store_ingest, hdest]
  · rcases onward_cases honward with rfl | ⟨plan, hop, arrival, -, -, -, rfl⟩
    · by_cases hid : bundleID = ev.b.id <;>
        simp [Fate.settle, Node.store_ingest, hnew, hlive, hdest, hid]
    · by_cases hid : bundleID = ev.b.id
      · simp [Fate.settle, Node.store_dequeue, hid, hfree hnew]
      · simp [Fate.settle, Node.store_dequeue, Node.store_ingest, hid]

theorem consistent_settle {n : Node} (h : n.Consistent) (f : Fate) (ev : MeshEvent) :
    (f.settle n ev).Consistent := by
  unfold Fate.settle
  cases f with
  | forwarded hop arrival => exact (h.ingest ev.b ev.time).dequeue ev.b.id
  | _ => exact h.ingest ev.b ev.time

namespace Run

theorem Consistent.after {s : Run σ} (h : s.Consistent) (ev : MeshEvent) (queue : List MeshEvent)
    (f : Fate) : (after { s with queue := queue } ev f).Consistent := by
  intro node
  rw [nodeAt_after]
  split_ifs
  · exact consistent_settle (h ev.nodeID) f ev
  · exact h node

theorem Runs.consistent {fuel : ℕ} {s s' : Run σ} {trace : List Turn} (h : Runs fuel s trace s')
    (hs : s.Consistent) : s'.Consistent :=
  (h.rule (Q := fun _ ↦ True) (fun hs _ _ ↦ ⟨trivial, hs.after _ _ _⟩) hs).1

/-- At the end a node stores what it stored at the start and what was undeliverable there. -/
theorem Runs.isSome_store_iff {fuel : ℕ} {s s' : Run σ} {trace : List Turn}
    (h : Runs fuel s trace s') (hs : s.Consistent) (node bundleID : GoString) :
    ((s'.mesh.nodeAt node).store bundleID).isSome = true ↔
      ((s.mesh.nodeAt node).store bundleID).isSome = true ∨
        ∃ turn ∈ trace, turn.visit = (node, bundleID) ∧ turn.fate = .undeliverable := by
  induction h with
  | nil s => simp
  | @cons s s' ev queue f trace hpop hfate _ ih =>
    rw [ih (hs.after ev queue f), nodeAt_after, List.exists_mem_cons_iff, ← or_assoc]
    apply or_congr_left
    split_ifs with hnode
    · rw [isSome_store_settle (hs ev.nodeID) hfate, Bool.or_eq_true, decide_eq_true_iff, hnode]
      apply or_congr_right
      simp only [Turn.visit, Prod.mk.injEq, true_and]
      rw [eq_comm]
    · simp [Turn.visit, Ne.symm hnode]

end Run

/-- The report and the stores account for every bundle. -/
structure Run.Conserved (s : Run σ) : Prop where
  /-- Every injection of a bundle ID came to one end. -/
  balanced : ∀ bundleID, s.report.count .injected bundleID =
    s.report.count .delivered bundleID + s.report.count .expired bundleID +
      s.report.count .duplicate bundleID + s.report.count .undeliverable bundleID
  stored_iff : ∀ node bundleID, ((s.mesh.nodeAt node).store bundleID).isSome = true ↔
    0 < s.report.countAt .undeliverable node bundleID
  /-- What is stored was undeliverable once, is there in one copy and was never forwarded. -/
  stored : ∀ node bundleID, ((s.mesh.nodeAt node).store bundleID).isSome = true →
    s.report.countAt .undeliverable node bundleID = 1 ∧
    (s.mesh.nodeAt node).stored.countP (fun copy ↦ copy.map Bundle.id = some bundleID) = 1 ∧
    s.report.countAt .forwarded node bundleID = 0
  forwarded : ∀ node bundleID, 0 < s.report.countAt .forwarded node bundleID →
    (s.mesh.nodeAt node).store bundleID = none

/-- No bundle is lost and none is made up in a run that empties its queue. -/
theorem run_conserves {m : Mesh σ} (hm : m.Fresh) {fuel : ℕ} {app : σ} {s : Run σ}
    (h : m.run fuel app = some s) (hempty : s.queue = []) : s.Conserved := by
  obtain ⟨trace, hruns, -, -⟩ := Run.loop_eq_some.mp h
  have hconfigured := Run.configured_start hm app
  have hconsistent := Run.consistent_start hm app
  have hundeliverable (node bundleID : GoString) : s.report.countAt .undeliverable node bundleID =
      trace.countP fun turn ↦ turn.fate.kind = .undeliverable ∧ turn.visit = (node, bundleID) :=
    hruns.countAt_eq rfl (by simp) node bundleID
  have honce (node bundleID : GoString) : s.report.countAt .undeliverable node bundleID +
      s.report.countAt .forwarded node bundleID ≤ 1 := by
    rw [hundeliverable, hruns.countAt_eq rfl (by simp)]
    exact (Run.countP_left_or_sent trace (node, bundleID)).trans
      (hruns.countP_visit_le_one (node, bundleID))
  have hstored (node bundleID : GoString) :
      ((s.mesh.nodeAt node).store bundleID).isSome = true ↔
        0 < s.report.countAt .undeliverable node bundleID := by
    rw [hruns.isSome_store_iff hconsistent, hundeliverable, List.countP_pos_iff, Run.start,
      hm.nodeAt_eq, or_iff_right (by simp [Node.new])]
    simp [Fate.kind_eq_undeliverable_iff, and_comm]
  have hinjected : ∀ ev ∈ (Run.start m app).queue, ev.injected = true := by
    intro ev hev
    obtain ⟨inj, -, rfl⟩ := List.mem_map.mp ((Run.start_queue_perm m app).mem_iff.mp hev)
    rfl
  refine ⟨fun bundleID ↦ ?_, hstored, fun node bundleID hid ↦ ?_, fun node bundleID hsent ↦ ?_⟩
  · have hkinds := Run.countP_kinds trace bundleID
    rw [hruns.countP_arrivals hconfigured hinjected hempty] at hkinds
    rw [hruns.count_injected rfl, hruns.count_eq rfl (by simp), hruns.count_eq rfl (by simp),
      hruns.count_eq rfl (by simp), hruns.count_eq rfl (by simp)]
    omega
  · have hpos := (hstored node bundleID).mp hid
    have hle := honce node bundleID
    exact ⟨by omega, (hruns.consistent hconsistent node).countP_stored hid, by omega⟩
  · have hle := honce node bundleID
    rw [← Option.not_isSome_iff_eq_none, hstored]
    omega

theorem run_conserves_storeAndForward : ∃ s, storeAndForward.run 10 0 = some s ∧
    s.report.count .injected imageBundle.id = 3 ∧ s.report.count .duplicate imageBundle.id = 2 ∧
    s.Conserved := by
  have hrun : (storeAndForward.run 10 0).map (fun s ↦ (s.queue.length,
      s.report.count .injected imageBundle.id, s.report.count .duplicate imageBundle.id)) =
      some (0, 3, 2) := by
    decide +kernel
  obtain ⟨s, hs, hcounts⟩ := Option.map_eq_some_iff.mp hrun
  obtain ⟨hlen, hinjected, hduplicate⟩ : s.queue.length = 0 ∧
      s.report.count .injected imageBundle.id = 3 ∧
      s.report.count .duplicate imageBundle.id = 2 := by
    simpa using hcounts
  have hfresh : storeAndForward.Fresh :=
    .inject _ _ _ (.inject _ _ _ (.setHandler _ _ (.new _)))
  exact ⟨s, hs, hinjected, hduplicate,
    run_conserves hfresh hs (List.eq_nil_of_length_eq_zero hlen)⟩

end Zenith.Sim
