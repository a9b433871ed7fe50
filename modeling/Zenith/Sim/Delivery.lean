import Zenith.Sim.Mesh

/-!
# Safety of deliveries

What the report of a run says was delivered at a node is what the node itself delivered, in the same
order; it was addressed to that node and had not expired, and no node delivers a bundle ID twice.
Each event changes the node it arrives at and no other, so one step only has to say what it does to
that node and to the list of deliveries.
-/

namespace Zenith.Sim

open Go Bpv7 Cgr Dtn

variable {σ : Type}

namespace Mesh

theorem nodeAt_setNode (m : Mesh σ) (id other : GoString) (n : Node) :
    (m.setNode id n).nodeAt other = if other = id then n else m.nodeAt other := by
  unfold nodeAt setNode
  dsimp only
  rw [GoMap.insert_apply]
  split_ifs <;> rfl

@[simp] theorem setNode_setNode (m : Mesh σ) (id : GoString) (n n' : Node) :
    (m.setNode id n).setNode id n' = m.setNode id n' := by
  unfold setNode
  congr 1
  funext other
  dsimp only
  rw [GoMap.insert_apply, GoMap.insert_apply, GoMap.insert_apply]
  split_ifs <;> rfl

@[simp] theorem nodeAt_addNode (m : Mesh σ) (id other : GoString) :
    (m.addNode id).nodeAt other = m.nodeAt other := by
  unfold addNode
  rw [nodeAt_setNode]
  split_ifs with hid
  · rw [hid]
  · rfl

/-- A mesh on which nothing has run yet. -/
inductive Fresh : Mesh σ → Prop
  | new (plan : Option ContactPlan) : Fresh (new plan)
  | addNode {m : Mesh σ} (id : GoString) (h : Fresh m) : Fresh (m.addNode id)
  | setHandler {m : Mesh σ} (nodeID : GoString) (f : AppHandler σ) (h : Fresh m) :
      Fresh (m.setHandler nodeID f)
  | inject {m : Mesh σ} (nodeID : GoString) (b : Bundle) (atTime : Time) (h : Fresh m) :
      Fresh (m.inject nodeID b atTime)

theorem Fresh.nodeAt_eq {m : Mesh σ} (h : m.Fresh) (id : GoString) :
    m.nodeAt id = Node.new id m.plan := by
  induction h with
  | new plan => rfl
  | addNode other _ ih => exact (nodeAt_addNode _ other id).trans ih
  | setHandler other f _ ih => exact (nodeAt_addNode _ other id).trans ih
  | inject other b t _ ih => exact (nodeAt_addNode _ other id).trans ih

end Mesh

namespace Run

@[simp] theorem record_mesh (s : Run σ) (ev : MeshEvent) (kind : EventKind) (nextHop : GoString) :
    (s.record ev kind nextHop).mesh = s.mesh := rfl

@[simp] theorem record_deliveries (s : Run σ) (ev : MeshEvent) (kind : EventKind)
    (nextHop : GoString) : (s.record ev kind nextHop).report.deliveries = s.report.deliveries := rfl

@[simp] theorem arrive_mesh (s : Run σ) (ev : MeshEvent) : (s.arrive ev).mesh =
    s.mesh.setNode ev.nodeID ((s.mesh.nodeAt ev.nodeID).ingest ev.b ev.time).2 := by
  unfold arrive
  split_ifs <;> rfl

@[simp] theorem arrive_deliveries (s : Run σ) (ev : MeshEvent) :
    (s.arrive ev).report.deliveries = s.report.deliveries := by
  unfold arrive
  split_ifs <;> rfl

@[simp] theorem arrive_queue (s : Run σ) (ev : MeshEvent) : (s.arrive ev).queue = s.queue := by
  unfold arrive
  split_ifs <;> rfl

@[simp] theorem deliver_mesh (s : Run σ) (ev : MeshEvent) : (s.deliver ev).mesh = s.mesh := by
  unfold deliver
  dsimp only
  split <;> rfl

@[simp] theorem deliver_deliveries (s : Run σ) (ev : MeshEvent) :
    (s.deliver ev).report.deliveries =
      s.report.deliveries ++ [⟨ev.b.id, ev.nodeID, ev.time, ev.b.payload⟩] := by
  unfold deliver
  dsimp only
  split <;> rfl

/-- What forwarding does: the bundle stays where it is, or leaves over the first hop of a route. -/
theorem forward_cases {fuel : ℕ} {s s' : Run σ} {n : Node} {ev : MeshEvent}
    (h : s.forward fuel n ev = some s') :
    s' = s.record ev .undeliverable [] ∨
    ∃ route hop rest arrival, n.route fuel ev.b ev.time = some (route, true) ∧
      route.hops = hop :: rest ∧ hop.arrivalTime ev.time (bundleSize ev.b) = some arrival ∧
      s' = { ({ s with mesh := s.mesh.setNode ev.nodeID (n.dequeue ev.b.id) } : Run σ).record ev
          .forwarded hop.toNode with
        queue := push s.queue ⟨arrival, hop.toNode, ev.b, false⟩ } := by
  unfold forward at h
  cases hroute : n.route fuel ev.b ev.time with
  | none =>
    rw [hroute] at h
    cases h
  | some result =>
    obtain ⟨route, found⟩ := result
    rw [hroute] at h
    cases found with
    | false =>
      cases h
      exact .inl rfl
    | true =>
      dsimp only at h
      cases hhops : route.hops with
      | nil =>
        rw [hhops] at h
        cases h
        exact .inl rfl
      | cons hop rest =>
        rw [hhops] at h
        dsimp only at h
        cases harrival : hop.arrivalTime ev.time (bundleSize ev.b) with
        | none =>
          rw [harrival] at h
          cases h
          exact .inl rfl
        | some arrival =>
          rw [harrival] at h
          cases h
          exact .inr ⟨route, hop, rest, arrival, rfl, hhops, harrival, rfl⟩

/-- Forwarding touches the stores only. -/
theorem forward_frame {fuel : ℕ} {s s' : Run σ} {n : Node} {ev : MeshEvent}
    (hmesh : s.mesh = s.mesh.setNode ev.nodeID n) (h : s.forward fuel n ev = some s') :
    s'.report.deliveries = s.report.deliveries ∧
      ∃ n', s'.mesh = s.mesh.setNode ev.nodeID n' ∧ n'.id = n.id ∧ n'.seen = n.seen ∧
        n'.delivered = n.delivered := by
  rcases forward_cases h with rfl | ⟨_, _, _, _, -, -, -, rfl⟩
  · exact ⟨rfl, n, hmesh, rfl, rfl, rfl⟩
  · exact ⟨rfl, n.dequeue ev.b.id, rfl, by simp, by simp, by simp⟩

/-- What an event does to the node at which it arrives and to the deliveries of the report. -/
theorem process_node {fuel : ℕ} {s s' : Run σ} {ev : MeshEvent}
    (h : process fuel s ev = some s') :
    ∃ n, s'.mesh = s.mesh.setNode ev.nodeID n ∧ n.id = (s.mesh.nodeAt ev.nodeID).id ∧
      (∀ id, n.seen.isSet id =
        (decide (id = ev.b.id) || (s.mesh.nodeAt ev.nodeID).seen.isSet id)) ∧
      ((s'.report.deliveries = s.report.deliveries ∧
          n.delivered = (s.mesh.nodeAt ev.nodeID).delivered) ∨
        ((s.mesh.nodeAt ev.nodeID).seen.isSet ev.b.id = false ∧ ev.b.expired ev.time = false ∧
          ev.b.primary.destination.nodeID = (s.mesh.nodeAt ev.nodeID).id ∧
          s'.report.deliveries =
            s.report.deliveries ++ [⟨ev.b.id, ev.nodeID, ev.time, ev.b.payload⟩] ∧
          n.delivered = (s.mesh.nodeAt ev.nodeID).delivered ++ [ev.b])) := by
  have hid := (s.mesh.nodeAt ev.nodeID).ingest_id ev.b ev.time
  have hseen := (s.mesh.nodeAt ev.nodeID).isSet_ingest_seen ev.b ev.time
  have hmesh := s.arrive_mesh ev
  unfold process at h
  rcases (s.mesh.nodeAt ev.nodeID).ingest_cases ev.b ev.time with
    ⟨-, hingest⟩ | ⟨-, -, hingest⟩ | ⟨hnew, hlive, hdest, hingest⟩ | ⟨-, -, -, hingest⟩
  · rw [hingest] at h hid hseen hmesh
    cases h
    exact ⟨_, hmesh, hid, hseen, .inl ⟨s.arrive_deliveries ev, rfl⟩⟩
  · rw [hingest] at h hid hseen hmesh
    cases h
    exact ⟨_, hmesh, hid, hseen, .inl ⟨s.arrive_deliveries ev, rfl⟩⟩
  · rw [hingest] at h hid hseen hmesh
    cases h
    refine ⟨_, (deliver_mesh _ ev).trans hmesh, hid, hseen, .inr ⟨hnew, hlive, hdest, ?_, rfl⟩⟩
    rw [deliver_deliveries, arrive_deliveries]
  · rw [hingest] at h hid hseen hmesh
    obtain ⟨hsame, n, hset, hnid, hnseen, hndelivered⟩ := forward_frame
      (by rw [hmesh, Mesh.setNode_setNode]) h
    refine ⟨n, by rw [hset, hmesh, Mesh.setNode_setNode], hnid.trans hid, ?_, .inl ⟨?_, hndelivered⟩⟩
    · rw [hnseen]
      exact hseen
    · exact hsame.trans (s.arrive_deliveries ev)

/-- What every event of a run keeps holds at its end. -/
theorem loop_rule {fuel : ℕ} {P : Run σ → Prop}
    (hstep : ∀ {s s' ev queue}, P s → BinaryHeap.pop (·.time) s.queue = some (ev, queue) →
      process fuel { s with queue := queue } ev = some s' → P s')
    {limit : ℕ} {s s' : Run σ} (hs : P s) (h : loop fuel limit s = some s') : P s' := by
  induction limit generalizing s with
  | zero =>
    cases h
    exact hs
  | succ limit ih =>
    unfold loop at h
    cases hpop : BinaryHeap.pop (·.time) s.queue with
    | none =>
      rw [hpop] at h
      cases h
      exact hs
    | some entry =>
      obtain ⟨ev, queue⟩ := entry
      rw [hpop] at h
      dsimp only at h
      cases hprocess : process fuel { s with queue := queue } ev with
      | none =>
        rw [hprocess] at h
        cases h
      | some next =>
        rw [hprocess] at h
        exact ih (hstep hs hpop hprocess) h

/-! ## Deliveries -/

/-- The record `d` is about the bundle `b`, which was due at that node at that time. -/
structure DeliveryOf (d : Delivery) (b : Bundle) : Prop where
  bundleID : d.bundleID = b.id
  payload : d.payload = b.payload
  destination : d.node = b.primary.destination.nodeID
  live : b.expired d.time = false

structure Recorded (s : Run σ) : Prop where
  keyed : ∀ id, (s.mesh.nodeAt id).id = id
  delivered : ∀ id, List.Forall₂ DeliveryOf (s.report.deliveries.filter (·.node = id))
    (s.mesh.nodeAt id).delivered
  seen : ∀ id, ∀ b ∈ (s.mesh.nodeAt id).delivered, (s.mesh.nodeAt id).seen.isSet b.id = true
  nodup : (s.report.deliveries.map fun d ↦ (d.node, d.bundleID)).Nodup

theorem recorded_start {m : Mesh σ} (hm : m.Fresh) (app : σ) : (start m app).Recorded where
  keyed := fun id ↦ congrArg Node.id (hm.nodeAt_eq id)
  delivered := by
    intro id
    rw [start, hm.nodeAt_eq]
    exact .nil
  seen := by
    intro id b hb
    rw [start, hm.nodeAt_eq] at hb
    cases hb
  nodup := List.nodup_nil

theorem Recorded.withQueue {s : Run σ} (h : s.Recorded) (queue : List MeshEvent) :
    Recorded { s with queue := queue } := ⟨h.keyed, h.delivered, h.seen, h.nodup⟩

theorem Recorded.exists_of_mem {s : Run σ} (h : s.Recorded) {d : Delivery}
    (hd : d ∈ s.report.deliveries) :
    ∃ b ∈ (s.mesh.nodeAt d.node).delivered, DeliveryOf d b := by
  have hmem : d ∈ s.report.deliveries.filter (·.node = d.node) := by
    rw [List.mem_filter]
    exact ⟨hd, decide_eq_true rfl⟩
  have hall := h.delivered d.node
  generalize s.report.deliveries.filter (·.node = d.node) = ds at hall hmem
  generalize (s.mesh.nodeAt d.node).delivered = bundles at hall
  induction hall with
  | nil => cases hmem
  | @cons d' b ds bs hof _ ih =>
    rcases List.mem_cons.mp hmem with rfl | htail
    · exact ⟨b, List.mem_cons_self, hof⟩
    · obtain ⟨b', hb', hof'⟩ := ih htail
      exact ⟨b', List.mem_cons_of_mem b hb', hof'⟩

/-- What is recorded for a node was seen there. -/
theorem Recorded.isSet_of_mem {s : Run σ} (h : s.Recorded) {d : Delivery}
    (hd : d ∈ s.report.deliveries) : (s.mesh.nodeAt d.node).seen.isSet d.bundleID = true := by
  obtain ⟨b, hb, hof⟩ := h.exists_of_mem hd
  rw [hof.bundleID]
  exact h.seen d.node b hb

theorem Recorded.process {fuel : ℕ} {s s' : Run σ} {ev : MeshEvent} (h : s.Recorded)
    (hprocess : process fuel s ev = some s') : s'.Recorded := by
  obtain ⟨n, hmesh, hid, hseen, hcases⟩ := process_node hprocess
  have hkeyed : n.id = ev.nodeID := hid.trans (h.keyed ev.nodeID)
  have hnode (id : GoString) :
      s'.mesh.nodeAt id = if id = ev.nodeID then n else s.mesh.nodeAt id := by
    rw [hmesh, Mesh.nodeAt_setNode]
  have hkeyed' (id : GoString) : (s'.mesh.nodeAt id).id = id := by
    rw [hnode]
    split_ifs with hat
    · rw [hkeyed, hat]
    · exact h.keyed id
  rcases hcases with ⟨hsame, hdelivered⟩ | ⟨hnew, hlive, hdest, happend, hdelivered⟩
  · refine ⟨hkeyed', fun id ↦ ?_, fun id b hb ↦ ?_, ?_⟩
    · rw [hsame, hnode]
      split_ifs with hat
      · rw [hdelivered, hat]
        exact h.delivered ev.nodeID
      · exact h.delivered id
    · rw [hnode] at hb ⊢
      split_ifs with hat
      · rw [if_pos hat, hdelivered] at hb
        rw [hseen, h.seen ev.nodeID b hb, Bool.or_true]
      · rw [if_neg hat] at hb
        exact h.seen id b hb
    · rw [hsame]
      exact h.nodup
  · refine ⟨hkeyed', fun id ↦ ?_, fun id b hb ↦ ?_, ?_⟩
    · rw [happend, List.filter_append, hnode]
      by_cases hat : id = ev.nodeID
      · rw [if_pos hat, hdelivered, hat]
        apply List.rel_append (h.delivered ev.nodeID)
        rw [List.filter_singleton, decide_eq_true rfl]
        exact .cons ⟨rfl, rfl, ((h.keyed ev.nodeID).symm.trans hdest.symm), hlive⟩ .nil
      · rw [if_neg hat, List.filter_singleton, decide_eq_false (Ne.symm hat), Bool.cond_false,
          List.append_nil]
        exact h.delivered id
    · rw [hnode] at hb ⊢
      split_ifs with hat
      · rw [if_pos hat, hdelivered, List.mem_append, List.mem_singleton] at hb
        rcases hb with hold | rfl
        · rw [hseen, h.seen ev.nodeID b hold, Bool.or_true]
        · rw [hseen, decide_eq_true rfl, Bool.true_or]
      · rw [if_neg hat] at hb
        exact h.seen id b hb
    · rw [happend, List.map_append, List.map_singleton]
      refine List.nodup_append.mpr ⟨h.nodup, List.nodup_singleton _, ?_⟩
      intro pair hpair other hother heq
      rw [List.mem_singleton] at hother
      subst hother
      obtain ⟨d, hd, rfl⟩ := List.mem_map.mp hpair
      obtain ⟨hdnode, hdid⟩ := Prod.mk.inj heq
      have hset := h.isSet_of_mem hd
      rw [hdnode, hdid, hnew] at hset
      cases hset

end Run

/-- Every run of a fresh mesh delivers to the destination, in time, at most once, and the report
agrees with what each node delivered. -/
theorem run_deliveries_safe {m : Mesh σ} (hm : m.Fresh) {fuel : ℕ} {app : σ} {s : Run σ}
    (h : m.run fuel app = some s) :
    (∀ d ∈ s.report.deliveries, ∃ b ∈ (s.mesh.nodeAt d.node).delivered,
      d.bundleID = b.id ∧ d.node = b.primary.destination.nodeID ∧ b.expired d.time = false) ∧
    (s.report.deliveries.map fun d ↦ (d.node, d.bundleID)).Nodup ∧
    ∀ id, List.Forall₂ Run.DeliveryOf (s.report.deliveries.filter (·.node = id))
      (s.mesh.nodeAt id).delivered := by
  have hrecorded : s.Recorded := Run.loop_rule
    (fun hs _ hprocess ↦ (hs.withQueue _).process hprocess) (Run.recorded_start hm app) h
  refine ⟨fun d hd ↦ ?_, hrecorded.nodup, hrecorded.delivered⟩
  obtain ⟨b, hb, hof⟩ := hrecorded.exists_of_mem hd
  exact ⟨b, hb, hof.bundleID, hof.destination, hof.live⟩

/-- From `dtn://ground-1` to `dtn://ground-2`, created at 2026-01-01T00:00:00Z, for four hours. -/
def imageBundle : Bundle where
  primary := ⟨7, 0, CRC16, DTN (lit "//ground-2/inbox"), DTN (lit "//ground-1/out"), NullEndpoint,
    ⟨820540800000, 0⟩, 14400000, 0, 0⟩
  canonical := [⟨BlockTypePayload, 1, 0, CRC16, [1, 2, 3]⟩]

/-- A satellite sees the one station now and the other after 55 minutes; the second station sends
what it receives once more, and the first sends it twice. -/
def storeAndForward : Mesh ℕ :=
  let base : Time := 1767225600 * second
  let plan := ContactPlan.newContactPlan
    [⟨lit "dtn://ground-1", lit "dtn://sat-7", base, base + 300 * second, 1000000, 3 * millisecond, 1⟩,
      ⟨lit "dtn://sat-7", lit "dtn://ground-2", base + 3300 * second, base + 3600 * second, 1000000,
        3 * millisecond, 1⟩]
  let echo : AppHandler ℕ := fun calls deliveredTo b now ↦
    ([⟨deliveredTo, some b, now⟩, ⟨deliveredTo, none, now⟩], calls + 1)
  (((Mesh.new (some plan)).setHandler (lit "dtn://ground-2") echo).inject (lit "dtn://ground-1")
    imageBundle base).inject (lit "dtn://ground-1") imageBundle base

theorem run_deliveries_safe_storeAndForward : ∃ s, storeAndForward.run 10 0 = some s ∧
    s.report.deliveries.length = 1 ∧
    (∀ d ∈ s.report.deliveries, ∃ b ∈ (s.mesh.nodeAt d.node).delivered,
      d.bundleID = b.id ∧ d.node = b.primary.destination.nodeID ∧ b.expired d.time = false) ∧
    (s.report.deliveries.map fun d ↦ (d.node, d.bundleID)).Nodup ∧
    ∀ id, List.Forall₂ Run.DeliveryOf (s.report.deliveries.filter (·.node = id))
      (s.mesh.nodeAt id).delivered := by
  have hrun : (storeAndForward.run 10 0).map (·.report.deliveries.length) = some 1 := by
    decide +kernel
  obtain ⟨s, hs, hlen⟩ := Option.map_eq_some_iff.mp hrun
  have hfresh : storeAndForward.Fresh :=
    .inject _ _ _ (.inject _ _ _ (.setHandler _ _ (.new _)))
  exact ⟨s, hs, hlen, run_deliveries_safe hfresh hs⟩

end Zenith.Sim
