import Zenith.Cgr.Optimal
import Zenith.Sim.Delivery

/-!
# Progress of a single bundle

Every node plans anew for the bundle it holds. Without handlers and with one injection the queue
holds one event at a time, and a run is a walk along the first hops of the routes that the nodes
find. The bundle is delivered exactly where that walk comes to the destination without coming back
to a node, which would drop it as a duplicate. On a plan that never goes back in time every node on
the walk finds a route with the same arrival time, so that coming back is all that can go wrong.
-/

namespace Zenith.Sim

open Go Bpv7 Cgr Dtn EarliestArrival

/-- The walk along first hops from `n` at time `t` to `m` at time `a`. The stops are the nodes left
behind, with the times of arrival there; `dest` is not left. -/
inductive Walk (p : ContactPlan) (sizeBytes : ℤ) (dest : GoString) :
    GoString → Time → List (GoString × Time) → GoString → Time → Prop
  | nil (n : GoString) (t : Time) : Walk p sizeBytes dest n t [] n t
  | hop {n m : GoString} {t t' a : Time} {fuel : ℕ} {r : Route} {hop : Contact}
      {rest : List Contact} {stops : List (GoString × Time)} (hne : n ≠ dest)
      (hroute : p.findRoute fuel n dest sizeBytes t = some (r, true)) (hhops : r.hops = hop :: rest)
      (harrival : hop.arrivalTime t sizeBytes = some t')
      (htail : Walk p sizeBytes dest hop.toNode t' stops m a) :
      Walk p sizeBytes dest n t ((n, t) :: stops) m a

section Single

variable {p : ContactPlan} {b : Bundle}

/-- A mesh over `p` without handlers, with the single injection of `b` at `source` at time `t`. -/
def singleInjection (p : ContactPlan) (source : GoString) (b : Bundle) (t : Time) : Mesh Unit :=
  (Mesh.new (some p)).inject source b t

theorem nodeAt_singleInjection (source id : GoString) (t : Time) :
    (singleInjection p source b t).nodeAt id = Node.new id (some p) :=
  Mesh.Fresh.nodeAt_eq (.inject source b t (.new (some p))) id

/-- `Run` comes back with the one delivery of `b` at its destination, at time `a`. -/
def DeliversAt (p : ContactPlan) (source : GoString) (b : Bundle) (t a : Time) : Prop :=
  ∃ fuel s, (singleInjection p source b t).run fuel () = some s ∧
    s.report.deliveries = [⟨b.id, b.primary.destination.nodeID, a, b.payload⟩]

namespace Run

/-- The event `ev` is all there is to do, and nothing has been delivered. -/
structure Solo (p : ContactPlan) (b : Bundle) (ev : MeshEvent) (s : Run Unit) : Prop where
  bundle : ev.b = b
  queue : s.queue = [ev]
  deliveries : s.report.deliveries = []
  handlers : ∀ id, s.mesh.handlers id = none
  keyed : ∀ id, (s.mesh.nodeAt id).id = id
  planned : ∀ id, (s.mesh.nodeAt id).plan = some p

/-- There is nothing left to do. -/
structure Over (s : Run Unit) (deliveries : List Delivery) : Prop where
  queue : s.queue = []
  deliveries : s.report.deliveries = deliveries

theorem loop_of_over {s : Run Unit} {ds : List Delivery} (h : s.Over ds) (fuel limit : ℕ) :
    loop fuel limit s = some s := by
  cases limit with
  | zero => rfl
  | succ limit => rw [loop, h.queue, BinaryHeap.pop_eq_none.mpr rfl]

theorem loop_succ_of_solo {s : Run Unit} {ev : MeshEvent} (h : s.Solo p b ev) (fuel limit : ℕ) :
    loop fuel (limit + 1) s =
      (process fuel { s with queue := [] } ev).bind (loop fuel limit) := by
  have hpop : BinaryHeap.pop (·.time) s.queue = some (ev, []) := by
    rw [h.queue]
    rfl
  rw [loop, hpop]
  dsimp only
  cases process fuel { s with queue := [] } ev <;> rfl

theorem solo_start (source : GoString) (t : Time) :
    (start (singleInjection p source b t) ()).Solo p b ⟨t, source, b, true⟩ where
  bundle := rfl
  queue := rfl
  deliveries := rfl
  handlers := fun _ ↦ rfl
  keyed := fun id ↦ congrArg Node.id (nodeAt_singleInjection source id t)
  planned := fun id ↦ congrArg Node.plan (nodeAt_singleInjection source id t)

section Process

variable {s : Run Unit} {ev : MeshEvent}

/-- What keeps an event alone in the queue: a node that leaves ID and plan as they are. -/
theorem Solo.replace (h : s.Solo p b ev) {s' : Run Unit} {ev' : MeshEvent} {n : Node}
    (hbundle : ev'.b = b) (hqueue : s'.queue = [ev']) (hdeliveries : s'.report.deliveries = [])
    (hhandlers : s'.mesh.handlers = s.mesh.handlers)
    (hnode : ∀ id, s'.mesh.nodeAt id = if id = ev.nodeID then n else s.mesh.nodeAt id)
    (hid : n.id = ev.nodeID) (hplan : n.plan = some p) : s'.Solo p b ev' where
  bundle := hbundle
  queue := hqueue
  deliveries := hdeliveries
  handlers := fun id ↦ (congrFun hhandlers id).trans (h.handlers id)
  keyed := by
    intro id
    rw [hnode]
    split_ifs with hat
    · rw [hid, hat]
    · exact h.keyed id
  planned := by
    intro id
    rw [hnode]
    split_ifs
    · exact hplan
    · exact h.planned id

theorem Solo.process_dropped (h : s.Solo p b ev) (fuel : ℕ)
    (hdrop : (s.mesh.nodeAt ev.nodeID).seen.isSet b.id = true ∨ b.expired ev.time = true) :
    ∃ s', process fuel { s with queue := [] } ev = some s' ∧ s'.Over [] := by
  obtain rfl := h.bundle
  have hover (kind : EventKind) :
      ((({ s with queue := [] } : Run Unit).arrive ev).record ev kind []).Over [] :=
    ⟨arrive_queue _ ev, (arrive_deliveries _ ev).trans h.deliveries⟩
  unfold process
  dsimp only
  rcases (s.mesh.nodeAt ev.nodeID).ingest_cases ev.b ev.time with
    ⟨-, hingest⟩ | ⟨-, -, hingest⟩ | ⟨hnew, hlive, -⟩ | ⟨hnew, hlive, -⟩
  · rw [hingest]
    exact ⟨_, rfl, hover .duplicate⟩
  · rw [hingest]
    exact ⟨_, rfl, hover .expired⟩
  · rcases hdrop with hseen | hexpired
    · cases hnew.symm.trans hseen
    · cases hlive.symm.trans hexpired
  · rcases hdrop with hseen | hexpired
    · cases hnew.symm.trans hseen
    · cases hlive.symm.trans hexpired

theorem Solo.process_delivered (h : s.Solo p b ev) (fuel : ℕ)
    (hnew : (s.mesh.nodeAt ev.nodeID).seen.isSet b.id = false) (hlive : b.expired ev.time = false)
    (hdest : ev.nodeID = b.primary.destination.nodeID) :
    ∃ s', process fuel { s with queue := [] } ev = some s' ∧
      s'.Over [⟨b.id, ev.nodeID, ev.time, b.payload⟩] := by
  obtain rfl := h.bundle
  unfold process
  dsimp only
  rcases (s.mesh.nodeAt ev.nodeID).ingest_cases ev.b ev.time with
    ⟨hseen, -⟩ | ⟨-, hexpired, -⟩ | ⟨-, -, -, hingest⟩ | ⟨-, -, hother, -⟩
  · cases hnew.symm.trans hseen
  · cases hlive.symm.trans hexpired
  · rw [hingest]
    refine ⟨_, rfl, ?_, ?_⟩
    · have hhandlers : (({ s with queue := [] } : Run Unit).arrive ev).mesh.handlers ev.nodeID =
          none := by
        rw [arrive_mesh]
        exact h.handlers ev.nodeID
      unfold deliver
      dsimp only [record]
      rw [hhandlers]
      exact arrive_queue _ ev
    · rw [deliver_deliveries, arrive_deliveries, h.deliveries, List.nil_append]
  · rw [h.keyed, ← hdest] at hother
    exact absurd rfl hother

/-- A node that is not the destination stores the bundle and asks for a route. -/
theorem Solo.process_stored (h : s.Solo p b ev) (fuel : ℕ)
    (hnew : (s.mesh.nodeAt ev.nodeID).seen.isSet b.id = false) (hlive : b.expired ev.time = false)
    (hdest : ev.nodeID ≠ b.primary.destination.nodeID) :
    ∃ n, process fuel { s with queue := [] } ev =
        (({ s with queue := [] } : Run Unit).arrive ev).forward fuel n ev ∧
      n.id = ev.nodeID ∧ n.plan = some p ∧
      n.seen = (s.mesh.nodeAt ev.nodeID).seen.insert b.id true := by
  obtain rfl := h.bundle
  unfold process
  dsimp only
  rcases (s.mesh.nodeAt ev.nodeID).ingest_cases ev.b ev.time with
    ⟨hseen, -⟩ | ⟨-, hexpired, -⟩ | ⟨-, -, hself, -⟩ | ⟨-, -, -, hingest⟩
  · cases hnew.symm.trans hseen
  · cases hlive.symm.trans hexpired
  · rw [h.keyed] at hself
    exact absurd hself.symm hdest
  · rw [hingest]
    exact ⟨_, rfl, h.keyed ev.nodeID, h.planned ev.nodeID, rfl⟩

theorem route_eq_findRoute {n : Node} (hplan : n.plan = some p) (fuel : ℕ) (b : Bundle)
    (t : Time) : n.route fuel b t =
      p.findRoute fuel n.id b.primary.destination.nodeID (bundleSize b) t := by
  rw [Node.route, hplan]
  rfl

theorem Solo.process_forwarded {fuel : ℕ} {r : Route} {hop : Contact} {rest : List Contact}
    {t : Time} (h : s.Solo p b ev) (hnew : (s.mesh.nodeAt ev.nodeID).seen.isSet b.id = false)
    (hlive : b.expired ev.time = false) (hdest : ev.nodeID ≠ b.primary.destination.nodeID)
    (hroute : p.findRoute fuel ev.nodeID b.primary.destination.nodeID (bundleSize b) ev.time =
      some (r, true)) (hhops : r.hops = hop :: rest)
    (harrival : hop.arrivalTime ev.time (bundleSize b) = some t) :
    ∃ s', process fuel { s with queue := [] } ev = some s' ∧
      s'.Solo p b ⟨t, hop.toNode, b, false⟩ ∧
      ∀ id, (s'.mesh.nodeAt id).seen.isSet b.id =
        (decide (id = ev.nodeID) || (s.mesh.nodeAt id).seen.isSet b.id) := by
  obtain ⟨n, hprocess, hid, hplan, hseen⟩ := h.process_stored fuel hnew hlive hdest
  rw [forward, route_eq_findRoute hplan, hid, h.bundle, hroute] at hprocess
  dsimp only at hprocess
  rw [hhops] at hprocess
  dsimp only at hprocess
  rw [harrival] at hprocess
  have hnode (id : GoString) : ((({ s with queue := [] } : Run Unit).arrive ev).mesh.setNode
      ev.nodeID (n.dequeue b.id)).nodeAt id =
        if id = ev.nodeID then n.dequeue b.id else s.mesh.nodeAt id := by
    rw [arrive_mesh, Mesh.setNode_setNode, Mesh.nodeAt_setNode]
  refine ⟨_, hprocess, h.replace rfl ?_ ?_ ?_ hnode (by simp [hid]) (by simp [hplan]), fun id ↦ ?_⟩
  · dsimp only [record]
    rw [arrive_queue]
    rfl
  · exact (arrive_deliveries _ ev).trans h.deliveries
  · rw [record_mesh, arrive_mesh]
    rfl
  · rw [record_mesh, hnode]
    by_cases hat : id = ev.nodeID
    · rw [if_pos hat, Node.dequeue_seen, hseen, GoMap.isSet_insert, hat]
      simp
    · rw [if_neg hat]
      simp [hat]

/-- What becomes of the only event: the bundle is lost, delivered, or on its way to the next node. -/
theorem Solo.process_cases {fuel : ℕ} {s' : Run Unit} (h : s.Solo p b ev)
    (hprocess : process fuel { s with queue := [] } ev = some s') :
    s'.Over [] ∨
    (b.expired ev.time = false ∧ ev.nodeID = b.primary.destination.nodeID ∧
      s'.Over [⟨b.id, ev.nodeID, ev.time, b.payload⟩]) ∨
    ((s.mesh.nodeAt ev.nodeID).seen.isSet b.id = false ∧ b.expired ev.time = false ∧
      ev.nodeID ≠ b.primary.destination.nodeID ∧ ∃ r hop rest t,
        p.findRoute fuel ev.nodeID b.primary.destination.nodeID (bundleSize b) ev.time =
          some (r, true) ∧ r.hops = hop :: rest ∧
        hop.arrivalTime ev.time (bundleSize b) = some t ∧
        s'.Solo p b ⟨t, hop.toNode, b, false⟩ ∧
        ∀ id, (s'.mesh.nodeAt id).seen.isSet b.id =
          (decide (id = ev.nodeID) || (s.mesh.nodeAt id).seen.isSet b.id)) := by
  by_cases hdrop : (s.mesh.nodeAt ev.nodeID).seen.isSet b.id = true ∨ b.expired ev.time = true
  · obtain ⟨s₀, hs₀, hover⟩ := h.process_dropped fuel hdrop
    cases hs₀.symm.trans hprocess
    exact .inl hover
  rw [not_or, Bool.not_eq_true, Bool.not_eq_true] at hdrop
  obtain ⟨hnew, hlive⟩ := hdrop
  by_cases hdest : ev.nodeID = b.primary.destination.nodeID
  · obtain ⟨s₀, hs₀, hover⟩ := h.process_delivered fuel hnew hlive hdest
    cases hs₀.symm.trans hprocess
    exact .inr (.inl ⟨hlive, hdest, hover⟩)
  obtain ⟨n, hstored, hid, hplan, -⟩ := h.process_stored fuel hnew hlive hdest
  have hlost :
      ((({ s with queue := [] } : Run Unit).arrive ev).record ev .undeliverable []).Over [] :=
    ⟨arrive_queue _ ev, (arrive_deliveries _ ev).trans h.deliveries⟩
  rcases forward_cases (hstored.symm.trans hprocess) with
    rfl | ⟨r, hop, rest, t, hroute, hhops, harrival, -⟩
  · exact .inl hlost
  · rw [route_eq_findRoute hplan, hid, h.bundle] at hroute
    rw [h.bundle] at harrival
    obtain ⟨s₀, hs₀, hsolo, hseen⟩ := h.process_forwarded hnew hlive hdest hroute hhops harrival
    cases hs₀.symm.trans hprocess
    exact .inr (.inr ⟨hnew, hlive, hdest, r, hop, rest, t, hroute, hhops, harrival, hsolo, hseen⟩)

/-- A run that delivers has walked to the destination without coming back to a node. -/
theorem Solo.walk_of_loop {fuel limit : ℕ} {s' : Run Unit} {a : Time} (h : s.Solo p b ev)
    (hloop : loop fuel limit s = some s')
    (hdelivered : s'.report.deliveries = [⟨b.id, b.primary.destination.nodeID, a, b.payload⟩]) :
    ∃ stops, Walk p (bundleSize b) b.primary.destination.nodeID ev.nodeID ev.time stops
        b.primary.destination.nodeID a ∧
      (stops.map Prod.fst).Nodup ∧
      (∀ stop ∈ stops, (s.mesh.nodeAt stop.1).seen.isSet b.id = false ∧
        b.expired stop.2 = false) ∧
      b.expired a = false ∧ stops.length < limit := by
  induction limit generalizing s ev with
  | zero =>
    cases hloop
    cases h.deliveries.symm.trans hdelivered
  | succ limit ih =>
    rw [loop_succ_of_solo h] at hloop
    obtain ⟨s₁, hprocess, hrest⟩ := Option.bind_eq_some_iff.mp hloop
    rcases h.process_cases hprocess with hover | ⟨hlive, hdest, hover⟩ |
      ⟨hnew, hlive, hne, r, hop, rest, t, hroute, hhops, harrival, hsolo, hseen⟩
    · rw [loop_of_over hover] at hrest
      cases hrest
      cases hover.deliveries.symm.trans hdelivered
    · rw [loop_of_over hover] at hrest
      cases hrest
      have hsame := hover.deliveries.symm.trans hdelivered
      rw [List.cons.injEq, Delivery.mk.injEq] at hsame
      obtain ⟨⟨-, -, rfl, -⟩, -⟩ := hsame
      exact ⟨[], hdest ▸ .nil _ _, List.nodup_nil, fun _ h ↦ absurd h List.not_mem_nil, hlive,
        Nat.succ_pos limit⟩
    · obtain ⟨stops, hwalk, hnodup, hstops, ha, hlen⟩ := ih hsolo hrest
      have hother {stop : GoString × Time} (hstop : stop ∈ stops) :
          stop.1 ≠ ev.nodeID ∧ (s.mesh.nodeAt stop.1).seen.isSet b.id = false := by
        have hunseen := (hstops stop hstop).1
        rw [hseen, Bool.or_eq_false_iff, decide_eq_false_iff_not] at hunseen
        exact hunseen
      refine ⟨(ev.nodeID, ev.time) :: stops, .hop hne hroute hhops harrival hwalk, ?_, ?_, ha, ?_⟩
      · rw [List.map_cons, List.nodup_cons]
        refine ⟨fun hmem ↦ ?_, hnodup⟩
        obtain ⟨stop, hstop, hself⟩ := List.mem_map.mp hmem
        exact (hother hstop).1 hself
      · intro stop hstop
        rcases List.mem_cons.mp hstop with rfl | htail
        · exact ⟨hnew, hlive⟩
        · exact ⟨(hother htail).2, (hstops stop htail).2⟩
      · rw [List.length_cons]
        omega

/-- A walk to the destination that does not come back to a node is what the run does. -/
theorem exists_loop_of_walk {n m : GoString} {t a : Time} {stops : List (GoString × Time)}
    (hwalk : Walk p (bundleSize b) b.primary.destination.nodeID n t stops m a)
    (hm : m = b.primary.destination.nodeID) (hnodup : (stops.map Prod.fst).Nodup)
    (hlive : ∀ stop ∈ stops, b.expired stop.2 = false) (ha : b.expired a = false) :
    ∃ fuel₀, ∀ fuel ≥ fuel₀, ∀ limit > stops.length, ∀ (s : Run Unit) (ev : MeshEvent),
      s.Solo p b ev → ev.nodeID = n → ev.time = t →
      (∀ x ∈ m :: stops.map Prod.fst, (s.mesh.nodeAt x).seen.isSet b.id = false) →
      ∃ s', loop fuel limit s = some s' ∧
        s'.report.deliveries = [⟨b.id, m, a, b.payload⟩] := by
  induction hwalk with
  | nil n t =>
    refine ⟨0, fun fuel _ limit hlimit s ev h hn ht hunseen ↦ ?_⟩
    obtain ⟨limit, rfl⟩ : ∃ k, limit = k + 1 := ⟨limit - 1, by omega⟩
    subst hn
    subst ht
    obtain ⟨s', hprocess, hover⟩ := h.process_delivered fuel (hunseen _ List.mem_cons_self) ha hm
    refine ⟨s', ?_, hover.deliveries⟩
    rw [loop_succ_of_solo h, hprocess]
    exact loop_of_over hover fuel limit
  | @hop n m t t' a fuel₁ r hop rest stops hne hroute hhops harrival hwalk ih =>
    rw [List.map_cons, List.nodup_cons] at hnodup
    obtain ⟨fuel₂, hrun⟩ := ih hm hnodup.2 (fun stop h ↦ hlive stop (List.mem_cons_of_mem _ h)) ha
    refine ⟨max fuel₁ fuel₂, fun fuel hfuel limit hlimit s ev h hn ht hunseen ↦ ?_⟩
    rw [List.length_cons] at hlimit
    obtain ⟨limit, rfl⟩ : ∃ k, limit = k + 1 := ⟨limit - 1, by omega⟩
    subst hn
    subst ht
    rw [List.map_cons] at hunseen
    have hfound := findRoute_mono ((le_max_left fuel₁ fuel₂).trans hfuel) hroute
    obtain ⟨s₁, hprocess, hsolo, hseen⟩ := h.process_forwarded
      (hunseen _ (by simp)) (hlive _ List.mem_cons_self) hne hfound hhops harrival
    have hrest : ∀ x ∈ m :: stops.map Prod.fst, (s₁.mesh.nodeAt x).seen.isSet b.id = false := by
      intro x hx
      rw [hseen, Bool.or_eq_false_iff, decide_eq_false_iff_not]
      rcases List.mem_cons.mp hx with rfl | htail
      · exact ⟨hm ▸ Ne.symm hne, hunseen x List.mem_cons_self⟩
      · refine ⟨fun hself ↦ hnodup.1 (hself ▸ htail), hunseen x ?_⟩
        exact List.mem_cons_of_mem _ (List.mem_cons_of_mem _ htail)
    obtain ⟨s', hloop, hdeliveries⟩ := hrun fuel ((le_max_right fuel₁ fuel₂).trans hfuel) limit
      (by omega) s₁ _ hsolo rfl rfl hrest
    refine ⟨s', ?_, hdeliveries⟩
    rw [loop_succ_of_solo h, hprocess]
    exact hloop

end Process

end Run

/-- The bundle comes to its destination at time `a` along the first hops of the routes found on the
way: without coming back to a node, in time at each stop and within the limit of events. -/
def WalksTo (p : ContactPlan) (source : GoString) (b : Bundle) (t a : Time) : Prop :=
  ∃ stops, Walk p (bundleSize b) b.primary.destination.nodeID source t stops
      b.primary.destination.nodeID a ∧
    (stops.map Prod.fst).Nodup ∧ (∀ stop ∈ stops, b.expired stop.2 = false) ∧
    b.expired a = false ∧ stops.length < maxEvents

/-- The run and the walk agree, whatever the plan. -/
theorem deliversAt_iff_walksTo (p : ContactPlan) (source : GoString) (b : Bundle) (t a : Time) :
    DeliversAt p source b t a ↔ WalksTo p source b t a := by
  have hsolo := Run.solo_start (p := p) (b := b) source t
  constructor
  · intro ⟨fuel, s, hrun, hdeliveries⟩
    obtain ⟨stops, hwalk, hnodup, hstops, ha, hlen⟩ := hsolo.walk_of_loop hrun hdeliveries
    exact ⟨stops, hwalk, hnodup, fun stop hstop ↦ (hstops stop hstop).2, ha, hlen⟩
  · intro ⟨stops, hwalk, hnodup, hlive, ha, hlen⟩
    obtain ⟨fuel, hloop⟩ := Run.exists_loop_of_walk hwalk rfl hnodup hlive ha
    have hunseen (x : GoString) :
        ((singleInjection p source b t).nodeAt x).seen.isSet b.id = false := by
      rw [nodeAt_singleInjection, Node.isSet_new_seen]
    obtain ⟨s, hs, hdeliveries⟩ := hloop fuel le_rfl maxEvents hlen _ _ hsolo rfl rfl
      fun x _ ↦ hunseen x
    exact ⟨fuel, s, hs, hdeliveries⟩

end Single

/-! ## Plans that never go back in time -/

theorem expired_mono {b : Bundle} {t a : Time} (hle : t ≤ a) (h : b.expired a = false) :
    b.expired t = false := by
  unfold Bundle.expired at h ⊢
  split_ifs at h ⊢
  · rfl
  · simp only [decide_eq_false_iff_not, not_lt] at h ⊢
    exact hle.trans h

namespace Walk

variable {p : ContactPlan} {sizeBytes : ℤ} {dest n m : GoString} {t a A : Time}
  {stops : List (GoString × Time)}

theorem snoc {fuel : ℕ} {r : Route} {hop : Contact} {rest : List Contact} {a' : Time}
    (h : Walk p sizeBytes dest n t stops m a) (hne : m ≠ dest)
    (hroute : p.findRoute fuel m dest sizeBytes a = some (r, true)) (hhops : r.hops = hop :: rest)
    (harrival : hop.arrivalTime a sizeBytes = some a') :
    Walk p sizeBytes dest n t (stops ++ [(m, a)]) hop.toNode a' := by
  induction h with
  | nil n t => exact .hop hne hroute hhops harrival (.nil _ _)
  | hop hne' hroute' hhops' harrival' _ ih =>
    exact .hop hne' hroute' hhops' harrival' (ih hne hroute harrival)

theorem ne_dest (h : Walk p sizeBytes dest n t stops m a) : ∀ stop ∈ stops, stop.1 ≠ dest := by
  induction h with
  | nil n t => exact fun _ h ↦ absurd h List.not_mem_nil
  | hop hne _ _ _ _ ih =>
    intro stop hstop
    rcases List.mem_cons.mp hstop with rfl | htail
    · exact hne
    · exact ih stop htail

/-- The routes leave no choice: a walk is the beginning of every walk to the destination. -/
theorem split {full : List (GoString × Time)} (h : Walk p sizeBytes dest n t stops m a)
    (hfull : Walk p sizeBytes dest n t full dest A) :
    ∃ rest, full = stops ++ rest ∧ Walk p sizeBytes dest m a rest dest A := by
  induction h generalizing full with
  | nil n t => exact ⟨full, rfl, hfull⟩
  | hop hne hroute hhops harrival _ ih =>
    cases hfull with
    | nil => exact absurd rfl hne
    | hop _ hroute' hhops' harrival' htail' =>
      cases findRoute_unique hroute hroute'
      cases hhops.symm.trans hhops'
      cases harrival.symm.trans harrival'
      obtain ⟨rest, rfl, hrest⟩ := ih htail'
      exact ⟨rest, rfl, hrest⟩

/-- At `n` at time `t` the bundle is due at the destination at time `A`. -/
def Due (p : ContactPlan) (sizeBytes : ℤ) (dest : GoString) (A : Time) (n : GoString) (t : Time) :
    Prop :=
  (n = dest ∧ t = A) ∨
    (n ≠ dest ∧ ∃ fuel r, p.findRoute fuel n dest sizeBytes t = some (r, true) ∧ r.arrivalTime = A)

/-- The first hop of an earliest route leads to a node from which the earliest arrival is the same. -/
theorem exists_first {fuel : ℕ} {r : Route} (hforward : p.Forward sizeBytes) (hne : n ≠ dest)
    (hroute : p.findRoute fuel n dest sizeBytes t = some (r, true)) :
    ∃ hop rest t', r.hops = hop :: rest ∧ hop.arrivalTime t sizeBytes = some t' ∧
      hop ∈ p.contacts ∧ hop.fromNode = n ∧ Due p sizeBytes dest r.arrivalTime hop.toNode t' := by
  rcases findRoute_spec hforward hne hroute with ⟨-, hcarries, hleast⟩ | ⟨hfalse, -⟩
  · obtain ⟨hop, rest, hhops⟩ := List.exists_cons_of_ne_nil (hcarries.ne_nil hne)
    rw [hhops] at hcarries
    cases hcarries with
    | @cons _ _ _ t' _ _ _ hmem hsource harrive htail =>
      refine ⟨hop, rest, t', hhops, harrive, hmem, hsource, ?_⟩
      by_cases hdest : hop.toNode = dest
      · refine .inl ⟨hdest, le_antisymm (htail.le hforward.causal) ?_⟩
        exact hleast [hop] t' (.cons hmem hsource harrive (hdest ▸ .nil _ _))
      · refine .inr ⟨hdest, ?_⟩
        obtain ⟨fuel', r', found, hfound, hspec⟩ := exists_findRoute t' hforward hdest
        rcases hspec with ⟨rfl, hcarries', hleast'⟩ | ⟨-, hnone⟩
        · refine ⟨fuel', r', hfound, le_antisymm (hleast' rest _ htail) ?_⟩
          exact hleast (hop :: r'.hops) _ (.cons hmem hsource harrive hcarries')
        · exact absurd htail (hnone rest _)
  · cases hfalse

theorem Due.le (hforward : p.Forward sizeBytes) (h : Due p sizeBytes dest A n t) : t ≤ A := by
  rcases h with ⟨-, rfl⟩ | ⟨hne, fuel, r, hroute, rfl⟩
  · exact le_rfl
  · rcases findRoute_spec hforward hne hroute with ⟨-, hcarries, -⟩ | ⟨hfalse, -⟩
    · exact hcarries.le hforward.causal
    · cases hfalse

/-- Along a walk the bundle stays due at the same time, and each stop is the start of a contact. -/
theorem due (hforward : p.Forward sizeBytes) (h : Walk p sizeBytes dest n t stops m a)
    (hdue : Due p sizeBytes dest A n t) :
    Due p sizeBytes dest A m a ∧
      ∀ stop ∈ stops, stop.2 ≤ A ∧ stop.1 ∈ p.contacts.map Contact.fromNode := by
  induction h with
  | nil n t => exact ⟨hdue, fun _ h ↦ absurd h List.not_mem_nil⟩
  | hop hne hroute hhops harrival _ ih =>
    rcases hdue with ⟨hdest, -⟩ | ⟨-, fuel, r, hroute', rfl⟩
    · exact absurd hdest hne
    · have hle : Due p sizeBytes dest r.arrivalTime _ _ := .inr ⟨hne, fuel, r, hroute', rfl⟩
      cases findRoute_unique hroute hroute'
      obtain ⟨hop, rest, t', hhops', harrival', hmem, hfrom, hnext⟩ := exists_first hforward hne hroute
      cases hhops.symm.trans hhops'
      cases harrival.symm.trans harrival'
      obtain ⟨hlast, hstops⟩ := ih hnext
      refine ⟨hlast, fun stop hstop ↦ ?_⟩
      rcases List.mem_cons.mp hstop with rfl | htail
      · exact ⟨hle.le hforward, List.mem_map.mpr ⟨_, hmem, hfrom⟩⟩
      · exact hstops stop htail

/-- Where no walk comes back to a node, one of them comes to the destination. -/
theorem exists_of_no_return (hforward : p.Forward sizeBytes) (hdue : Due p sizeBytes dest A n t)
    (hreturn : ∀ stops m a, Walk p sizeBytes dest n t stops m a → m ∉ stops.map Prod.fst) :
    ∃ stops, Walk p sizeBytes dest n t stops dest A ∧ (stops.map Prod.fst).Nodup := by
  suffices hextend : ∀ k stops m a, Walk p sizeBytes dest n t stops m a →
      (stops.map Prod.fst).Nodup → p.contacts.length < stops.length + k →
      ∃ stops, Walk p sizeBytes dest n t stops dest A ∧ (stops.map Prod.fst).Nodup from
    hextend (p.contacts.length + 1) [] n t (.nil n t) List.nodup_nil (by simp)
  intro k
  induction k with
  | zero =>
    intro stops m a hwalk hnodup hlen
    have hsub : stops.map Prod.fst ⊆ p.contacts.map Contact.fromNode := by
      intro x hx
      obtain ⟨stop, hstop, rfl⟩ := List.mem_map.mp hx
      exact ((hwalk.due hforward hdue).2 stop hstop).2
    have hle := (hnodup.subperm hsub).length_le
    rw [List.length_map, List.length_map] at hle
    omega
  | succ k ih =>
    intro stops m a hwalk hnodup hlen
    rcases (hwalk.due hforward hdue).1 with ⟨rfl, rfl⟩ | ⟨hne, fuel, r, hroute, -⟩
    · exact ⟨stops, hwalk, hnodup⟩
    · obtain ⟨hop, rest, t', hhops, harrival, -⟩ := exists_first hforward hne hroute
      refine ih _ _ _ (hwalk.snoc hne hroute hhops harrival) ?_ (by simp; omega)
      rw [List.map_append, List.map_singleton]
      refine List.nodup_append.mpr ⟨hnodup, List.nodup_singleton m, fun x hx y hy hxy ↦ ?_⟩
      have hxm : x = m := hxy.trans (List.mem_singleton.mp hy)
      exact hreturn stops m a hwalk (hxm ▸ hx)

end Walk

/-- On a plan that never goes back in time all that can go wrong is that the plans of the nodes lead
back to a node where the bundle has been, or to more hops than the limit of events. -/
theorem walksTo_iff_no_return {p : ContactPlan} {b : Bundle} {source : GoString} {t : Time}
    {fuel : ℕ} {r : Route} (hforward : p.Forward (bundleSize b))
    (hne : source ≠ b.primary.destination.nodeID)
    (hroute : p.findRoute fuel source b.primary.destination.nodeID (bundleSize b) t =
      some (r, true)) (hlive : b.expired r.arrivalTime = false) :
    WalksTo p source b t r.arrivalTime ↔
      ∀ stops m a, Walk p (bundleSize b) b.primary.destination.nodeID source t stops m a →
        m ∉ stops.map Prod.fst ∧ stops.length < maxEvents := by
  have hdue : Walk.Due p (bundleSize b) b.primary.destination.nodeID r.arrivalTime source t :=
    .inr ⟨hne, fuel, r, hroute, rfl⟩
  constructor
  · intro ⟨full, hfull, hnodup, _, _, hlen⟩ stops m a hwalk
    obtain ⟨rest, rfl, hrest⟩ := hwalk.split hfull
    rw [List.map_append, List.nodup_append] at hnodup
    rw [List.length_append] at hlen
    refine ⟨fun hmem ↦ ?_, by omega⟩
    cases hrest with
    | nil =>
      obtain ⟨stop, hstop, hself⟩ := List.mem_map.mp hmem
      exact hwalk.ne_dest stop hstop hself
    | hop => exact hnodup.2.2 m hmem m (by simp) rfl
  · intro hreturn
    obtain ⟨stops, hwalk, hnodup⟩ := Walk.exists_of_no_return hforward hdue
      fun stops m a hwalk ↦ (hreturn stops m a hwalk).1
    obtain ⟨-, hstops⟩ := hwalk.due hforward hdue
    refine ⟨stops, hwalk, hnodup, fun stop hstop ↦ ?_, hlive, (hreturn _ _ _ hwalk).2⟩
    exact expired_mono (hstops stop hstop).1 hlive

/-- A bundle for which its node has a route, and which is in time there, is delivered by that time
exactly where the first hops of the routes never lead back to a node, if no transmission time overflows;
and in any case where walking along these hops brings it there. -/
theorem run_progress_iff {p : ContactPlan} {b : Bundle} {source : GoString} {t : Time} {fuel : ℕ}
    {r : Route} (howlt : ∀ c ∈ p.contacts, 0 ≤ c.owlt)
    (hne : source ≠ b.primary.destination.nodeID)
    (hroute : p.findRoute fuel source b.primary.destination.nodeID (bundleSize b) t =
      some (r, true)) (hlive : b.expired r.arrivalTime = false) :
    ((∀ c ∈ p.contacts, c.TxFits (bundleSize b)) →
      (DeliversAt p source b t r.arrivalTime ↔
        ∀ stops m a, Walk p (bundleSize b) b.primary.destination.nodeID source t stops m a →
          m ∉ stops.map Prod.fst ∧ stops.length < maxEvents)) ∧
    (DeliversAt p source b t r.arrivalTime ↔ WalksTo p source b t r.arrivalTime) := by
  refine ⟨fun hfits ↦ ?_, deliversAt_iff_walksTo p source b t r.arrivalTime⟩
  rw [deliversAt_iff_walksTo]
  exact walksTo_iff_no_return (forward_of_nonneg (bundleSize_nonneg b) howlt hfits) hne hroute hlive

/-- The stations and the satellite of `storeAndForward`. -/
def passPlan : ContactPlan := ContactPlan.newContactPlan
  [⟨lit "dtn://ground-1", lit "dtn://sat-7", 0, 300 * second, 1000000, 3 * millisecond, 1⟩,
    ⟨lit "dtn://sat-7", lit "dtn://ground-2", 3300 * second, 3600 * second, 1000000,
      3 * millisecond, 1⟩]

theorem run_progress_iff_passPlan : ∃ r : Route,
    passPlan.findRoute 10 (lit "dtn://ground-1") imageBundle.primary.destination.nodeID
      (bundleSize imageBundle) 0 = some (r, true) ∧
    ((∀ c ∈ passPlan.contacts, c.TxFits (bundleSize imageBundle)) →
      (DeliversAt passPlan (lit "dtn://ground-1") imageBundle 0 r.arrivalTime ↔
        ∀ stops m a, Walk passPlan (bundleSize imageBundle)
            imageBundle.primary.destination.nodeID (lit "dtn://ground-1") 0 stops m a →
          m ∉ stops.map Prod.fst ∧ stops.length < maxEvents)) ∧
    (DeliversAt passPlan (lit "dtn://ground-1") imageBundle 0 r.arrivalTime ↔
      WalksTo passPlan (lit "dtn://ground-1") imageBundle 0 r.arrivalTime) := by
  have hrun : (passPlan.findRoute 10 (lit "dtn://ground-1")
      imageBundle.primary.destination.nodeID (bundleSize imageBundle) 0).map (fun result ↦
        (result.2, imageBundle.expired result.1.arrivalTime)) = some (true, false) := by
    decide +kernel
  obtain ⟨⟨r, found⟩, hroute, hresult⟩ := Option.map_eq_some_iff.mp hrun
  obtain ⟨rfl, hlive⟩ := Prod.mk.inj hresult
  exact ⟨r, hroute, run_progress_iff (by decide +kernel) (by decide +kernel) hroute hlive⟩

/-! ## Two nodes that send the bundle to each other -/

/-- All contacts are open from the start but those to the destination, which open at 100; the relays
`w`, `x`, `y` and `z` are reached at the same time. -/
def tiedPlan : ContactPlan := ContactPlan.newContactPlan
  [⟨lit "s", lit "n", 0, 200, 0, 0, 1⟩, ⟨lit "s", lit "x", 0, 200, 0, 0, 1⟩,
    ⟨lit "s", lit "z", 0, 200, 0, 0, 1⟩, ⟨lit "n", lit "s", 0, 200, 0, 0, 1⟩,
    ⟨lit "n", lit "y", 0, 200, 0, 0, 1⟩, ⟨lit "n", lit "w", 0, 200, 0, 0, 1⟩,
    ⟨lit "x", lit "dtn://ground-2", 100, 200, 0, 0, 1⟩,
    ⟨lit "y", lit "dtn://ground-2", 100, 200, 0, 0, 1⟩]

/-- Each of `s` and `n` hands the bundle to the other at once. -/
theorem walk_tiedPlan {n m : GoString}
    (hne : n ≠ imageBundle.primary.destination.nodeID)
    (hrun : ((tiedPlan.findRoute 20 n imageBundle.primary.destination.nodeID
      (bundleSize imageBundle) 0).bind fun result ↦ result.1.hops.head?.map fun hop ↦
        (result.2, hop.toNode, hop.arrivalTime 0 (bundleSize imageBundle))) =
      some (true, m, some 0)) :
    Walk tiedPlan (bundleSize imageBundle) imageBundle.primary.destination.nodeID n 0 [(n, 0)] m
      0 := by
  obtain ⟨⟨r, found⟩, hroute, hrest⟩ := Option.bind_eq_some_iff.mp hrun
  obtain ⟨hop, hhead, hresult⟩ := Option.map_eq_some_iff.mp hrest
  obtain ⟨rest, hhops⟩ := List.head?_eq_some_iff.mp hhead
  simp only [Prod.mk.injEq] at hresult
  obtain ⟨rfl, rfl, harrival⟩ := hresult
  exact .hop hne hroute hhops harrival (.nil _ _)

/-- `s` has a route that arrives at 100, and the bundle is never delivered. -/
theorem run_drops_tied_bundle : ∃ r : Route,
    (∀ c ∈ tiedPlan.contacts, 0 ≤ c.owlt) ∧ lit "s" ≠ imageBundle.primary.destination.nodeID ∧
    tiedPlan.findRoute 20 (lit "s") imageBundle.primary.destination.nodeID
      (bundleSize imageBundle) 0 = some (r, true) ∧
    imageBundle.expired r.arrivalTime = false ∧
    ¬DeliversAt tiedPlan (lit "s") imageBundle 0 r.arrivalTime := by
  have hrun : (tiedPlan.findRoute 20 (lit "s") imageBundle.primary.destination.nodeID
      (bundleSize imageBundle) 0).map (fun result ↦
        (result.2, imageBundle.expired result.1.arrivalTime)) = some (true, false) := by
    decide +kernel
  obtain ⟨⟨r, found⟩, hroute, hresult⟩ := Option.map_eq_some_iff.mp hrun
  obtain ⟨rfl, hlive⟩ := Prod.mk.inj hresult
  have hthere := walk_tiedPlan (n := lit "s") (m := lit "n") (by decide +kernel) (by decide +kernel)
  have hback := walk_tiedPlan (n := lit "n") (m := lit "s") (by decide +kernel) (by decide +kernel)
  refine ⟨r, by decide +kernel, by decide +kernel, hroute, hlive, fun hdelivers ↦ ?_⟩
  obtain ⟨full, hfull, hnodup, -⟩ := (deliversAt_iff_walksTo _ _ _ _ _).mp hdelivers
  obtain ⟨rest, rfl, hrest⟩ := hthere.split hfull
  obtain ⟨rest', rfl, hrest'⟩ := hback.split hrest
  cases hrest' with
  | hop => simp at hnodup

end Zenith.Sim
