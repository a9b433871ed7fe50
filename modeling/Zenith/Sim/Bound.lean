import Zenith.Sim.Causality
import Zenith.Sim.Progress

/-!
# The length of a run

Routes may lead around in circles, but a node forwards a bundle ID once and drops what comes back. So
the turns that forward are at most as many as there are pairs of a node and an ID, and without
handlers nothing else adds to the queue.
-/

namespace Zenith.Sim

open Go Bpv7 Cgr Dtn

variable {σ : Type}

/-- The nodes of the injections and of the contacts. -/
def Mesh.nodeIDs (m : Mesh σ) : Finset GoString :=
  (m.pending.map (·.nodeID) ++
    (m.plan.elim [] ContactPlan.contacts).flatMap fun c ↦ [c.fromNode, c.toNode]).toFinset

theorem Mesh.mem_nodeIDs_of_pending {m : Mesh σ} {inj : Injection} (h : inj ∈ m.pending) :
    inj.nodeID ∈ m.nodeIDs := by
  apply List.mem_toFinset.mpr
  exact List.mem_append_left _ (List.mem_map_of_mem h)

theorem Mesh.mem_nodeIDs_of_contact {m : Mesh σ} {plan : ContactPlan} {c : Contact}
    (hplan : m.plan = some plan) (hc : c ∈ plan.contacts) : c.toNode ∈ m.nodeIDs := by
  apply List.mem_toFinset.mpr
  apply List.mem_append_right
  rw [hplan]
  exact List.mem_flatMap.mpr ⟨c, hc, by simp⟩

namespace Run.Runs

variable {fuel : ℕ} {s s' : Run σ} {trace : List Turn}

/-- Each node forwards each ID once. -/
theorem countP_forwarded_le (h : Runs fuel s trace s') {nodes ids : Finset GoString}
    (hmem : ∀ turn ∈ trace, turn.event.nodeID ∈ nodes ∧ turn.event.b.id ∈ ids) :
    trace.countP (fun turn ↦ turn.fate.kind = .forwarded) ≤ nodes.card * ids.card := by
  have hnodup : ((trace.filter fun turn ↦ turn.fate.kind = .forwarded).map Turn.visit).Nodup := by
    apply List.Nodup.sublist _ h.visited.1
    apply List.Sublist.map
    apply List.monotone_filter_right
    intro turn hturn
    simp only [decide_eq_true_eq] at hturn ⊢
    rw [ne_eq, ← Fate.kind_eq_duplicate_iff, hturn]
    simp
  calc
    trace.countP (fun turn ↦ turn.fate.kind = .forwarded) =
        ((trace.filter fun turn ↦ turn.fate.kind = .forwarded).map Turn.visit).toFinset.card := by
      rw [List.toFinset_card_of_nodup hnodup, List.length_map, List.countP_eq_length_filter]
    _ ≤ (nodes ×ˢ ids).card := by
      apply Finset.card_le_card
      intro visit hvisit
      obtain ⟨turn, hturn, rfl⟩ := List.mem_map.mp (List.mem_toFinset.mp hvisit)
      exact Finset.mem_product.mpr (hmem turn (List.mem_of_mem_filter hturn))
    _ = nodes.card * ids.card := Finset.card_product nodes ids

/-- Turns and events to come are the injections, the arrivals and the replies. -/
theorem length_eq {m : Mesh σ} (h : Runs fuel s trace s') (hs : s.Configured m) :
    trace.length + s'.queue.length = s.queue.length +
      trace.countP (fun turn ↦ turn.fate.kind = .forwarded) +
      (trace.flatMap Turn.caused).countP (·.injected) := by
  have harrivals : (trace.flatMap Turn.caused).countP (fun ev ↦ ev.injected = false) =
      trace.countP fun turn ↦ turn.fate.kind = .forwarded := by
    apply countP_flatMap_of_forall
    intro turn hturn
    have hcount := ((h.configured hs).2 turn hturn).countP_arrivals fun _ ↦ True
    simpa only [and_true] using hcount
  have hcaused : (trace.flatMap Turn.caused).length =
      (trace.flatMap Turn.caused).countP (·.injected) +
        (trace.flatMap Turn.caused).countP fun ev ↦ ev.injected = false := by
    rw [List.length_eq_countP_add_countP fun ev : MeshEvent ↦ ev.injected]
    simp only [Bool.not_eq_true]
  have hlen := h.perm.length_eq
  rw [List.length_append, List.length_append, List.length_map] at hlen
  omega

end Run.Runs

section Replies

variable {m : Mesh σ} {fuel : ℕ} {app : σ} {s : Run σ} {trace : List Turn}

/-- Every event is at a node of the mesh, if replies are injected where they are made. -/
theorem Run.Runs.mem_nodeIDs (h : Run.Runs fuel (Run.start m app) trace s)
    (hfollows : ∀ turn ∈ trace, turn.Follows m)
    (hreplies : ∀ turn ∈ trace, ∀ next ∈ turn.caused, next.injected = true →
      next.nodeID = turn.event.nodeID) :
    ∀ turn ∈ trace, turn.event.nodeID ∈ m.nodeIDs := by
  refine (h.forall_event (E := fun ev ↦ ev.nodeID ∈ m.nodeIDs) (fun ev hev ↦ ?_) ?_).1
  · obtain ⟨inj, hinj, rfl⟩ := List.mem_map.mp ((Run.start_queue_perm m app).mem_iff.mp hev)
    exact Mesh.mem_nodeIDs_of_pending hinj
  · intro turn hturn hnode next hnext
    rcases (hfollows turn hturn).caused_cases hnext with ⟨hop, plan, hplan, hmem, -, hnode', -⟩ |
      ⟨-, -, -, -, -, -, -, -, hinjected⟩
    · rw [hnode']
      exact Mesh.mem_nodeIDs_of_contact hplan hmem
    · rwa [hreplies turn hturn next hnext hinjected]

/-- The bundles of a run are those injected at the start and the replies. -/
theorem Run.Runs.mem_ids (h : Run.Runs fuel (Run.start m app) trace s)
    (hfollows : ∀ turn ∈ trace, turn.Follows m) :
    ∀ turn ∈ trace, turn.event.b.id ∈ m.pending.map (·.b.id) ++
      ((trace.flatMap Turn.caused).filter (·.injected)).map (·.b.id) := by
  refine (h.forall_event (E := fun ev ↦ ev.b.id ∈ m.pending.map (·.b.id) ++
    ((trace.flatMap Turn.caused).filter (·.injected)).map (·.b.id)) (fun ev hev ↦ ?_) ?_).1
  · obtain ⟨inj, hinj, rfl⟩ := List.mem_map.mp ((Run.start_queue_perm m app).mem_iff.mp hev)
    exact List.mem_append_left _ (List.mem_map_of_mem hinj)
  · intro turn hturn hid next hnext
    rcases (hfollows turn hturn).caused_cases hnext with ⟨-, -, -, -, -, -, hsame, -⟩ |
      ⟨-, -, -, -, -, -, -, -, hinjected⟩
    · rwa [hsame]
    · apply List.mem_append_right
      apply List.mem_map_of_mem
      exact List.mem_filter.mpr ⟨List.mem_flatMap.mpr ⟨turn, hturn, hnext⟩, hinjected⟩

/-- Replies count like injections. -/
theorem Run.Runs.length_le_of_replies (hm : m.Fresh)
    (h : Run.Runs fuel (Run.start m app) trace s)
    (hreplies : ∀ turn ∈ trace, ∀ next ∈ turn.caused, next.injected = true →
      next.nodeID = turn.event.nodeID) :
    trace.length + s.queue.length ≤
      (m.pending.length + (trace.flatMap Turn.caused).countP (·.injected)) *
        (m.nodeIDs.card + 1) := by
  have hconfigured := Run.configured_start hm app
  have hfollows := (h.configured hconfigured).2
  have hforwarded := h.countP_forwarded_le fun turn hturn ↦
    ⟨h.mem_nodeIDs hfollows hreplies turn hturn, List.mem_toFinset.mpr (h.mem_ids hfollows turn hturn)⟩
  have hcard : (m.pending.map (·.b.id) ++
      ((trace.flatMap Turn.caused).filter (·.injected)).map (·.b.id)).toFinset.card ≤
      m.pending.length + (trace.flatMap Turn.caused).countP (·.injected) := by
    apply (List.toFinset_card_le _).trans
    rw [List.length_append, List.length_map, List.length_map, List.countP_eq_length_filter]
  have hstart : (Run.start m app).queue.length = m.pending.length := by
    rw [(Run.start_queue_perm m app).length_eq, List.length_map]
  rw [h.length_eq hconfigured, hstart]
  calc
    m.pending.length + trace.countP (fun turn ↦ turn.fate.kind = .forwarded) +
          (trace.flatMap Turn.caused).countP (·.injected) ≤
        m.pending.length + m.nodeIDs.card *
          (m.pending.length + (trace.flatMap Turn.caused).countP (·.injected)) +
          (trace.flatMap Turn.caused).countP (·.injected) :=
      Nat.add_le_add_right (Nat.add_le_add_left
        (hforwarded.trans (Nat.mul_le_mul_left _ hcard)) _) _
    _ = (m.pending.length + (trace.flatMap Turn.caused).countP (·.injected)) *
        (m.nodeIDs.card + 1) := by ring

end Replies

/-! ## Searches that come back -/

/-- Every search for a route comes back that a bundle of the mesh can lead to, replies included. -/
def Mesh.SearchesReturn (m : Mesh σ) : Prop :=
  ∀ plan, m.plan = some plan → ∀ b, m.Sends b → ∀ source readyAt, ∃ fuel result,
    plan.findRoute fuel source b.primary.destination.nodeID (bundleSize b) readyAt = some result

theorem exists_fate {n : Node} {ev : MeshEvent}
    (h : ∀ plan, n.plan = some plan → ∃ fuel result, plan.findRoute fuel n.id
      ev.b.primary.destination.nodeID (bundleSize ev.b) ev.time = some result) :
    ∃ fuel f, fate fuel n ev = some f := by
  have hroute : ∃ fuel result, n.route fuel ev.b ev.time = some result := by
    unfold Node.route
    cases hplan : n.plan with
    | none => exact ⟨0, _, rfl⟩
    | some plan => exact h plan hplan
  obtain ⟨fuel, ⟨route, found⟩, hroute⟩ := hroute
  refine ⟨fuel, ?_⟩
  unfold fate onward
  rw [hroute]
  split_ifs
  · exact ⟨_, rfl⟩
  · exact ⟨_, rfl⟩
  · exact ⟨_, rfl⟩
  · rcases route with ⟨_ | ⟨hop, rest⟩, time⟩
    · cases found <;> exact ⟨_, rfl⟩
    · cases found with
      | false => exact ⟨_, rfl⟩
      | true =>
        dsimp only
        cases hop.arrivalTime ev.time (bundleSize ev.b) <;> exact ⟨_, rfl⟩

theorem Mesh.SearchesReturn.exists_loop {m : Mesh σ} (hroutes : m.SearchesReturn) (hm : m.Fresh)
    (app : σ) (limit : ℕ) : ∃ fuel s, Run.loop fuel limit (Run.start m app) = some s := by
  apply Run.Runs.exists_loop
  intro fuel trace s hruns ev queue hpop
  have hconfigured := hruns.configured (Run.configured_start hm app)
  have hev : ev ∈ s.queue := (BinaryHeap.pop_perm hpop).mem_iff.mpr List.mem_cons_self
  apply exists_fate
  intro plan hplan
  exact hroutes plan ((hconfigured.1.planned _).symm.trans hplan) ev.b
    ((hruns.sends hconfigured.2).2 ev hev) _ _

/-! ## Meshes without handlers -/

section HandlerFree

variable {m : Mesh σ}

theorem Mesh.Sends.exists_injection (hfree : ∀ node, m.handlers node = none) {b : Bundle}
    (h : m.Sends b) : ∃ inj ∈ m.pending, inj.b = b := by
  cases h with
  | injected hinj => exact ⟨_, hinj, rfl⟩
  | reply _ hhandler => cases (hfree _).symm.trans hhandler

theorem Run.Runs.length_le (hm : m.Fresh) (hfree : ∀ node, m.handlers node = none) {fuel : ℕ}
    {app : σ} {s : Run σ} {trace : List Turn} (h : Run.Runs fuel (Run.start m app) trace s) :
    trace.length + s.queue.length ≤ m.pending.length * (m.nodeIDs.card + 1) := by
  have hfollows := (h.configured (Run.configured_start hm app)).2
  have hnone : ∀ turn ∈ trace, ∀ next ∈ turn.caused, next.injected ≠ true := by
    intro turn hturn next hnext hinjected
    rcases (hfollows turn hturn).caused_cases hnext with ⟨-, -, -, -, -, -, -, hfalse⟩ |
      ⟨handler, -, -, hhandler, -⟩
    · cases hfalse.symm.trans hinjected
    · cases (hfree _).symm.trans hhandler
  have hreplies : (trace.flatMap Turn.caused).countP (·.injected) = 0 := by
    apply List.countP_eq_zero.mpr
    intro next hnext
    obtain ⟨turn, hturn, hcaused⟩ := List.mem_flatMap.mp hnext
    exact hnone turn hturn next hcaused
  have hle := h.length_le_of_replies hm fun turn hturn next hnext hinjected ↦
    absurd hinjected (hnone turn hturn next hnext)
  rwa [hreplies, Nat.add_zero] at hle

/-- Every search for a route that a bundle of the mesh can lead to comes back. -/
def Mesh.RoutesReturn (m : Mesh σ) : Prop :=
  ∀ plan, m.plan = some plan → ∀ inj ∈ m.pending, ∀ source readyAt, ∃ fuel result,
    plan.findRoute fuel source inj.b.primary.destination.nodeID (bundleSize inj.b) readyAt =
      some result

/-- The loop needs no other guard than `bound`: it takes no more turns, and then there is nothing left
to do. -/
structure Mesh.Bounded (m : Mesh σ) (app : σ) (bound : ℕ) : Prop where
  length_le : ∀ fuel trace s, Run.Runs fuel (Run.start m app) trace s →
    trace.length + s.queue.length ≤ bound
  done : ∀ fuel limit s, bound ≤ limit → Run.loop fuel limit (Run.start m app) = some s →
    s.queue = []
  /-- The guard of `Run` is reached only where it is too low. -/
  guard : ∀ fuel s, m.run fuel app = some s → s.queue ≠ [] → maxEvents < bound
  returns : m.RoutesReturn → ∃ fuel s, Run.loop fuel bound (Run.start m app) = some s ∧ s.queue = []

/-- For `k` injections and `N` nodes the loop takes at most `k * (N + 1)` turns. -/
theorem run_bounded (hm : m.Fresh) (hfree : ∀ node, m.handlers node = none) (app : σ) :
    m.Bounded app (m.pending.length * (m.nodeIDs.card + 1)) := by
  have hlen : ∀ fuel trace s, Run.Runs fuel (Run.start m app) trace s →
      trace.length + s.queue.length ≤ m.pending.length * (m.nodeIDs.card + 1) :=
    fun fuel trace s h ↦ h.length_le hm hfree
  have hrest : ∀ fuel limit s, Run.loop fuel limit (Run.start m app) = some s → s.queue ≠ [] →
      limit < m.pending.length * (m.nodeIDs.card + 1) := by
    intro fuel limit s h hne
    obtain ⟨trace, hruns, -, hend⟩ := Run.loop_eq_some.mp h
    have hlimit : ¬trace.length < limit := fun hlt ↦ hne (hend hlt)
    have hpos := List.length_pos_of_ne_nil hne
    have hle := hlen fuel trace s hruns
    omega
  refine ⟨hlen, fun fuel limit s hlimit h ↦ ?_, fun fuel s h hne ↦ hrest fuel maxEvents s h hne, ?_⟩
  · by_contra hne
    exact absurd (hrest fuel limit s h hne) (not_lt.mpr hlimit)
  · intro hroutes
    have hreturn : m.SearchesReturn := by
      intro plan hplan b hsends
      obtain ⟨inj, hinj, rfl⟩ := hsends.exists_injection hfree
      exact hroutes plan hplan inj hinj
    obtain ⟨fuel, s, hs⟩ :=
      hreturn.exists_loop hm app (m.pending.length * (m.nodeIDs.card + 1))
    refine ⟨fuel, s, hs, ?_⟩
    by_contra hne
    exact lt_irrefl _ (hrest fuel _ s hs hne)

end HandlerFree

theorem run_bounded_tiedPlan :
    (singleInjection tiedPlan (lit "s") imageBundle 0).Bounded () 8 := by
  have hbound := run_bounded (m := singleInjection tiedPlan (lit "s") imageBundle 0)
    (.inject _ _ _ (.new _)) (fun _ ↦ rfl) ()
  have hcount : (singleInjection tiedPlan (lit "s") imageBundle 0).pending.length *
      ((singleInjection tiedPlan (lit "s") imageBundle 0).nodeIDs.card + 1) = 8 := by
    decide +kernel
  rwa [hcount] at hbound

end Zenith.Sim
