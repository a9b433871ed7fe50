import Zenith.Sim.Trace

/-!
# Causality

What a turn causes is not before it: a bundle arrives after it was sent where light takes time and no
transmission time overflows, and a reply is injected at the delivery at the earliest. So the queue,
which always gives its earliest event, gives the events in order.
-/

namespace Zenith.Sim

open Go Bpv7 Cgr Dtn EventLoop

variable {σ : Type}

/-- The bundles that a run can be about: those injected, and those that a handler can return when
one of them is delivered. -/
inductive Mesh.Sends (m : Mesh σ) : Bundle → Prop
  | injected {inj : Injection} (hinj : inj ∈ m.pending) : m.Sends inj.b
  | reply {received b : Bundle} {node : GoString} {h : AppHandler σ} {app : σ} {now : Time}
      {ob : OutboundBundle} (hreceived : m.Sends received) (hhandler : m.handlers node = some h)
      (hob : ob ∈ (h app node received now).1) (hb : ob.bundle = some b) : m.Sends b

/-- The arrival `ev` of a bundle at the next hop is what the Forwarded event `e` led to. -/
structure Event.LeadsTo (e : Event) (ev : MeshEvent) : Prop where
  bundle : ev.b.id = e.bundleID
  node : ev.nodeID = e.nextHop
  time : e.time ≤ ev.time

namespace Turn

/-- A turn that forwards reports this once, for the one arrival that it causes. -/
theorem Follows.leadsTo {m : Mesh σ} {turn : Turn} (h : turn.Follows m)
    (hlater : ∀ next ∈ turn.caused, turn.event.time ≤ next.time) :
    List.Forall₂ Event.LeadsTo (turn.events.filter (·.kind = .forwarded))
      (turn.caused.filter (·.injected = false)) := by
  have hfirst : ((if turn.event.injected then
      [Event.mk turn.event.time turn.event.nodeID .injected turn.event.b.id []] else []).filter
        fun e ↦ e.kind = .forwarded) = [] := by
    split_ifs <;> rfl
  unfold events MeshEvent.events
  rw [List.filter_append, hfirst, List.nil_append, List.filter_singleton]
  by_cases hsent : ∃ hop arrival, turn.fate = .forwarded hop arrival
  · obtain ⟨hop, arrival, hf⟩ := hsent
    obtain ⟨hcaused, -, -⟩ := h.forwarded hop arrival hf
    have hle := hlater ⟨arrival, hop.toNode, turn.event.b, false⟩
      (by rw [hcaused]; exact List.mem_cons_self)
    rw [hcaused, hf]
    exact .cons ⟨rfl, rfl, hle⟩ .nil
  · have hkind : turn.fate.kind ≠ .forwarded := by
      intro hkind
      cases hf : turn.fate with
      | forwarded hop arrival => exact hsent ⟨hop, arrival, hf⟩
      | _ =>
        rw [hf] at hkind
        cases hkind
    have hreplies : turn.caused.filter (·.injected = false) = [] := by
      apply List.filter_eq_nil_iff.mpr
      intro next hnext
      obtain ⟨-, -, -, -, -, -, -, -, rfl⟩ :=
        h.replies (fun hop arrival hf ↦ hsent ⟨hop, arrival, hf⟩) next hnext
      simp
    rw [hreplies, decide_eq_false hkind]
    exact .nil

end Turn

theorem forall₂_flatMap {α β γ : Type} {R : β → γ → Prop} {l : List α} {f : α → List β}
    {g : α → List γ} (h : ∀ a ∈ l, List.Forall₂ R (f a) (g a)) :
    List.Forall₂ R (l.flatMap f) (l.flatMap g) := by
  induction l with
  | nil => exact .nil
  | cons a l ih =>
    exact List.rel_append (h a List.mem_cons_self) (ih fun b hb ↦ h b (List.mem_cons_of_mem a hb))

section Causal

variable {m : Mesh σ}

/-- A turn about a bundle whose transmission times fit causes nothing before it. -/
theorem Turn.Follows.le_caused {turn : Turn} (h : turn.Follows m)
    (howlt : ∀ plan, m.plan = some plan → ∀ c ∈ plan.contacts, 0 ≤ c.owlt)
    (hfits : ∀ plan, m.plan = some plan → ∀ c ∈ plan.contacts,
      c.TxFits (bundleSize turn.event.b)) :
    ∀ next ∈ turn.caused, turn.event.time ≤ next.time := by
  intro next hnext
  rcases h.caused_cases hnext with ⟨hop, plan, hplan, hmem, harrival, -⟩ |
    ⟨-, -, ob, -, -, -, htime, -⟩
  · apply Contact.le_arrivalTime _ harrival
    exact add_nonneg (Contact.txDuration_nonneg (bundleSize_nonneg _) (hfits plan hplan hop hmem))
      (howlt plan hplan hop hmem)
  · rw [htime]
    exact le_max_left _ _

theorem Run.Runs.sends {fuel : ℕ} {app : σ} {s : Run σ} {trace : List Turn}
    (h : Run.Runs fuel (Run.start m app) trace s) (hfollows : ∀ turn ∈ trace, turn.Follows m) :
    (∀ turn ∈ trace, m.Sends turn.event.b) ∧ ∀ ev ∈ s.queue, m.Sends ev.b := by
  refine h.forall_event (E := fun ev ↦ m.Sends ev.b) (fun ev hev ↦ ?_) ?_
  · obtain ⟨inj, hinj, rfl⟩ := List.mem_map.mp ((Run.start_queue_perm m app).mem_iff.mp hev)
    exact .injected hinj
  · intro turn hturn hsends next hnext
    rcases (hfollows turn hturn).caused_cases hnext with ⟨-, -, -, -, -, -, hsame, -⟩ |
      ⟨handler, app, ob, hhandler, hob, hb, -⟩
    · rw [hsame]
      exact hsends
    · exact .reply hsends hhandler hob hb

/-- The report of a run is in the order of time, and what is forwarded arrives later, arrival for
arrival. -/
theorem run_causal (hm : m.Fresh)
    (howlt : ∀ plan, m.plan = some plan → ∀ c ∈ plan.contacts, 0 ≤ c.owlt)
    (hfits : ∀ plan, m.plan = some plan → ∀ c ∈ plan.contacts, ∀ b, m.Sends b →
      c.TxFits (bundleSize b))
    {fuel : ℕ} {app : σ} {s : Run σ} (h : m.run fuel app = some s) :
    (s.report.events.Pairwise fun e e' ↦ e.time ≤ e'.time) ∧
    s.report.events = (m.turns fuel app).flatMap Turn.events ∧
    ∃ arrivals, arrivals.Perm
        (((m.turns fuel app).map Turn.event ++ s.queue).filter (·.injected = false)) ∧
      List.Forall₂ Event.LeadsTo (s.report.events.filter (·.kind = .forwarded)) arrivals := by
  have hruns := Mesh.runs_turns h
  generalize m.turns fuel app = trace at hruns ⊢
  have hfollows := (hruns.configured (Run.configured_start hm app)).2
  have hlater : ∀ turn ∈ trace, ∀ next ∈ turn.caused, turn.event.time ≤ next.time := by
    intro turn hturn
    exact (hfollows turn hturn).le_caused howlt fun plan hplan c hc ↦
      hfits plan hplan c hc turn.event.b ((hruns.sends hfollows).1 turn hturn)
  have hevents : s.report.events = trace.flatMap Turn.events := hruns.events_eq
  have hordered : trace.Pairwise fun turn turn' ↦ turn.event.time ≤ turn'.event.time := by
    have hsorted := hruns.agenda.pairwise_le (Run.isHeap_start_queue m app)
      (List.forall_mem_map.mpr hlater)
    rwa [List.map_map, List.pairwise_map] at hsorted
  refine ⟨?_, hevents, (trace.flatMap Turn.caused).filter (·.injected = false), ?_, ?_⟩
  · rw [hevents, List.pairwise_flatMap]
    constructor
    · intro turn _
      apply List.pairwise_of_forall_mem_list
      intro e he e' he'
      rw [(Turn.of_mem_events he).1, (Turn.of_mem_events he').1]
    · apply hordered.imp
      intro turn turn' hle e he e' he'
      rwa [(Turn.of_mem_events he).1, (Turn.of_mem_events he').1]
  · have hstart : (Run.start m app).queue.filter (·.injected = false) = [] := by
      apply List.filter_eq_nil_iff.mpr
      intro ev hev
      obtain ⟨inj, -, rfl⟩ := List.mem_map.mp ((Run.start_queue_perm m app).mem_iff.mp hev)
      simp [Injection.event]
    have hperm := hruns.perm.symm.filter (·.injected = false)
    rwa [List.filter_append, hstart, List.nil_append] at hperm
  · rw [hevents, List.filter_flatMap, List.filter_flatMap]
    exact forall₂_flatMap fun turn hturn ↦ (hfollows turn hturn).leadsTo (hlater turn hturn)

end Causal

theorem sends_storeAndForward {b : Bundle} (h : storeAndForward.Sends b) : b = imageBundle := by
  induction h with
  | injected hinj =>
    simp only [storeAndForward, Mesh.inject, Mesh.setHandler, Mesh.addNode, Mesh.setNode, Mesh.new,
      List.nil_append, List.cons_append, List.mem_cons, List.not_mem_nil, or_false] at hinj
    rcases hinj with rfl | rfl <;> rfl
  | reply _ hhandler hob hb ih =>
    simp only [storeAndForward, Mesh.inject, Mesh.setHandler, Mesh.addNode, Mesh.setNode, Mesh.new,
      GoMap.insert_apply] at hhandler
    split_ifs at hhandler
    · cases hhandler
      simp only [List.mem_cons, List.not_mem_nil, or_false] at hob
      rcases hob with rfl | rfl
      · cases hb
        exact ih
      · cases hb
    · cases hhandler

theorem run_causal_storeAndForward : ∃ s, storeAndForward.run 10 0 = some s ∧
    s.report.events.length = 8 ∧
    (s.report.events.Pairwise fun e e' ↦ e.time ≤ e'.time) ∧
    s.report.events = (storeAndForward.turns 10 0).flatMap Turn.events ∧
    ∃ arrivals, arrivals.Perm
        (((storeAndForward.turns 10 0).map Turn.event ++ s.queue).filter (·.injected = false)) ∧
      List.Forall₂ Event.LeadsTo (s.report.events.filter (·.kind = .forwarded)) arrivals := by
  have hrun : (storeAndForward.run 10 0).map (·.report.events.length) = some 8 := by
    decide +kernel
  obtain ⟨s, hs, hlen⟩ := Option.map_eq_some_iff.mp hrun
  have hfresh : storeAndForward.Fresh :=
    .inject _ _ _ (.inject _ _ _ (.setHandler _ _ (.new _)))
  refine ⟨s, hs, hlen, run_causal hfresh ?_ ?_ hs⟩
  · intro plan hplan
    cases hplan
    decide +kernel
  · intro plan hplan c hc b hb
    cases hplan
    rw [sends_storeAndForward hb]
    revert c
    unfold Contact.TxFits
    decide +kernel

end Zenith.Sim
