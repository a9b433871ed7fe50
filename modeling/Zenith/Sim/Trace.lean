import Zenith.Cgr.Termination
import Zenith.Data.EventLoop
import Zenith.Sim.Delivery

/-!
# Runs as traces

What becomes of the bundle of an event depends on the node at which it arrives only, and decides
everything else that happens in that turn of the loop. A run is the list of its turns; its queue is
an agenda, and its report is what the turns report one after the other.
-/

namespace Zenith.Sim

open Go Bpv7 Cgr Dtn EventLoop

variable {σ : Type}

theorem countP_flatMap_of_forall {α β : Type} {l : List α} {f : α → List β} {p : β → Bool}
    {q : α → Bool} (h : ∀ a ∈ l, (f a).countP p = if q a then 1 else 0) :
    (l.flatMap f).countP p = l.countP q := by
  induction l with
  | nil => rfl
  | cons a l ih =>
    rw [List.flatMap_cons, List.countP_append, List.countP_cons, h a List.mem_cons_self,
      ih fun b hb ↦ h b (List.mem_cons_of_mem a hb), Nat.add_comm]

/-- What becomes of the bundle of an event. -/
inductive Fate
  | delivered
  | duplicate
  | expired
  | undeliverable
  | forwarded (hop : Contact) (arrival : Time)
  deriving DecidableEq

namespace Fate

def kind : Fate → EventKind
  | delivered => .delivered
  | duplicate => .duplicate
  | expired => .expired
  | undeliverable => .undeliverable
  | forwarded _ _ => .forwarded

def nextHop : Fate → GoString
  | forwarded hop _ => hop.toNode
  | _ => []

theorem kind_cases (f : Fate) : f.kind = .forwarded ∨ f.kind = .delivered ∨ f.kind = .expired ∨
    f.kind = .duplicate ∨ f.kind = .undeliverable := by
  cases f <;> simp [kind]

theorem kind_eq_duplicate_iff (f : Fate) : f.kind = .duplicate ↔ f = .duplicate := by
  cases f <;> simp [kind]

theorem kind_eq_undeliverable_iff (f : Fate) : f.kind = .undeliverable ↔ f = .undeliverable := by
  cases f <;> simp [kind]

theorem kind_ne_injected (f : Fate) : f.kind ≠ .injected := by
  cases f <;> simp [kind]

/-- The node afterwards: what is forwarded leaves the store. -/
def settle (f : Fate) (n : Node) (ev : MeshEvent) : Node :=
  match f with
  | forwarded _ _ => (n.ingest ev.b ev.time).2.dequeue ev.b.id
  | _ => (n.ingest ev.b ev.time).2

@[simp] theorem settle_id (f : Fate) (n : Node) (ev : MeshEvent) : (f.settle n ev).id = n.id := by
  cases f <;> simp [settle]

@[simp] theorem settle_plan (f : Fate) (n : Node) (ev : MeshEvent) :
    (f.settle n ev).plan = n.plan := by
  cases f <;> simp [settle]

theorem isSet_settle_seen (f : Fate) (n : Node) (ev : MeshEvent) (bundleID : GoString) :
    (f.settle n ev).seen.isSet bundleID =
      (decide (bundleID = ev.b.id) || n.seen.isSet bundleID) := by
  cases f <;> simp [settle, Node.isSet_ingest_seen]

end Fate

/-- What becomes of a bundle in the store of `n`; `none` where the search for a route does not come
back. -/
def onward (fuel : ℕ) (n : Node) (ev : MeshEvent) : Option Fate :=
  match n.route fuel ev.b ev.time with
  | none => none
  | some (_, false) => some .undeliverable
  | some (route, true) =>
    match route.hops with
    | [] => some .undeliverable
    | hop :: _ =>
      match hop.arrivalTime ev.time (bundleSize ev.b) with
      | none => some .undeliverable
      | some arrival => some (.forwarded hop arrival)

/-- The fate of the bundle of `ev` at the node `n`. -/
def fate (fuel : ℕ) (n : Node) (ev : MeshEvent) : Option Fate :=
  if n.seen.isSet ev.b.id then some .duplicate
  else if ev.b.expired ev.time then some .expired
  else if ev.b.primary.destination.nodeID = n.id then some .delivered
  else onward fuel n ev

section Fate

variable {fuel : ℕ} {n : Node} {ev : MeshEvent} {f : Fate}

/-- A contact that a bundle is forwarded over belongs to the plan and takes the bundle. -/
theorem onward_cases (h : onward fuel n ev = some f) :
    f = .undeliverable ∨ ∃ plan hop arrival, n.plan = some plan ∧ hop ∈ plan.contacts ∧
      hop.arrivalTime ev.time (bundleSize ev.b) = some arrival ∧ f = .forwarded hop arrival := by
  unfold onward at h
  cases hroute : n.route fuel ev.b ev.time with
  | none =>
    rw [hroute] at h
    cases h
  | some result =>
    obtain ⟨route, found⟩ := result
    rw [hroute] at h
    cases found with
    | false =>
      cases h
      exact .inl rfl
    | true =>
      dsimp only at h
      cases hhops : route.hops with
      | nil =>
        rw [hhops] at h
        cases h
        exact .inl rfl
      | cons hop rest =>
        rw [hhops] at h
        dsimp only at h
        cases harrival : hop.arrivalTime ev.time (bundleSize ev.b) with
        | none =>
          rw [harrival] at h
          cases h
          exact .inl rfl
        | some arrival =>
          rw [harrival] at h
          cases h
          cases hplan : n.plan with
          | none =>
            rw [Node.route, hplan] at hroute
            cases hroute
          | some plan =>
            rw [Node.route, hplan] at hroute
            refine .inr ⟨plan, hop, arrival, rfl, ?_, harrival, rfl⟩
            apply mem_contacts_of_findRoute hroute
            rw [hhops]
            exact List.mem_cons_self

theorem fate_cases (h : fate fuel n ev = some f) :
    (n.seen.isSet ev.b.id = true ∧ f = .duplicate) ∨
    (n.seen.isSet ev.b.id = false ∧ ev.b.expired ev.time = true ∧ f = .expired) ∨
    (n.seen.isSet ev.b.id = false ∧ ev.b.expired ev.time = false ∧
      ev.b.primary.destination.nodeID = n.id ∧ f = .delivered) ∨
    (n.seen.isSet ev.b.id = false ∧ ev.b.expired ev.time = false ∧
      ev.b.primary.destination.nodeID ≠ n.id ∧ onward fuel n ev = some f) := by
  unfold fate at h
  cases hseen : n.seen.isSet ev.b.id with
  | true =>
    rw [hseen, if_pos rfl] at h
    cases h
    exact .inl ⟨rfl, rfl⟩
  | false =>
    rw [hseen, if_neg Bool.false_ne_true] at h
    cases hexpired : ev.b.expired ev.time with
    | true =>
      rw [hexpired, if_pos rfl] at h
      cases h
      exact .inr (.inl ⟨rfl, rfl, rfl⟩)
    | false =>
      rw [hexpired, if_neg Bool.false_ne_true] at h
      by_cases hdest : ev.b.primary.destination.nodeID = n.id
      · rw [if_pos hdest] at h
        cases h
        exact .inr (.inr (.inl ⟨rfl, rfl, hdest, rfl⟩))
      · rw [if_neg hdest] at h
        exact .inr (.inr (.inr ⟨rfl, rfl, hdest, h⟩))

theorem fate_eq_duplicate_iff (h : fate fuel n ev = some f) :
    f = .duplicate ↔ n.seen.isSet ev.b.id = true := by
  rcases fate_cases h with ⟨hseen, rfl⟩ | ⟨hnew, -, rfl⟩ | ⟨hnew, -, -, rfl⟩ | ⟨hnew, -, -, honward⟩
  · exact iff_of_true rfl hseen
  · exact iff_of_false (by simp) (by simp [hnew])
  · exact iff_of_false (by simp) (by simp [hnew])
  · rcases onward_cases honward with rfl | ⟨plan, hop, arrival, -, -, -, rfl⟩
    · exact iff_of_false (by simp) (by simp [hnew])
    · exact iff_of_false (by simp) (by simp [hnew])

/-- A bundle is forwarded over a contact of the plan that takes it in time. -/
theorem fate_forwarded {hop : Contact} {arrival : Time}
    (h : fate fuel n ev = some (.forwarded hop arrival)) :
    ∃ plan, n.plan = some plan ∧ hop ∈ plan.contacts ∧
      hop.arrivalTime ev.time (bundleSize ev.b) = some arrival := by
  rcases fate_cases h with ⟨-, hf⟩ | ⟨-, -, hf⟩ | ⟨-, -, -, hf⟩ | ⟨-, -, -, honward⟩
  · cases hf
  · cases hf
  · cases hf
  · rcases onward_cases honward with hf | ⟨plan, hop', arrival', hplan, hmem, harrival, hf⟩
    · cases hf
    · cases hf
      exact ⟨plan, hplan, hmem, harrival⟩

theorem onward_congr {n' : Node} (hid : n.id = n'.id) (hplan : n.plan = n'.plan) :
    onward fuel n ev = onward fuel n' ev := by
  unfold onward Node.route
  rw [hid, hplan]

theorem fate_congr {n' : Node} (hid : n.id = n'.id) (hplan : n.plan = n'.plan)
    (hseen : n.seen.isSet ev.b.id = n'.seen.isSet ev.b.id) : fate fuel n ev = fate fuel n' ev := by
  unfold fate
  rw [hid, hseen, onward_congr hid hplan]

theorem fate_mono {fuel' : ℕ} (hle : fuel ≤ fuel') (h : fate fuel n ev = some f) :
    fate fuel' n ev = some f := by
  unfold fate at h ⊢
  split_ifs at h ⊢
  · exact h
  · exact h
  · exact h
  · unfold onward at h ⊢
    cases hroute : n.route fuel ev.b ev.time with
    | none =>
      rw [hroute] at h
      cases h
    | some result =>
      have hroute' : n.route fuel' ev.b ev.time = some result := by
        unfold Node.route at hroute ⊢
        cases hplan : n.plan with
        | none => rwa [hplan] at hroute
        | some plan =>
          rw [hplan] at hroute
          exact findRoute_mono hle hroute
      rw [hroute] at h
      rw [hroute']
      exact h

theorem fate_unique {fuel' : ℕ} {f' : Fate} (h : fate fuel n ev = some f)
    (h' : fate fuel' n ev = some f') : f = f' := by
  have hmax := fate_mono (le_max_left fuel fuel') h
  have hmax' := fate_mono (le_max_right fuel fuel') h'
  exact Option.some_injective _ (hmax.symm.trans hmax')

end Fate

namespace MeshEvent

/-- What the report says about the turn of an event. -/
def events (ev : MeshEvent) (f : Fate) : List Event :=
  (if ev.injected then [Event.mk ev.time ev.nodeID .injected ev.b.id []] else []) ++
    [Event.mk ev.time ev.nodeID f.kind ev.b.id f.nextHop]

def deliveries (ev : MeshEvent) (f : Fate) : List Delivery :=
  match f with
  | .delivered => [⟨ev.b.id, ev.nodeID, ev.time, ev.b.payload⟩]
  | _ => []

/-- The injection for a bundle that a handler returned on the delivery `ev`: not before it. -/
def reply (ev : MeshEvent) (ob : OutboundBundle) : Option MeshEvent :=
  ob.bundle.map fun b ↦ ⟨max ev.time ob.atTime, ob.fromNode, b, true⟩

end MeshEvent

namespace Run

/-- What the handler at the node of `ev` returns, and the state it leaves. -/
def answer (s : Run σ) (ev : MeshEvent) : List OutboundBundle × σ :=
  match s.mesh.handlers ev.nodeID with
  | none => ([], s.app)
  | some h => h s.app ev.nodeID ev.b ev.time

/-- The events that an event causes: the arrival at the next hop, or the replies. -/
def caused (s : Run σ) (ev : MeshEvent) (f : Fate) : List MeshEvent :=
  match f with
  | .delivered => (s.answer ev).1.filterMap ev.reply
  | .forwarded hop arrival => [⟨arrival, hop.toNode, ev.b, false⟩]
  | _ => []

def after (s : Run σ) (ev : MeshEvent) (f : Fate) : Run σ where
  report := ⟨s.report.events ++ ev.events f, s.report.deliveries ++ ev.deliveries f⟩
  queue := (s.caused ev f).foldl push s.queue
  mesh := s.mesh.setNode ev.nodeID (f.settle (s.mesh.nodeAt ev.nodeID) ev)
  app := if f = .delivered then (s.answer ev).2 else s.app

theorem app_after_delivered (s : Run σ) (ev : MeshEvent) :
    (s.after ev .delivered).app = (s.answer ev).2 := by simp only [after, if_true]

theorem app_after_of_ne (s : Run σ) (ev : MeshEvent) {f : Fate} (h : f ≠ .delivered) :
    (s.after ev f).app = s.app := if_neg h

theorem foldl_reply (ev : MeshEvent) (queue : List MeshEvent) (outbound : List OutboundBundle) :
    outbound.foldl (reply ev) queue = (outbound.filterMap ev.reply).foldl push queue := by
  induction outbound generalizing queue with
  | nil => rfl
  | cons ob outbound ih =>
    rw [List.foldl_cons, ih]
    unfold reply
    cases hbundle : ob.bundle with
    | none =>
      have hskip : ev.reply ob = none := by rw [MeshEvent.reply, hbundle, Option.map_none]
      rw [List.filterMap_cons_none hskip]
    | some b =>
      have hreply : ev.reply ob = some ⟨max ev.time ob.atTime, ob.fromNode, b, true⟩ := by
        rw [MeshEvent.reply, hbundle, Option.map_some]
      have hwhen : (if ob.atTime < ev.time then ev.time else ob.atTime) = max ev.time ob.atTime := by
        split_ifs with hlt
        · exact (max_eq_left hlt.le).symm
        · exact (max_eq_right (not_lt.mp hlt)).symm
      rw [List.filterMap_cons_some hreply, List.foldl_cons]
      dsimp only
      rw [hwhen]

theorem arrive_events (s : Run σ) (ev : MeshEvent) : (s.arrive ev).report.events =
    s.report.events ++ if ev.injected then [Event.mk ev.time ev.nodeID .injected ev.b.id []] else
      [] := by
  unfold arrive
  split_ifs
  · rfl
  · exact (List.append_nil _).symm

theorem arrive_app (s : Run σ) (ev : MeshEvent) : (s.arrive ev).app = s.app := by
  unfold arrive
  split_ifs <;> rfl

/-- A run is given by its fields. -/
theorem eq_of_fields {s s' : Run σ} (hevents : s.report.events = s'.report.events)
    (hdeliveries : s.report.deliveries = s'.report.deliveries) (hqueue : s.queue = s'.queue)
    (hmesh : s.mesh = s'.mesh) (happ : s.app = s'.app) : s = s' := by
  rcases s with ⟨⟨events, deliveries⟩, queue, mesh, app⟩
  rcases s' with ⟨⟨events', deliveries'⟩, queue', mesh', app'⟩
  dsimp only at hevents hdeliveries hqueue hmesh happ
  rw [hevents, hdeliveries, hqueue, hmesh, happ]

/-- The turns in which the bundle goes no further and no handler is called. -/
theorem record_arrive (s : Run σ) (ev : MeshEvent) {f : Fate} (hdelivered : f ≠ .delivered)
    (hforwarded : ∀ hop arrival, f ≠ .forwarded hop arrival) :
    (s.arrive ev).record ev f.kind [] = s.after ev f := by
  cases f with
  | delivered => exact absurd rfl hdelivered
  | forwarded hop arrival => exact absurd rfl (hforwarded hop arrival)
  | _ =>
    apply eq_of_fields
    · exact (congrArg (· ++ _) (s.arrive_events ev)).trans (List.append_assoc _ _ _)
    · exact (s.arrive_deliveries ev).trans (List.append_nil _).symm
    · exact s.arrive_queue ev
    · exact s.arrive_mesh ev
    · exact s.arrive_app ev

theorem deliver_arrive (s : Run σ) (ev : MeshEvent) :
    (s.arrive ev).deliver ev = s.after ev .delivered := by
  have hhandlers : (s.arrive ev).mesh.handlers = s.mesh.handlers := by
    rw [arrive_mesh]
    rfl
  apply eq_of_fields
  · have hevents : ((s.arrive ev).deliver ev).report.events =
        (s.arrive ev).report.events ++ [⟨ev.time, ev.nodeID, .delivered, ev.b.id, []⟩] := by
      unfold deliver
      dsimp only
      split <;> rfl
    rw [hevents, arrive_events]
    exact List.append_assoc _ _ _
  · rw [deliver_deliveries, arrive_deliveries]
    rfl
  · unfold deliver after caused answer
    dsimp only [record]
    rw [hhandlers]
    cases s.mesh.handlers ev.nodeID with
    | none => exact s.arrive_queue ev
    | some h =>
      dsimp only
      rw [foldl_reply, arrive_queue, arrive_app]
  · rw [deliver_mesh, arrive_mesh]
    rfl
  · unfold deliver after answer
    dsimp only [record]
    rw [hhandlers, if_pos rfl]
    cases s.mesh.handlers ev.nodeID with
    | none => exact s.arrive_app ev
    | some h =>
      dsimp only
      rw [arrive_app]

theorem forward_arrive (fuel : ℕ) (s : Run σ) (ev : MeshEvent) :
    (s.arrive ev).forward fuel ((s.mesh.nodeAt ev.nodeID).ingest ev.b ev.time).2 ev =
      (onward fuel (s.mesh.nodeAt ev.nodeID) ev).map (s.after ev) := by
  have hlost : (s.arrive ev).record ev .undeliverable [] = s.after ev .undeliverable :=
    s.record_arrive ev (f := .undeliverable) (by simp) (by simp)
  rw [← onward_congr ((s.mesh.nodeAt ev.nodeID).ingest_id ev.b ev.time)
    ((s.mesh.nodeAt ev.nodeID).ingest_plan ev.b ev.time)]
  unfold forward onward
  rcases (((s.mesh.nodeAt ev.nodeID).ingest ev.b ev.time).2.route fuel ev.b ev.time) with
    _ | ⟨⟨_ | ⟨hop, rest⟩, time⟩, _ | _⟩
  · rfl
  · exact congrArg some hlost
  · exact congrArg some hlost
  · exact congrArg some hlost
  · dsimp only
    cases hop.arrivalTime ev.time (bundleSize ev.b) with
    | none => exact congrArg some hlost
    | some arrival =>
      apply congrArg some
      apply eq_of_fields
      · exact (congrArg (· ++ _) (s.arrive_events ev)).trans (List.append_assoc _ _ _)
      · exact (s.arrive_deliveries ev).trans (List.append_nil _).symm
      · exact congrArg (push · _) (s.arrive_queue ev)
      · dsimp only [record]
        rw [arrive_mesh, Mesh.setNode_setNode]
        rfl
      · exact s.arrive_app ev

/-- The body of the loop is the fate of the bundle and what follows from it. -/
theorem process_eq (fuel : ℕ) (s : Run σ) (ev : MeshEvent) :
    process fuel s ev = (fate fuel (s.mesh.nodeAt ev.nodeID) ev).map (s.after ev) := by
  have hforward := s.forward_arrive fuel ev
  unfold process fate
  rcases (s.mesh.nodeAt ev.nodeID).ingest_cases ev.b ev.time with
    ⟨hseen, hingest⟩ | ⟨hnew, hexpired, hingest⟩ | ⟨hnew, hlive, hdest, hingest⟩ |
    ⟨hnew, hlive, hdest, hingest⟩
  · rw [hingest, hseen, if_pos rfl]
    exact congrArg some (s.record_arrive ev (f := .duplicate) (by simp) (by simp))
  · rw [hingest, hnew, hexpired, if_neg Bool.false_ne_true, if_pos rfl]
    exact congrArg some (s.record_arrive ev (f := .expired) (by simp) (by simp))
  · rw [hingest, hnew, hlive, if_neg Bool.false_ne_true, if_neg Bool.false_ne_true, if_pos hdest]
    exact congrArg some (s.deliver_arrive ev)
  · rw [hingest] at hforward
    rw [hingest, hnew, hlive, if_neg Bool.false_ne_true, if_neg Bool.false_ne_true, if_neg hdest]
    exact hforward

end Run

/-! ## Traces -/

/-- A turn of the loop: an event, the fate of its bundle and the events that it causes. -/
structure Turn where
  event : MeshEvent
  fate : Fate
  caused : List MeshEvent

namespace Turn

/-- The node that a bundle visits in a turn, with the ID of the bundle. -/
def visit (turn : Turn) : GoString × GoString := (turn.event.nodeID, turn.event.b.id)

def events (turn : Turn) : List Event := turn.event.events turn.fate

def deliveries (turn : Turn) : List Delivery := turn.event.deliveries turn.fate

/-- The events of a turn are about its bundle, at its time. -/
theorem of_mem_events {turn : Turn} {e : Event} (h : e ∈ turn.events) :
    e.time = turn.event.time ∧ e.bundleID = turn.event.b.id := by
  unfold events MeshEvent.events at h
  rw [List.mem_append, List.mem_singleton] at h
  rcases h with hinjected | rfl
  · split_ifs at hinjected
    · rw [List.mem_singleton.mp hinjected]
      exact ⟨rfl, rfl⟩
    · cases hinjected
  · exact ⟨rfl, rfl⟩

/-- A bundle is forwarded over a contact of the plan that takes it, and will arrive at the next hop;
what a handler returns is injected, not before the delivery; no other turn causes anything. -/
structure Follows (m : Mesh σ) (turn : Turn) : Prop where
  forwarded : ∀ hop arrival, turn.fate = .forwarded hop arrival →
    turn.caused = [⟨arrival, hop.toNode, turn.event.b, false⟩] ∧
      (∃ plan, m.plan = some plan ∧ hop ∈ plan.contacts) ∧
      hop.arrivalTime turn.event.time (bundleSize turn.event.b) = some arrival
  replies : (∀ hop arrival, turn.fate ≠ .forwarded hop arrival) → ∀ next ∈ turn.caused,
    turn.fate = .delivered ∧ ∃ h app ob b, m.handlers turn.event.nodeID = some h ∧
      ob ∈ (h app turn.event.nodeID turn.event.b turn.event.time).1 ∧ ob.bundle = some b ∧
      next = ⟨max turn.event.time ob.atTime, ob.fromNode, b, true⟩

theorem Follows.caused_cases {m : Mesh σ} {turn : Turn} (h : turn.Follows m) {next : MeshEvent}
    (hnext : next ∈ turn.caused) :
    (∃ hop plan, m.plan = some plan ∧ hop ∈ plan.contacts ∧
      hop.arrivalTime turn.event.time (bundleSize turn.event.b) = some next.time ∧
      next.nodeID = hop.toNode ∧ next.b = turn.event.b ∧ next.injected = false) ∨
    (∃ h app ob, m.handlers turn.event.nodeID = some h ∧
      ob ∈ (h app turn.event.nodeID turn.event.b turn.event.time).1 ∧ ob.bundle = some next.b ∧
      next.time = max turn.event.time ob.atTime ∧ next.nodeID = ob.fromNode ∧
      next.injected = true) := by
  by_cases hsent : ∃ hop arrival, turn.fate = .forwarded hop arrival
  · obtain ⟨hop, arrival, hf⟩ := hsent
    obtain ⟨hcaused, ⟨plan, hplan, hmem⟩, harrival⟩ := h.forwarded hop arrival hf
    rw [hcaused, List.mem_singleton] at hnext
    subst hnext
    exact .inl ⟨hop, plan, hplan, hmem, harrival, rfl, rfl, rfl⟩
  · obtain ⟨-, handler, app, ob, b, hhandler, hob, hb, rfl⟩ :=
      h.replies (fun hop arrival hf ↦ hsent ⟨hop, arrival, hf⟩) next hnext
    exact .inr ⟨handler, app, ob, hhandler, hob, hb, rfl, rfl, rfl⟩

/-- A turn causes one arrival, of its own bundle, or none. -/
theorem Follows.countP_arrivals {m : Mesh σ} {turn : Turn} (h : turn.Follows m)
    (p : Bundle → Prop) [DecidablePred p] :
    turn.caused.countP (fun ev ↦ ev.injected = false ∧ p ev.b) =
      if decide (turn.fate.kind = .forwarded ∧ p turn.event.b) then 1 else 0 := by
  cases hf : turn.fate with
  | forwarded hop arrival =>
    rw [(h.forwarded hop arrival hf).1, List.countP_singleton]
    simp [Fate.kind]
  | _ =>
    have hzero : turn.caused.countP (fun ev ↦ ev.injected = false ∧ p ev.b) = 0 := by
      apply List.countP_eq_zero.mpr
      intro ev hev
      obtain ⟨-, -, -, -, -, -, -, -, rfl⟩ := h.replies (by simp [hf]) ev hev
      simp
    rw [hzero]
    simp [Fate.kind]

end Turn

namespace Run

/-- The turns that lead from one state to another. -/
inductive Runs (fuel : ℕ) : Run σ → List Turn → Run σ → Prop
  | nil (s : Run σ) : Runs fuel s [] s
  | cons {s s' : Run σ} {ev : MeshEvent} {queue : List MeshEvent} {f : Fate} {trace : List Turn}
      (hpop : BinaryHeap.pop (·.time) s.queue = some (ev, queue))
      (hfate : fate fuel (s.mesh.nodeAt ev.nodeID) ev = some f)
      (htail : Runs fuel (after { s with queue := queue } ev f) trace s') :
      Runs fuel s (⟨ev, f, s.caused ev f⟩ :: trace) s'

/-- The turns of the loop. -/
def turns (fuel : ℕ) : ℕ → Run σ → List Turn
  | 0, _ => []
  | limit + 1, s =>
    match BinaryHeap.pop (·.time) s.queue with
    | none => []
    | some (ev, queue) =>
      match fate fuel (s.mesh.nodeAt ev.nodeID) ev with
      | none => []
      | some f => ⟨ev, f, s.caused ev f⟩ :: turns fuel limit (after { s with queue := queue } ev f)

/-- The loop takes its turns until the queue is empty or the limit is reached. -/
theorem runs_turns {fuel limit : ℕ} {s s' : Run σ} (h : loop fuel limit s = some s') :
    Runs fuel s (turns fuel limit s) s' ∧ (turns fuel limit s).length ≤ limit ∧
      ((turns fuel limit s).length < limit → s'.queue = []) := by
  induction limit generalizing s with
  | zero =>
    cases h
    exact ⟨.nil _, le_rfl, fun hlt ↦ absurd hlt (lt_irrefl 0)⟩
  | succ limit ih =>
    unfold loop at h
    unfold turns
    cases hpop : BinaryHeap.pop (·.time) s.queue with
    | none =>
      rw [hpop] at h
      cases h
      exact ⟨.nil _, Nat.zero_le _, fun _ ↦ BinaryHeap.pop_eq_none.mp hpop⟩
    | some entry =>
      obtain ⟨ev, queue⟩ := entry
      rw [hpop] at h
      dsimp only at h ⊢
      rw [process_eq] at h
      cases hfate : fate fuel (s.mesh.nodeAt ev.nodeID) ev with
      | none =>
        rw [hfate] at h
        cases h
      | some f =>
        rw [hfate] at h
        obtain ⟨hruns, hlen, hend⟩ := ih h
        refine ⟨.cons hpop hfate hruns, Nat.succ_le_succ hlen, fun hlt ↦ hend ?_⟩
        exact Nat.lt_of_succ_lt_succ hlt

theorem loop_eq_some {fuel limit : ℕ} {s s' : Run σ} :
    loop fuel limit s = some s' ↔ ∃ trace, Runs fuel s trace s' ∧ trace.length ≤ limit ∧
      (trace.length < limit → s'.queue = []) := by
  constructor
  · intro h
    exact ⟨_, runs_turns h⟩
  · intro ⟨trace, hruns, hlen, hend⟩
    induction hruns generalizing limit with
    | nil s =>
      cases limit with
      | zero => rfl
      | succ limit => rw [loop, hend (Nat.succ_pos limit), BinaryHeap.pop_eq_none.mpr rfl]
    | cons hpop hfate _ ih =>
      cases limit with
      | zero => exact absurd hlen (Nat.not_succ_le_zero _)
      | succ limit =>
        rw [loop, hpop]
        dsimp only
        rw [process_eq, hfate]
        exact ih (Nat.le_of_succ_le_succ hlen) fun hlt ↦ hend (Nat.succ_lt_succ hlt)

namespace Runs

variable {fuel : ℕ} {s s' : Run σ} {trace : List Turn}

/-- What every turn keeps holds at the end, and what it establishes holds of every turn. -/
theorem rule {P : Run σ → Prop} {Q : Turn → Prop}
    (hstep : ∀ {s ev queue f}, P s → BinaryHeap.pop (·.time) s.queue = some (ev, queue) →
      fate fuel (s.mesh.nodeAt ev.nodeID) ev = some f →
      Q ⟨ev, f, s.caused ev f⟩ ∧ P (after { s with queue := queue } ev f))
    (hs : P s) (h : Runs fuel s trace s') : P s' ∧ ∀ turn ∈ trace, Q turn := by
  induction h with
  | nil s => exact ⟨hs, fun _ h ↦ absurd h List.not_mem_nil⟩
  | cons hpop hfate _ ih =>
    obtain ⟨hturn, hnext⟩ := hstep hs hpop hfate
    obtain ⟨hend, hlater⟩ := ih hnext
    exact ⟨hend, List.forall_mem_cons.mpr ⟨hturn, hlater⟩⟩

theorem mono {fuel' : ℕ} (hle : fuel ≤ fuel') (h : Runs fuel s trace s') :
    Runs fuel' s trace s' := by
  induction h with
  | nil s => exact .nil s
  | cons hpop hfate _ ih => exact .cons hpop (fate_mono hle hfate) ih

theorem append {s'' : Run σ} {trace' : List Turn} (h : Runs fuel s trace s')
    (h' : Runs fuel s' trace' s'') : Runs fuel s (trace ++ trace') s'' := by
  induction h with
  | nil s => exact h'
  | cons hpop hfate _ ih => exact .cons hpop hfate (ih h')

/-- A run leaves no choice: it is the beginning of every run that empties the queue. -/
theorem split {fuel' : ℕ} {u : Run σ} {full : List Turn} (h : Runs fuel s trace s')
    (hfull : Runs fuel' s full u) (hempty : u.queue = []) :
    ∃ rest, full = trace ++ rest ∧ Runs fuel' s' rest u := by
  induction h generalizing full with
  | nil s => exact ⟨full, rfl, hfull⟩
  | cons hpop hfate _ ih =>
    cases hfull with
    | nil =>
      rw [BinaryHeap.pop_eq_none.mpr hempty] at hpop
      cases hpop
    | cons hpop' hfate' htail' =>
      cases hpop.symm.trans hpop'
      cases fate_unique hfate hfate'
      obtain ⟨rest, rfl, hrest⟩ := ih htail'
      exact ⟨rest, rfl, hrest⟩

theorem agenda (h : Runs fuel s trace s') :
    Agenda (·.time) s.queue (trace.map fun turn ↦ (turn.event, turn.caused)) s'.queue := by
  induction h with
  | nil s => exact .nil s.queue
  | cons hpop _ _ ih => exact .cons hpop ih

/-- The events processed and those left over are the ones at the start and the ones caused. -/
theorem perm (h : Runs fuel s trace s') :
    (trace.map Turn.event ++ s'.queue).Perm (s.queue ++ trace.flatMap Turn.caused) := by
  have hperm := h.agenda.perm
  rwa [List.map_map, List.flatMap_map] at hperm

theorem events_eq (h : Runs fuel s trace s') :
    s'.report.events = s.report.events ++ trace.flatMap Turn.events := by
  induction h with
  | nil s => exact (List.append_nil _).symm
  | cons _ _ _ ih => exact ih.trans (List.append_assoc _ _ _)

theorem deliveries_eq (h : Runs fuel s trace s') :
    s'.report.deliveries = s.report.deliveries ++ trace.flatMap Turn.deliveries := by
  induction h with
  | nil s => exact (List.append_nil _).symm
  | cons _ _ _ ih => exact ih.trans (List.append_assoc _ _ _)

/-- The loop comes back where every search does that it starts. -/
theorem exists_loop {limit : ℕ}
    (hstep : ∀ fuel trace s', Runs fuel s trace s' →
      ∀ ev queue, BinaryHeap.pop (·.time) s'.queue = some (ev, queue) →
        ∃ fuel f, fate fuel (s'.mesh.nodeAt ev.nodeID) ev = some f) :
    ∃ fuel s', loop fuel limit s = some s' := by
  suffices hextend : ∀ k fuel trace s', Runs fuel s trace s' → trace.length + k = limit →
      ∃ fuel s', loop fuel limit s = some s' from
    hextend limit 0 [] s (.nil s) (Nat.zero_add limit)
  intro k
  induction k with
  | zero =>
    intro fuel trace s' hruns hlen
    exact ⟨fuel, s', loop_eq_some.mpr ⟨trace, hruns, hlen.le, fun hlt ↦ absurd hlen hlt.ne⟩⟩
  | succ k ih =>
    intro fuel trace s' hruns hlen
    cases hpop : BinaryHeap.pop (·.time) s'.queue with
    | none =>
      have hempty : s'.queue = [] := BinaryHeap.pop_eq_none.mp hpop
      exact ⟨fuel, s', loop_eq_some.mpr ⟨trace, hruns, by omega, fun _ ↦ hempty⟩⟩
    | some entry =>
      obtain ⟨ev, queue⟩ := entry
      obtain ⟨fuel', f, hfate⟩ := hstep fuel trace s' hruns ev queue hpop
      have hlast := Runs.cons hpop (fate_mono (le_max_right fuel fuel') hfate) (.nil _)
      apply ih _ _ _ ((hruns.mono (le_max_left fuel fuel')).append hlast)
      rw [List.length_append, List.length_singleton]
      omega

/-- A run of bounded length in which every search comes back ends with an empty queue. -/
theorem exists_done {bound : ℕ}
    (hstep : ∀ fuel trace s', Runs fuel s trace s' → trace.length ≤ bound ∧
      ∀ ev queue, BinaryHeap.pop (·.time) s'.queue = some (ev, queue) →
        ∃ fuel f, fate fuel (s'.mesh.nodeAt ev.nodeID) ev = some f) :
    ∃ fuel trace s', Runs fuel s trace s' ∧ s'.queue = [] := by
  obtain ⟨fuel, s', hs'⟩ := @exists_loop _ s (bound + 1) fun fuel trace s' hruns ↦
    (hstep fuel trace s' hruns).2
  obtain ⟨trace, hruns, -, hend⟩ := loop_eq_some.mp hs'
  exact ⟨fuel, trace, s', hruns, hend (Nat.lt_succ_of_le (hstep fuel trace s' hruns).1)⟩

/-- What every event at the start has, and every event caused by one that has it, all events have. -/
theorem forall_event {E : MeshEvent → Prop} (h : Runs fuel s trace s') (hs : ∀ ev ∈ s.queue, E ev)
    (hcaused : ∀ turn ∈ trace, E turn.event → ∀ next ∈ turn.caused, E next) :
    (∀ turn ∈ trace, E turn.event) ∧ ∀ ev ∈ s'.queue, E ev := by
  have hall := h.agenda.forall_of_caused hs (List.forall_mem_map.mpr hcaused)
  rw [List.map_map, List.forall_mem_append, List.forall_mem_map] at hall
  exact hall

end Runs

/-! ## What every run keeps -/

theorem nodeAt_after (s : Run σ) (ev : MeshEvent) (f : Fate) (id : GoString) :
    (s.after ev f).mesh.nodeAt id =
      if id = ev.nodeID then f.settle (s.mesh.nodeAt ev.nodeID) ev else s.mesh.nodeAt id :=
  Mesh.nodeAt_setNode s.mesh ev.nodeID id _

/-- A node sees the ID of a bundle that arrives there, and nothing else is seen that was not. -/
theorem isSet_seen_after (s : Run σ) (ev : MeshEvent) (f : Fate) (node bundleID : GoString) :
    ((s.after ev f).mesh.nodeAt node).seen.isSet bundleID =
      (decide ((node, bundleID) = (ev.nodeID, ev.b.id)) ||
        (s.mesh.nodeAt node).seen.isSet bundleID) := by
  rw [nodeAt_after]
  by_cases hnode : node = ev.nodeID
  · rw [if_pos hnode, Fate.isSet_settle_seen, hnode]
    simp
  · rw [if_neg hnode]
    simp [hnode]

/-- Every node goes by its own name and by the plan of the mesh, and the handlers stay. -/
structure Configured (m : Mesh σ) (s : Run σ) : Prop where
  keyed : ∀ id, (s.mesh.nodeAt id).id = id
  planned : ∀ id, (s.mesh.nodeAt id).plan = m.plan
  handlers : s.mesh.handlers = m.handlers

section Configured

variable {m : Mesh σ} {fuel : ℕ} {s s' : Run σ}

theorem configured_start (hm : m.Fresh) (app : σ) : (start m app).Configured m where
  keyed := fun id ↦ congrArg Node.id (hm.nodeAt_eq id)
  planned := fun id ↦ congrArg Node.plan (hm.nodeAt_eq id)
  handlers := rfl

theorem Configured.withQueue (h : s.Configured m) (queue : List MeshEvent) :
    Configured m { s with queue := queue } := ⟨h.keyed, h.planned, h.handlers⟩

theorem Configured.after (h : s.Configured m) (ev : MeshEvent) (queue : List MeshEvent) (f : Fate) :
    (after { s with queue := queue } ev f).Configured m where
  keyed := by
    intro id
    rw [nodeAt_after]
    split_ifs with hat
    · rw [Fate.settle_id, h.keyed, hat]
    · exact h.keyed id
  planned := by
    intro id
    rw [nodeAt_after]
    split_ifs
    · rw [Fate.settle_plan]
      exact h.planned _
    · exact h.planned id
  handlers := h.handlers

theorem Configured.follows {ev : MeshEvent} {f : Fate} (h : s.Configured m)
    (hfate : fate fuel (s.mesh.nodeAt ev.nodeID) ev = some f) :
    Turn.Follows m ⟨ev, f, s.caused ev f⟩ where
  forwarded := by
    intro hop arrival hf
    dsimp only at hf
    subst hf
    obtain ⟨plan, hplan, hmem, harrival⟩ := fate_forwarded hfate
    exact ⟨rfl, ⟨plan, (h.planned ev.nodeID).symm.trans hplan, hmem⟩, harrival⟩
  replies := by
    intro hne next hnext
    cases f with
    | delivered =>
      obtain ⟨ob, hob, hreply⟩ := List.mem_filterMap.mp hnext
      obtain ⟨b, hb, rfl⟩ := Option.map_eq_some_iff.mp hreply
      unfold answer at hob
      rw [h.handlers] at hob
      cases hhandler : m.handlers ev.nodeID with
      | none =>
        rw [hhandler] at hob
        cases hob
      | some handler =>
        rw [hhandler] at hob
        exact ⟨rfl, handler, s.app, ob, b, rfl, hob, hb, rfl⟩
    | forwarded hop arrival => exact absurd rfl (hne hop arrival)
    | duplicate => cases hnext
    | expired => cases hnext
    | undeliverable => cases hnext

theorem Runs.configured {trace : List Turn} (h : Runs fuel s trace s') (hs : s.Configured m) :
    s'.Configured m ∧ ∀ turn ∈ trace, turn.Follows m :=
  h.rule (fun hs _ hfate ↦ ⟨hs.follows hfate, hs.after _ _ _⟩) hs

/-- Bundles are delivered at their destinations. -/
theorem Runs.destination_eq {trace : List Turn} (h : Runs fuel s trace s') (hs : s.Configured m) :
    ∀ turn ∈ trace, turn.fate = .delivered →
      turn.event.b.primary.destination.nodeID = turn.event.nodeID := by
  refine (h.rule (P := fun s ↦ s.Configured m) (fun {s ev queue f} hs _ hfate ↦
    ⟨fun hf ↦ ?_, hs.after ev queue f⟩) hs).2
  dsimp only at hf ⊢
  subst hf
  rcases fate_cases hfate with ⟨-, hf⟩ | ⟨-, -, hf⟩ | ⟨-, -, hdest, -⟩ | ⟨-, -, -, honward⟩
  · cases hf
  · cases hf
  · rw [hdest, hs.keyed]
  · rcases onward_cases honward with hf | ⟨plan, hop, arrival, -, -, -, hf⟩
    · cases hf
    · cases hf

/-- Where no turn is at a node with a handler the state of the handlers stays. -/
theorem Runs.app_eq {trace : List Turn} (h : Runs fuel s trace s') (hs : s.Configured m)
    (hnone : ∀ turn ∈ trace, m.handlers turn.event.nodeID = none) : s'.app = s.app := by
  induction h with
  | nil s => rfl
  | @cons s s' ev queue f trace hpop hfate htail ih =>
    obtain ⟨hfirst, hrest⟩ := List.forall_mem_cons.mp hnone
    rw [ih (hs.after ev queue f) hrest]
    by_cases hf : f = .delivered
    · subst hf
      rw [app_after_delivered, answer]
      dsimp only at hfirst ⊢
      rw [hs.handlers, hfirst]
    · exact app_after_of_ne _ _ hf

end Configured

end Run

/-- The event that an injection puts in the queue. -/
def Injection.event (inj : Injection) : MeshEvent := ⟨inj.atTime, inj.nodeID, inj.b, true⟩

namespace Run

theorem start_queue (m : Mesh σ) (app : σ) :
    (start m app).queue = (m.pending.map Injection.event).foldl push [] :=
  List.foldl_map.symm

theorem start_queue_perm (m : Mesh σ) (app : σ) :
    (start m app).queue.Perm (m.pending.map Injection.event) := by
  rw [start_queue]
  exact foldl_push_perm _ [] _

theorem isHeap_start_queue (m : Mesh σ) (app : σ) :
    BinaryHeap.IsHeap (·.time) (start m app).queue := by
  rw [start_queue]
  exact isHeap_foldl_push BinaryHeap.isHeap_nil _

end Run

/-- The turns of `Run`. -/
def Mesh.turns (fuel : ℕ) (app : σ) (m : Mesh σ) : List Turn :=
  Run.turns fuel maxEvents (Run.start m app)

theorem Mesh.runs_turns {m : Mesh σ} {fuel : ℕ} {app : σ} {s : Run σ}
    (h : m.run fuel app = some s) : Run.Runs fuel (Run.start m app) (m.turns fuel app) s :=
  (Run.runs_turns h).1

namespace Run

/-! ## Visits -/

/-- The bundle of a turn is a duplicate exactly where its ID was seen at the node before. -/
theorem Runs.visited {fuel : ℕ} {s s' : Run σ} {trace : List Turn} (h : Runs fuel s trace s') :
    ((trace.filter (·.fate ≠ .duplicate)).map Turn.visit).Nodup ∧
    (∀ turn ∈ trace, turn.fate ≠ .duplicate →
      (s.mesh.nodeAt turn.event.nodeID).seen.isSet turn.event.b.id = false) ∧
    ∀ node bundleID, (s'.mesh.nodeAt node).seen.isSet bundleID = true ↔
      (s.mesh.nodeAt node).seen.isSet bundleID = true ∨ (node, bundleID) ∈ trace.map Turn.visit := by
  induction h with
  | nil s => exact ⟨List.nodup_nil, fun _ h ↦ absurd h List.not_mem_nil, by simp⟩
  | @cons s s' ev queue f trace hpop hfate _ ih =>
    obtain ⟨hnodup, hfirst, hseen⟩ := ih
    have hstep := fun node bundleID ↦
      isSet_seen_after ({ s with queue := queue } : Run σ) ev f node bundleID
    have hduplicate := fate_eq_duplicate_iff hfate
    have hlater : ∀ turn ∈ trace, turn.fate ≠ .duplicate → turn.visit ≠ (ev.nodeID, ev.b.id) ∧
        (s.mesh.nodeAt turn.event.nodeID).seen.isSet turn.event.b.id = false := by
      intro turn hturn hne
      have hunseen := hfirst turn hturn hne
      rw [hstep, Bool.or_eq_false_iff, decide_eq_false_iff_not] at hunseen
      exact hunseen
    refine ⟨?_, ?_, fun node bundleID ↦ ?_⟩
    · by_cases hf : f = .duplicate
      · rw [List.filter_cons_of_neg (by simp [hf])]
        exact hnodup
      · rw [List.filter_cons_of_pos (by simp [hf]), List.map_cons, List.nodup_cons]
        refine ⟨fun hmem ↦ ?_, hnodup⟩
        obtain ⟨turn, hturn, hvisit⟩ := List.mem_map.mp hmem
        rw [List.mem_filter, decide_eq_true_iff] at hturn
        exact (hlater turn hturn.1 hturn.2).1 hvisit
    · intro turn hturn hne
      rcases List.mem_cons.mp hturn with rfl | hturn
      · rw [← Bool.not_eq_true]
        exact mt hduplicate.mpr hne
      · exact (hlater turn hturn hne).2
    · rw [hseen, hstep, Bool.or_eq_true, decide_eq_true_iff, List.map_cons, List.mem_cons, ← or_assoc]
      exact or_congr_left or_comm

end Run

end Zenith.Sim
