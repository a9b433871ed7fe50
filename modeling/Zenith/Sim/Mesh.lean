import Zenith.Node.Node

/-!
# The mesh simulation

`Run` takes one event after the other from a queue that is ordered by time. What handlers keep
between calls is the state `σ`, about which nothing is known. A call of `FindRoute` that does not
come back takes the run with it, which `none` stands for.
-/

namespace Zenith.Sim

open Go Bpv7 Cgr Dtn

structure OutboundBundle where
  fromNode : GoString
  /-- `none` is the nil pointer. -/
  bundle : Option Bundle
  atTime : Time

/-- A handler with the state it shares with the other handlers. -/
abbrev AppHandler (σ : Type) := σ → GoString → Bundle → Time → List OutboundBundle × σ

structure Injection where
  nodeID : GoString
  b : Bundle
  atTime : Time

structure Mesh (σ : Type) where
  nodes : GoMap GoString Node
  plan : Option ContactPlan
  pending : List Injection
  handlers : GoMap GoString (AppHandler σ)

inductive EventKind
  | injected
  | delivered
  | forwarded
  | stored
  | duplicate
  | expired
  | undeliverable
  deriving DecidableEq, Repr

structure Event where
  time : Time
  node : GoString
  kind : EventKind
  bundleID : GoString
  nextHop : GoString
  deriving DecidableEq, Repr

structure Delivery where
  bundleID : GoString
  node : GoString
  time : Time
  payload : Option (List UInt8)
  deriving DecidableEq, Repr

structure Report where
  events : List Event
  deliveries : List Delivery
  deriving DecidableEq, Repr

structure MeshEvent where
  time : Time
  nodeID : GoString
  b : Bundle
  injected : Bool

variable {σ : Type}

namespace Mesh

/-- `NewMesh`. -/
def new (plan : Option ContactPlan) : Mesh σ where
  nodes := GoMap.empty
  plan := plan
  pending := []
  handlers := GoMap.empty

/-- The node that `AddNode` returns. -/
def nodeAt (m : Mesh σ) (id : GoString) : Node := (m.nodes id).getD (Node.new id m.plan)

def setNode (m : Mesh σ) (id : GoString) (n : Node) : Mesh σ :=
  { m with nodes := m.nodes.insert id n }

/-- `AddNode`; it stores again what is there already. -/
def addNode (m : Mesh σ) (id : GoString) : Mesh σ := m.setNode id (m.nodeAt id)

def setHandler (m : Mesh σ) (nodeID : GoString) (h : AppHandler σ) : Mesh σ :=
  let m := m.addNode nodeID
  { m with handlers := m.handlers.insert nodeID h }

def inject (m : Mesh σ) (nodeID : GoString) (b : Bundle) (atTime : Time) : Mesh σ :=
  let m := m.addNode nodeID
  { m with pending := m.pending ++ [⟨nodeID, b, atTime⟩] }

end Mesh

/-! ## A run -/

/-- The local variables of `Run`, the mesh it works on and the state of the handlers. -/
structure Run (σ : Type) where
  report : Report
  queue : List MeshEvent
  mesh : Mesh σ
  app : σ

def maxEvents : ℕ := 1000000

/-- The package's own copy of the function of the same name in `node`. -/
def bundleSize (b : Bundle) : ℤ := Dtn.bundleSize b

theorem bundleSize_nonneg (b : Bundle) : 0 ≤ bundleSize b := by
  unfold bundleSize Dtn.bundleSize
  cases b.marshal <;> exact Int.natCast_nonneg _

def push (queue : List MeshEvent) (ev : MeshEvent) : List MeshEvent :=
  BinaryHeap.push (·.time) queue ev

namespace Run

/-- `report.Events = append(report.Events, Event{...})` for the event at hand. -/
def record (s : Run σ) (ev : MeshEvent) (kind : EventKind) (nextHop : GoString) : Run σ :=
  { s with
    report := { s.report with
      events := s.report.events ++ [Event.mk ev.time ev.nodeID kind ev.b.id nextHop] } }

/-- One bundle that a handler returned on the delivery `ev`. -/
def reply (ev : MeshEvent) (queue : List MeshEvent) (ob : OutboundBundle) : List MeshEvent :=
  match ob.bundle with
  | none => queue
  | some b =>
    let when := if ob.atTime < ev.time then ev.time else ob.atTime
    push queue ⟨when, ob.fromNode, b, true⟩

/-- The case `ResultDelivered`. -/
def deliver (s : Run σ) (ev : MeshEvent) : Run σ :=
  let s := s.record ev .delivered []
  let s := { s with
    report := { s.report with
      deliveries := s.report.deliveries ++
        [Delivery.mk ev.b.id ev.nodeID ev.time ev.b.payload] } }
  match s.mesh.handlers ev.nodeID with
  | none => s
  | some h =>
    let (outbound, app) := h s.app ev.nodeID ev.b ev.time
    { s with queue := outbound.foldl (reply ev) s.queue, app := app }

/-- The case `ResultStored`, in which the bundle is in the store of `n`. -/
def forward (fuel : ℕ) (s : Run σ) (n : Node) (ev : MeshEvent) : Option (Run σ) :=
  match n.route fuel ev.b ev.time with
  | none => none
  | some (_, false) => some (s.record ev .undeliverable [])
  | some (route, true) =>
    match route.hops with
    | [] => some (s.record ev .undeliverable [])
    | hop :: _ =>
      match hop.arrivalTime ev.time (bundleSize ev.b) with
      | none => some (s.record ev .undeliverable [])
      | some arrival =>
        let s := { s with mesh := s.mesh.setNode ev.nodeID (n.dequeue ev.b.id) }
        let s := s.record ev .forwarded hop.toNode
        some { s with queue := push s.queue ⟨arrival, hop.toNode, ev.b, false⟩ }

/-- The report of an injection and the call of `Ingest`. -/
def arrive (s : Run σ) (ev : MeshEvent) : Run σ :=
  let n := s.mesh.nodeAt ev.nodeID
  let s := if ev.injected then s.record ev .injected [] else s
  { s with mesh := s.mesh.setNode ev.nodeID (n.ingest ev.b ev.time).2 }

/-- The body of the loop, with the event just taken from the queue. -/
def process (fuel : ℕ) (s : Run σ) (ev : MeshEvent) : Option (Run σ) :=
  let (result, n) := (s.mesh.nodeAt ev.nodeID).ingest ev.b ev.time
  let s := s.arrive ev
  match result with
  | .delivered => some (s.deliver ev)
  | .duplicate => some (s.record ev .duplicate [])
  | .expired => some (s.record ev .expired [])
  | .stored => s.forward fuel n ev

/-- The loop, for `limit` events at most. -/
def loop (fuel : ℕ) : ℕ → Run σ → Option (Run σ)
  | 0, s => some s
  | limit + 1, s =>
    match BinaryHeap.pop (·.time) s.queue with
    | none => some s
    | some (ev, queue) =>
      match process fuel { s with queue := queue } ev with
      | none => none
      | some s => loop fuel limit s

def start (m : Mesh σ) (app : σ) : Run σ where
  report := ⟨[], []⟩
  queue := m.pending.foldl (fun queue inj ↦ push queue ⟨inj.atTime, inj.nodeID, inj.b, true⟩) []
  mesh := m
  app := app

end Run

/-- `Run`: the state at the end of the loop, with the report that is returned. -/
def Mesh.run (fuel : ℕ) (app : σ) (m : Mesh σ) : Option (Run σ) :=
  Run.loop fuel maxEvents (Run.start m app)

end Zenith.Sim
