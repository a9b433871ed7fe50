import Zenith.Bpv7.WellFormed
import Zenith.Bridge.ComputeNode
import Zenith.Sim.Mesh

/-!
# Responders

A Responder makes a compute node a handler of the mesh. It returns a bundle on a request and nothing on
any other payload, and numbers its replies.
-/

namespace Zenith.Bridge

open Go Bpv7 Sim

/-- The system around the code. -/
structure Host where
  /-- `time.Now()` when the counter at an address has come to a number. -/
  timeNow : ℕ → UInt64 → Time
  /-- What `%q` prints. -/
  quote : GoString → GoString

/-- What the closures point to: compute nodes and counters, by their addresses. A call that panics or
does not come back takes the run with it. -/
structure AppState where
  computeNodes : ℕ → ComputeNode
  replySeqs : ℕ → UInt64
  crashed : Bool

/-- The variables that the closure of a `Responder` captures. -/
structure Captured where
  node : ℕ
  replySeq : ℕ
  lifetime : Duration
  deriving DecidableEq, Repr

def DefaultLifetime : Duration := 24 * 3600 * second

variable (host : Host) (captured : Captured)

/-- The bundle that carries a reply to `b`. -/
def replyBundle (b : Bundle) (now : Time) (seq : UInt64) (reply : List UInt8) : Bundle :=
  let lifetime := if captured.lifetime ≤ 0 then DefaultLifetime else captured.lifetime
  NewBundle (host.timeNow captured.replySeq seq) b.primary.destination b.primary.source reply
    { Options.zero with
      lifetime := lifetime
      creationTime := DTNTime now
      sequenceNumber := seq }

/-- `Responder`. -/
def Responder : AppHandler AppState := fun app deliveredTo b now ↦
  match (app.computeNodes captured.node).handle host.quote (b.payload.getD []) with
  | (.panic _, _) => ([], { app with crashed := true })
  | (.outOfFuel, _) => ([], { app with crashed := true })
  | (.error _, c) =>
    ([], { app with computeNodes := Function.update app.computeNodes captured.node c })
  | (.ok none, c) =>
    ([], { app with computeNodes := Function.update app.computeNodes captured.node c })
  | (.ok (some reply), c) =>
    let seq := app.replySeqs captured.replySeq + 1
    ([⟨deliveredTo, some (replyBundle host captured b now seq reply), now⟩],
      { app with
        computeNodes := Function.update app.computeNodes captured.node c
        replySeqs := Function.update app.replySeqs captured.replySeq seq })

/-- The message that a bundle carries. -/
def carried (b : Bundle) : Outcome MessageError Message := decode (b.payload.getD [])

/-- A reply to the request that `b` carries, with the number `seq`. -/
structure Replies (b : Bundle) (req : InferenceRequest) (seq : UInt64) (rb : Bundle) : Prop where
  destination : rb.primary.destination = b.primary.source
  sequenceNumber : rb.primary.creationTime.sequenceNumber = seq
  whole : rb.primary.isFragment = false
  response : ∃ resp, carried rb = .ok (.response resp) ∧ resp.requestID = req.requestID ∧
    resp.modelID = req.modelID

variable (app : AppState) (node : GoString) {b : Bundle} (now : Time)

theorem replies_replyBundle {req : InferenceRequest} {resp : InferenceResponse} {reply : List UInt8}
    (hreply : decode reply = .ok (.response resp)) (hrequest : resp.requestID = req.requestID)
    (hmodel : resp.modelID = req.modelID) (seq : UInt64) :
    Replies b req seq (replyBundle host captured b now seq reply) where
  destination := rfl
  sequenceNumber := rfl
  whole := show decide (Options.zero.flags &&& FlagIsFragment ≠ 0) = false by decide
  response := ⟨resp, hreply, hrequest, hmodel⟩

/-- A request is answered, to its source, unless the call panics. -/
theorem responder_request {req : InferenceRequest} (h : carried b = .ok (.request req)) :
    (Responder host captured app node b now).2.crashed = true ∨
    ∃ rb, Replies b req (app.replySeqs captured.replySeq + 1) rb ∧
      (Responder host captured app node b now).1 = [⟨node, some rb, now⟩] ∧
      (Responder host captured app node b now).2.crashed = app.crashed ∧
      (Responder host captured app node b now).2.replySeqs =
        Function.update app.replySeqs captured.replySeq (app.replySeqs captured.replySeq + 1) := by
  obtain ⟨enc, henc, hhandle⟩ := (app.computeNodes captured.node).handle_request host.quote h
  obtain ⟨hrequest, hmodel⟩ :=
    (app.computeNodes captured.node).runInference_ids host.quote req
  unfold Responder
  rw [hhandle]
  split_ifs with hlen
  · have hreply := decode_encode henc hlen
    exact .inr ⟨_, replies_replyBundle host captured now hreply hrequest hmodel _, rfl, rfl, rfl⟩
  · exact .inl rfl

/-- Nothing else is answered. -/
theorem responder_other (h : ∀ req, carried b ≠ .ok (.request req)) :
    (Responder host captured app node b now).1 = [] ∧
      (Responder host captured app node b now).2.replySeqs = app.replySeqs := by
  have hreply := (app.computeNodes captured.node).handle_ne_reply host.quote h
  unfold Responder
  rcases hhandle : (app.computeNodes captured.node).handle host.quote (b.payload.getD []) with
    ⟨_ | _ | _ | _, c⟩
  · next reply =>
    cases reply with
    | none => exact ⟨rfl, rfl⟩
    | some reply => exact absurd (congrArg Prod.fst hhandle) (hreply reply)
  · exact ⟨rfl, rfl⟩
  · exact ⟨rfl, rfl⟩
  · exact ⟨rfl, rfl⟩

/-- A run that has crashed stays so. -/
theorem responder_crashed {app : AppState} (h : app.crashed = true) :
    (Responder host captured app node b now).2.crashed = true := by
  unfold Responder
  rcases (app.computeNodes captured.node).handle host.quote (b.payload.getD []) with
    ⟨(_ | reply) | _ | _ | _, c⟩
  · exact h
  · exact h
  · exact h
  · rfl
  · rfl

end Zenith.Bridge
