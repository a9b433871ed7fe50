import Zenith.Bridge.Client
import Zenith.Bridge.CloudMask
import Zenith.Sim.Origin

/-!
# Exchanges over the mesh

The state of a compute node is what the payloads delivered to it have made of it, in the order of their
delivery. So a response that arrives on the ground says what the models uploaded before its request make
of the scene, and no request is answered more often than it was sent.
-/

namespace Zenith.Bridge

open Go Bpv7 Dtn Sim

/-! ## What messages make of a compute node -/

namespace ComputeNode

variable (quote : GoString → GoString)

/-- The node after payloads were handled in turn, whatever came of them. -/
def after (c : ComputeNode) (payloads : List (List UInt8)) : ComputeNode :=
  payloads.foldl (fun c payload ↦ (c.handle quote payload).2) c

theorem after_append (c : ComputeNode) (payloads payloads' : List (List UInt8)) :
    c.after quote (payloads ++ payloads') = (c.after quote payloads).after quote payloads' :=
  List.foldl_append

/-- A payload deploys a model under an ID, whatever was there. -/
def Deploys (factories : GoMap GoString ModelFactory) (id : GoString) (payload : List UInt8)
    (model : Model) : Prop :=
  ∃ up factory, decode payload = .ok (.upload up) ∧ up.modelID = id ∧
    factories up.kind = some factory ∧ factory id up.params = .ok model

theorem handle_cases (c : ComputeNode) (payload : List UInt8) :
    (c.handle quote payload).2 = c ∨ ∃ id model, Deploys c.factories id payload model ∧
      (c.handle quote payload).2 = { c with models := c.models.insert id model } := by
  by_cases hupload : ∃ up, decode payload = .ok (.upload up)
  · obtain ⟨up, hmsg⟩ := hupload
    rcases c.handle_upload quote hmsg with ⟨err, hhandle⟩ | ⟨factory, model, hkind, hmodel, hhandle⟩
    · exact .inl (congrArg Prod.snd hhandle)
    · exact .inr ⟨up.modelID, model, ⟨up, factory, hmsg, rfl, hkind, hmodel⟩,
        congrArg Prod.snd hhandle⟩
  · exact .inl (c.handle_of_ne_upload quote fun up hmsg ↦ hupload ⟨up, hmsg⟩)

theorem handle_of_deploys (c : ComputeNode) {id : GoString} {payload : List UInt8} {model : Model}
    (h : Deploys c.factories id payload model) :
    (c.handle quote payload).2 = { c with models := c.models.insert id model } := by
  obtain ⟨up, factory, hmsg, rfl, hkind, hmodel⟩ := h
  unfold handle deploy
  rw [hmsg]
  dsimp only
  rw [hkind]
  dsimp only
  rw [hmodel]

theorem handle_of_ne_ok (c : ComputeNode) {payload : List UInt8}
    (h : ∀ reply, (c.handle quote payload).1 ≠ .ok reply) : (c.handle quote payload).2 = c := by
  by_cases hupload : ∃ up, decode payload = .ok (.upload up)
  · obtain ⟨up, hmsg⟩ := hupload
    rcases c.handle_upload quote hmsg with ⟨err, hhandle⟩ | ⟨factory, model, -, -, hhandle⟩
    · exact congrArg Prod.snd hhandle
    · exact absurd (congrArg Prod.fst hhandle) (h none)
  · exact c.handle_of_ne_upload quote fun up hmsg ↦ hupload ⟨up, hmsg⟩

/-- Messages register no factories and capture no scenes. -/
theorem after_frame (c : ComputeNode) (payloads : List (List UInt8)) :
    (c.after quote payloads).factories = c.factories ∧
      (c.after quote payloads).scenes = c.scenes := by
  induction payloads using List.reverseRecOn with
  | nil => exact ⟨rfl, rfl⟩
  | append_singleton payloads payload ih =>
    rw [after_append]
    change ((c.after quote payloads).handle quote payload).2.factories = _ ∧
      ((c.after quote payloads).handle quote payload).2.scenes = _
    rcases (c.after quote payloads).handle_cases quote payload with hsame | ⟨id, model, -, hnew⟩
    · rw [hsame]
      exact ih
    · rw [hnew]
      exact ih

/-- A model that a node has under an ID was there from the start, or is that of the last payload to
deploy one there. -/
theorem models_after {c : ComputeNode} {payloads : List (List UInt8)} {id : GoString} {model : Model}
    (h : (c.after quote payloads).models id = some model) :
    c.models id = some model ∨ ∃ before payload later, payloads = before ++ payload :: later ∧
      Deploys c.factories id payload model ∧
      ∀ next ∈ later, ∀ model', ¬Deploys c.factories id next model' := by
  induction payloads using List.reverseRecOn with
  | nil => exact .inl h
  | append_singleton payloads payload ih =>
    have hfactories := (c.after_frame quote payloads).1
    rw [after_append] at h
    change ((c.after quote payloads).handle quote payload).2.models id = some model at h
    by_cases hlast : ∃ model', Deploys c.factories id payload model'
    · obtain ⟨model', hdeploys⟩ := hlast
      rw [handle_of_deploys quote _ (hfactories ▸ hdeploys)] at h
      dsimp only at h
      rw [GoMap.insert_same, Option.some.injEq] at h
      subst h
      exact .inr ⟨payloads, payload, [], rfl, hdeploys, fun _ hnext ↦ absurd hnext List.not_mem_nil⟩
    · have hkeep : (c.after quote payloads).models id = some model := by
        rcases (c.after quote payloads).handle_cases quote payload with
          hsame | ⟨other, model', hdeploys, hnew⟩
        · rwa [hsame] at h
        · have hother : id ≠ other := by
            intro heq
            rw [hfactories, ← heq] at hdeploys
            exact hlast ⟨model', hdeploys⟩
          rw [hnew] at h
          dsimp only at h
          rwa [GoMap.insert_of_ne _ _ hother] at h
      rcases ih hkeep with hstart | ⟨before, first, later, rfl, hdeploys, hlater⟩
      · exact .inl hstart
      · refine .inr ⟨before, first, later ++ [payload], by rw [List.append_assoc]; rfl, hdeploys, ?_⟩
        intro next hnext model' hdeploys'
        rcases List.mem_append.mp hnext with hold | hnew
        · exact hlater next hold model' hdeploys'
        · rw [List.mem_singleton.mp hnew] at hdeploys'
          exact hlast ⟨model', hdeploys'⟩

/-- A response that is a success is what the model of its ID makes of the scene. -/
theorem runInference_ok {c : ComputeNode} {req : InferenceRequest}
    (h : (c.runInference quote req).ok = true) :
    ∃ model scene, c.models req.modelID = some model ∧ c.scenes req.inputID = some scene ∧
      model scene = .ok ((c.runInference quote req).result, (c.runInference quote req).summary) ∧
      (c.runInference quote req).inputBytes = Cbor.lenUint64 scene ∧
      (c.runInference quote req).outputBytes =
        Cbor.lenUint64 (c.runInference quote req).result := by
  unfold runInference at h ⊢
  cases hmodel : c.models req.modelID with
  | none =>
    rw [hmodel] at h
    cases h
  | some model =>
    rw [hmodel] at h
    cases hscene : c.scenes req.inputID with
    | none =>
      rw [hscene] at h
      cases h
    | some scene =>
      rw [hscene] at h
      dsimp only at h ⊢
      cases hinfer : model scene with
      | error err =>
        rw [hinfer] at h
        cases h
      | ok found =>
        obtain ⟨result, summary⟩ := found
        exact ⟨model, scene, rfl, rfl, hinfer, rfl, rfl⟩

end ComputeNode

/-! ## Compute nodes in a run -/

/-- The payloads delivered to Responders of the compute node at an address, in turn. -/
def received (responders : GoMap GoString Captured) (address : ℕ) (trace : List Turn) :
    List (List UInt8) :=
  (trace.filter fun turn ↦ turn.fate = .delivered ∧
    (responders turn.event.nodeID).any (·.node = address)).map fun turn ↦ turn.event.b.payload.getD []

theorem received_append (responders : GoMap GoString Captured) (address : ℕ)
    (trace trace' : List Turn) : received responders address (trace ++ trace') =
      received responders address trace ++ received responders address trace' := by
  unfold received
  rw [List.filter_append, List.map_append]

/-- A Responder hands the payload to its compute node. -/
theorem responder_computeNodes (host : Host) (captured : Captured) (app : AppState) (node : GoString)
    (b : Bundle) (now : Time) : (Responder host captured app node b now).2.computeNodes =
      Function.update app.computeNodes captured.node
        ((app.computeNodes captured.node).handle host.quote (b.payload.getD [])).2 := by
  have hlost (h : ∀ reply, ((app.computeNodes captured.node).handle host.quote
      (b.payload.getD [])).1 ≠ .ok reply) : app.computeNodes =
        Function.update app.computeNodes captured.node
          ((app.computeNodes captured.node).handle host.quote (b.payload.getD [])).2 := by
    rw [(app.computeNodes captured.node).handle_of_ne_ok host.quote h, Function.update_eq_self]
  unfold Responder
  rcases hhandle : (app.computeNodes captured.node).handle host.quote (b.payload.getD []) with
    ⟨(_ | reply) | err | reason | _, c⟩
  · rfl
  · rfl
  · rfl
  · rw [hhandle] at hlost
    exact hlost (by simp)
  · rw [hhandle] at hlost
    exact hlost (by simp)

section Runs

variable {host : Host} {responders : GoMap GoString Captured} {m : Mesh AppState} {fuel : ℕ}
  {s s' : Run AppState} {trace : List Turn}

theorem computeNodes_after (hserves : Serves host responders m) (hs : s.Configured m)
    (ev : MeshEvent) (f : Fate) (address : ℕ) : (s.after ev f).app.computeNodes address =
      (s.app.computeNodes address).after host.quote
        (received responders address [⟨ev, f, s.caused ev f⟩]) := by
  unfold received
  rw [List.filter_singleton]
  dsimp only
  by_cases hf : f = .delivered
  · subst hf
    rw [Run.app_after_delivered, answer_eq hserves hs]
    cases hcaptured : responders ev.nodeID with
    | none => simp [ComputeNode.after]
    | some captured =>
      dsimp only [Option.elim]
      rw [responder_computeNodes]
      by_cases haddress : captured.node = address
      · subst haddress
        simp [ComputeNode.after]
      · simp [ComputeNode.after, haddress, Function.update_of_ne (Ne.symm haddress)]
  · rw [Run.app_after_of_ne s ev hf]
    simp [ComputeNode.after, hf]

/-- The state of a compute node is what its payloads have made of it. -/
theorem computeNodes_eq (hserves : Serves host responders m) (h : Run.Runs fuel s trace s')
    (hs : s.Configured m) (address : ℕ) : s'.app.computeNodes address =
      (s.app.computeNodes address).after host.quote (received responders address trace) := by
  induction h with
  | nil s => rfl
  | @cons s s' ev queue f trace hpop hfate _ ih =>
    have hfirst := computeNodes_after (s := { s with queue := queue }) hserves (hs.withQueue queue)
      ev f address
    rw [ih (hs.after ev queue f), hfirst, ← ComputeNode.after_append, ← received_append]
    rfl

/-- The reply to a request carries what the compute node infers at that moment. -/
theorem carried_reply (hserves : Serves host responders m) (hs : s.Configured m) {ev : MeshEvent}
    {req : InferenceRequest} (hreq : carried ev.b = .ok (.request req))
    (hcrash : (s.after ev .delivered).app.crashed = false) {next : MeshEvent}
    (hnext : next ∈ s.caused ev .delivered) : ∃ captured, responders ev.nodeID = some captured ∧
      next.b.primary.destination = ev.b.primary.source ∧
      carried next.b = .ok (.response
        ((s.app.computeNodes captured.node).runInference host.quote req)) := by
  rw [Run.app_after_delivered, answer_eq hserves hs] at hcrash
  obtain ⟨ob, hob, hreply⟩ := List.mem_filterMap.mp hnext
  rw [answer_eq hserves hs] at hob
  cases hcaptured : responders ev.nodeID with
  | none =>
    rw [hcaptured] at hob
    cases hob
  | some captured =>
    rw [hcaptured] at hob hcrash
    dsimp only [Option.elim] at hob hcrash
    obtain ⟨enc, henc, hhandle⟩ := (s.app.computeNodes captured.node).handle_request host.quote hreq
    unfold Responder at hob hcrash
    rw [hhandle] at hob hcrash
    split_ifs at hob hcrash with hlen
    · rw [List.mem_singleton] at hob
      subst hob
      simp only [MeshEvent.reply, Option.map_some, Option.some.injEq] at hreply
      subst hreply
      exact ⟨captured, rfl, rfl, decode_encode henc hlen⟩

/-- The two turns of an exchange: the request was injected and is delivered in `asked`, after the
turns `before`, to a compute node in the state that the payloads up to then have made of it; the
response arrives in `told` where the request came from. -/
structure Exchange (host : Host) (responders : GoMap GoString Captured) (m : Mesh AppState)
    (app : AppState) (before : List Turn) (asked told : Turn) (captured : Captured)
    (req : InferenceRequest) (resp : InferenceResponse) : Prop where
  delivered : asked.fate = .delivered
  responder : responders asked.event.nodeID = some captured
  request : carried asked.event.b = .ok (.request req)
  injected : ∃ inj ∈ m.pending, inj.b = asked.event.b
  returned : told.event.nodeID = asked.event.b.primary.source.nodeID
  response : resp = ((app.computeNodes captured.node).after host.quote
    (received responders captured.node before)).runInference host.quote req

/-- Nobody injects a response; what is injected may be anything else. -/
def Unforged (m : Mesh AppState) : Prop :=
  ∀ inj ∈ m.pending, ∀ resp, carried inj.b ≠ .ok (.response resp)

theorem Unforged.of_start {app : AppState} (h : Unforged m) :
    ∀ ev ∈ (Run.start m app).queue, ∀ resp, carried ev.b ≠ .ok (.response resp) := by
  intro ev hev
  obtain ⟨inj, hinj, rfl⟩ := List.mem_map.mp ((Run.start_queue_perm m app).mem_iff.mp hev)
  exact h inj hinj

/-- A response that is delivered was made in an earlier turn, for a request that was injected. -/
theorem exists_exchange {app : AppState} (hm : m.Fresh) (hserves : Serves host responders m)
    (hunforged : Unforged m) (h : Run.Runs fuel (Run.start m app) trace s)
    (hcrash : s.app.crashed = false) {before later : List Turn} {told : Turn}
    {resp : InferenceResponse} (hsplit : trace = before ++ told :: later)
    (hdelivered : told.fate = .delivered) (hresp : carried told.event.b = .ok (.response resp)) :
    ∃ first asked between captured req, before = first ++ asked :: between ∧
      Exchange host responders m app first asked told captured req resp := by
  have hconfigured := Run.configured_start hm app
  obtain ⟨hanswers, -⟩ := answers_of_runs hserves h hconfigured hcrash
  have hfollows := (h.configured hconfigured).2
  have hdestination := h.destination_eq hconfigured
  have hrequest := exists_injection_of_request h hfollows hanswers
  obtain ⟨first, asked, between, rfl, hnew, next, hnext, hsame⟩ :=
    h.exists_introduced (p := fun b ↦ b = told.event.b)
      (fun ev hev heq ↦ hunforged.of_start ev hev resp (heq ▸ hresp)) hsplit rfl
  subst hsplit
  have hasked : asked ∈ (first ++ asked :: between) ++ told :: later := by simp
  have hinjected : next.injected = true := by
    rcases (hfollows asked hasked).caused_cases hnext with ⟨-, -, -, -, -, -, hb, -⟩ |
      ⟨-, -, -, -, -, -, -, -, hinjected⟩
    · exact absurd (hb.symm.trans hsame) hnew
    · exact hinjected
  obtain ⟨hfate, req, seq, hreq, -⟩ := (hanswers asked hasked).of_injected hnext hinjected
  rw [List.append_assoc, List.cons_append] at h
  obtain ⟨mid, hfirst, hrest⟩ := h.of_append
  obtain ⟨hmid, -⟩ := hfirst.configured hconfigured
  have hstate := computeNodes_eq hserves hfirst hconfigured
  cases hrest with
  | @cons _ _ ev queue f _ hpop hstep htail =>
    dsimp only at hfate hreq hnext hnew hrequest
    subst hfate
    have halive : (mid.after ev .delivered).app.crashed = false := by
      rw [← Bool.not_eq_true]
      intro hdead
      have hlost := crashed_of_runs hserves htail (hmid.after ev queue .delivered) hdead
      cases hlost.symm.trans hcrash
    obtain ⟨captured, hcaptured, hback, hcarried⟩ := carried_reply hserves hmid hreq halive hnext
    refine ⟨first, _, between, captured, req, rfl, rfl, hcaptured, hreq, ?_, ?_, ?_⟩
    · exact hrequest _ hasked req hreq
    · rw [← hback, hsame]
      exact (hdestination told (by simp) hdelivered).symm
    · rw [hsame, hresp, hstate] at hcarried
      cases hcarried
      rfl

/-! ## At most one response to a request -/

/-- The ID of the request that a bundle carries. -/
def requestID? (b : Bundle) : Option GoString :=
  match carried b with
  | .ok (.request req) => some req.requestID
  | _ => none

/-- The ID of the request to which a bundle carries the response. -/
def responseID? (b : Bundle) : Option GoString :=
  match carried b with
  | .ok (.response resp) => some resp.requestID
  | _ => none

theorem requestID?_of_request {b : Bundle} {req : InferenceRequest}
    (h : carried b = .ok (.request req)) : requestID? b = some req.requestID := by
  rw [requestID?, h]

theorem responseID?_of_response {b : Bundle} {resp : InferenceResponse}
    (h : carried b = .ok (.response resp)) : responseID? b = some resp.requestID := by
  rw [responseID?, h]

theorem exists_response_of_responseID? {b : Bundle} {r : GoString} (h : responseID? b = some r) :
    ∃ resp, carried b = .ok (.response resp) ∧ resp.requestID = r := by
  unfold responseID? at h
  split at h
  · exact ⟨_, ‹_›, Option.some_injective _ h⟩
  · cases h

/-- Replies are responses, and carry no request. -/
theorem Replies.requestID?_eq {b rb : Bundle} {req : InferenceRequest} {seq : UInt64}
    (h : Replies b req seq rb) : requestID? rb = none ∧ responseID? rb = some req.requestID := by
  obtain ⟨resp, hresp, hid, -⟩ := h.response
  rw [requestID?, responseID?_of_response hresp, hresp, hid]
  exact ⟨rfl, rfl⟩

/-- A turn injects one response at most, and only where it delivers the request. -/
theorem Answers.countP_responses_le {turn : Turn} (h : Answers responders turn) (r : GoString)
    (P : EndpointID → Prop) [DecidablePred P] :
    turn.caused.countP (fun ev ↦ ev.injected = true ∧
        (responseID? ev.b = some r ∧ P ev.b.primary.destination)) ≤
      if turn.fate.kind = .delivered ∧
        (requestID? turn.event.b = some r ∧ P turn.event.b.primary.source) then 1 else 0 := by
  by_cases hsome : ∃ ev ∈ turn.caused, ev.injected = true ∧
      (responseID? ev.b = some r ∧ P ev.b.primary.destination)
  · obtain ⟨ev, hev, hinjected, hid, hP⟩ := hsome
    obtain ⟨hdelivered, req, seq, hreq, hrb, -⟩ := h.of_injected hev hinjected
    rw [hrb.requestID?_eq.2] at hid
    rw [hrb.destination] at hP
    rw [if_pos ⟨by rw [hdelivered]; rfl, (requestID?_of_request hreq).trans hid, hP⟩]
    calc
      turn.caused.countP (fun ev ↦ ev.injected = true ∧
          (responseID? ev.b = some r ∧ P ev.b.primary.destination)) ≤
          turn.caused.countP (·.injected) :=
        List.countP_mono_left fun ev _ hp ↦ (of_decide_eq_true hp).1
      _ ≤ 1 := by
        rw [h.countP_caused]
        split_ifs
        · exact le_rfl
        · exact Nat.zero_le 1
  · have hzero : turn.caused.countP (fun ev ↦ ev.injected = true ∧
        (responseID? ev.b = some r ∧ P ev.b.primary.destination)) = 0 := by
      apply List.countP_eq_zero.mpr
      intro ev hev hp
      exact hsome ⟨ev, hev, of_decide_eq_true hp⟩
    rw [hzero]
    exact Nat.zero_le _

/-- The responses with a request ID that are delivered to some nodes are not more than the requests
with that ID that were injected for them. -/
theorem countP_responses_le {app : AppState} (hm : m.Fresh) (hserves : Serves host responders m)
    (hunforged : Unforged m) (h : Run.Runs fuel (Run.start m app) trace s)
    (hcrash : s.app.crashed = false) (r : GoString) (P : EndpointID → Prop) [DecidablePred P] :
    (trace.countP fun turn ↦ turn.fate.kind = .delivered ∧
        (responseID? turn.event.b = some r ∧ P turn.event.b.primary.destination)) ≤
      m.pending.countP fun inj ↦ requestID? inj.b = some r ∧ P inj.b.primary.source := by
  have hconfigured := Run.configured_start hm app
  obtain ⟨hanswers, -⟩ := answers_of_runs hserves h hconfigured hcrash
  have hnone : (Run.start m app).queue.countP (fun ev ↦ responseID? ev.b = some r ∧
      P ev.b.primary.destination) = 0 := by
    apply List.countP_eq_zero.mpr
    intro ev hev hp
    obtain ⟨resp, hresp, -⟩ := exists_response_of_responseID? (of_decide_eq_true hp).1
    exact hunforged.of_start ev hev resp hresp
  have hreplies : (trace.flatMap Turn.caused).countP (fun ev ↦ ev.injected = true ∧
      (requestID? ev.b = some r ∧ P ev.b.primary.source)) = 0 := by
    apply List.countP_eq_zero.mpr
    intro ev hev hp
    obtain ⟨turn, hturn, hcaused⟩ := List.mem_flatMap.mp hev
    obtain ⟨hinjected, hid, -⟩ := of_decide_eq_true hp
    obtain ⟨-, req, seq, -, hrb, -⟩ := (hanswers turn hturn).of_injected hcaused hinjected
    rw [hrb.requestID?_eq.1] at hid
    cases hid
  have hturns : (trace.flatMap Turn.caused).countP (fun ev ↦ ev.injected = true ∧
      (responseID? ev.b = some r ∧ P ev.b.primary.destination)) ≤
        trace.countP fun turn ↦ turn.fate.kind = .delivered ∧
          (requestID? turn.event.b = some r ∧ P turn.event.b.primary.source) := by
    apply countP_flatMap_le
    intro turn hturn
    convert (hanswers turn hturn).countP_responses_le r P using 2
    rw [decide_eq_true_iff]
  calc
    (trace.countP fun turn ↦ turn.fate.kind = .delivered ∧
        (responseID? turn.event.b = some r ∧ P turn.event.b.primary.destination)) ≤
        (trace.flatMap Turn.caused).countP fun ev ↦ ev.injected = true ∧
          (responseID? ev.b = some r ∧ P ev.b.primary.destination) := by
      have hle := h.countP_delivered_le hconfigured fun b ↦ responseID? b = some r ∧
        P b.primary.destination
      rwa [hnone, Nat.zero_add] at hle
    _ ≤ _ := hturns
    _ ≤ (Run.start m app).queue.countP fun ev ↦ requestID? ev.b = some r ∧ P ev.b.primary.source := by
      have hle := h.countP_delivered_le hconfigured fun b ↦ requestID? b = some r ∧
        P b.primary.source
      rwa [hreplies, Nat.add_zero] at hle
    _ = m.pending.countP fun inj ↦ requestID? inj.b = some r ∧ P inj.b.primary.source := by
      rw [(Run.start_queue_perm m app).countP_eq, List.countP_map]
      rfl

/-- The ID of the request that a delivered payload answers. -/
def answeredID? (d : Delivery) : Option GoString :=
  match ParseResponsePayload (d.payload.getD []) with
  | .ok resp => some resp.requestID
  | _ => none

theorem answeredID?_eq {d : Delivery} {b : Bundle} (h : d.payload = b.payload) :
    answeredID? d = responseID? b := by
  unfold answeredID? responseID? ParseResponsePayload carried
  rw [h]
  cases decode (b.payload.getD []) with
  | ok msg => cases msg <;> rfl
  | error err => rfl
  | panic reason => rfl
  | outOfFuel => rfl

/-- The deliveries of a run at a node are its turns there that deliver. -/
theorem countP_deliveries_eq (hs : s.Configured m) (h : Run.Runs fuel s trace s')
    (hempty : s.report.deliveries = []) (node r : GoString) :
    s'.report.deliveries.countP (fun d ↦ d.node = node ∧ answeredID? d = some r) =
      trace.countP fun turn ↦ turn.fate.kind = .delivered ∧ (responseID? turn.event.b = some r ∧
        turn.event.b.primary.destination.nodeID = node) := by
  rw [h.deliveries_eq, hempty, List.nil_append]
  apply countP_flatMap_of_forall
  intro turn hturn
  cases hf : turn.fate with
  | delivered =>
    have hdestination := h.destination_eq hs turn hturn hf
    rw [Turn.deliveries, hf]
    change List.countP _ [Delivery.mk turn.event.b.id turn.event.nodeID turn.event.time
      turn.event.b.payload] = _
    rw [List.countP_singleton, answeredID?_eq rfl, hdestination]
    simp [Fate.kind, and_comm]
  | _ =>
    rw [Turn.deliveries, hf]
    rfl

/-- The ID under which a call requests an inference. -/
def Client.Call.requestID? : Client.Call → Option GoString
  | .upload _ _ => none
  | .request req _ => some req.requestID

theorem requestID?_made {clock : UInt64 → Time} {c : Client} {seq : UInt64} {x : Client.Call}
    (hlen : (c.made clock seq x).image.length < 2 ^ 63) :
    requestID? (c.made clock seq x) = x.requestID? := by
  unfold requestID?
  rw [Client.carried_made clock hlen]
  cases x <;> rfl

theorem countP_bundles {clock : UInt64 → Time} (c : Client) (seq : UInt64)
    (calls : List Client.Call) (r : GoString)
    (hlen : ∀ b ∈ c.bundles clock seq calls, b.image.length < 2 ^ 63) :
    (c.bundles clock seq calls).countP (fun b ↦ requestID? b = some r) =
      calls.countP fun x ↦ x.requestID? = some r := by
  induction calls generalizing seq with
  | nil => rfl
  | cons x calls ih =>
    obtain ⟨hfirst, hrest⟩ := List.forall_mem_cons.mp hlen
    unfold Client.bundles
    rw [List.countP_cons, List.countP_cons, ih _ hrest, requestID?_made hfirst]

theorem Client.exists_call_of_mem_bundles {clock : UInt64 → Time} {c : Client} {seq : UInt64}
    {calls : List Client.Call} {b : Bundle} (h : b ∈ c.bundles clock seq calls) :
    ∃ x ∈ calls, ∃ seq', b = c.made clock seq' x := by
  induction calls generalizing seq with
  | nil => cases h
  | cons x calls ih =>
    rcases List.mem_cons.mp h with rfl | hrest
    · exact ⟨x, List.mem_cons_self, _, rfl⟩
    · obtain ⟨x', hx', hb⟩ := ih hrest
      exact ⟨x', List.mem_cons_of_mem x hx', hb⟩

/-- The bundles injected for the node of a client are those of one of its sessions. -/
def InjectsSession (clock : UInt64 → Time) (c : Client) (calls : List Client.Call)
    (m : Mesh AppState) : Prop :=
  (c.session clock calls).1 = (m.pending.filter fun inj ↦
    inj.b.primary.source.nodeID = c.source.nodeID).map fun inj ↦ .ok inj.b

/-- As long as nobody injects a response, no more responses to a request come back to the ground than
the client has sent requests under this ID, and each is what the compute node inferred when one of
them was delivered to it. -/
theorem client_exchanges {host : Host} {app : AppState} (hm : m.Fresh)
    (hserves : Serves host responders m) (hunforged : Unforged m) {clock : UInt64 → Time} {c : Client}
    {calls : List Client.Call} (hsession : InjectsSession clock c calls m)
    (hfits : ∀ inj ∈ m.pending, inj.b.image.length < 2 ^ 63) (h : m.run fuel app = some s)
    (hcrash : s.app.crashed = false) :
    (∀ r, s.report.deliveries.countP (fun d ↦ d.node = c.source.nodeID ∧ answeredID? d = some r) ≤
      calls.countP fun x ↦ x.requestID? = some r) ∧
    ∀ before told later resp, m.turns fuel app = before ++ told :: later →
      told.fate = .delivered → told.event.nodeID = c.source.nodeID →
      ParseResponse told.event.b = .ok resp →
      ∃ first asked between captured req, before = first ++ asked :: between ∧
        Exchange host responders m app first asked told captured req resp ∧
        ∃ createdAt, Client.Call.request req createdAt ∈ calls := by
  have hruns := Mesh.runs_turns h
  have hconfigured := Run.configured_start hm app
  have hbundles : c.bundles clock c.seq calls = (m.pending.filter fun inj ↦
      inj.b.primary.source.nodeID = c.source.nodeID).map (·.b) := by
    have heq := hsession
    rw [InjectsSession, Client.session_eq] at heq
    apply List.map_injective_iff.mpr (fun b b' ↦ Except.ok.inj)
    exact heq.trans List.map_map.symm
  have hlen : ∀ b ∈ c.bundles clock c.seq calls, b.image.length < 2 ^ 63 := by
    rw [hbundles]
    intro b hb
    obtain ⟨inj, hinj, rfl⟩ := List.mem_map.mp hb
    exact hfits inj (List.mem_of_mem_filter hinj)
  constructor
  · intro r
    rw [countP_deliveries_eq hconfigured hruns rfl]
    calc
      (m.turns fuel app).countP (fun turn ↦ turn.fate.kind = .delivered ∧
          (responseID? turn.event.b = some r ∧
            turn.event.b.primary.destination.nodeID = c.source.nodeID)) ≤
          m.pending.countP fun inj ↦ requestID? inj.b = some r ∧
            inj.b.primary.source.nodeID = c.source.nodeID :=
        countP_responses_le hm hserves hunforged hruns hcrash r fun e ↦ e.nodeID = c.source.nodeID
      _ = (c.bundles clock c.seq calls).countP fun b ↦ requestID? b = some r := by
        rw [hbundles, List.countP_map, List.countP_filter]
        apply List.countP_congr
        intro inj _
        simp
      _ = calls.countP fun x ↦ x.requestID? = some r := countP_bundles c c.seq calls r hlen
  · intro before told later resp hsplit hdelivered hnode hresp
    rw [ParseResponse, parseResponsePayload_eq_ok] at hresp
    obtain ⟨first, asked, between, captured, req, hbefore, hexchange⟩ :=
      exists_exchange hm hserves hunforged hruns hcrash hsplit hdelivered hresp
    refine ⟨first, asked, between, captured, req, hbefore, hexchange, ?_⟩
    obtain ⟨inj, hinj, hb⟩ := hexchange.injected
    have hmem : asked.event.b ∈ c.bundles clock c.seq calls := by
      rw [hbundles, ← hb]
      apply List.mem_map_of_mem
      rw [List.mem_filter, decide_eq_true_iff, hb, ← hexchange.returned]
      exact ⟨hinj, hnode⟩
    have hcarried := hexchange.request
    obtain ⟨x, hx, seq, hmade⟩ := Client.exists_call_of_mem_bundles hmem
    rw [hmade, Client.carried_made clock (hmade ▸ hlen _ hmem)] at hcarried
    cases x with
    | upload up createdAt => cases hcarried
    | request req' createdAt =>
      cases hcarried
      exact ⟨createdAt, hx⟩

/-- The calls of the ground station reach a satellite that has captured the scene. -/
def exchangeMesh : Mesh AppState :=
  let base : Time := 1767225600 * second
  let plan := Cgr.ContactPlan.newContactPlan
    [⟨lit "dtn://ground-1", lit "dtn://sat-eo", base, base + 1800 * second, 1000000, 0, 1⟩,
      ⟨lit "dtn://sat-eo", lit "dtn://ground-1", base + 3000 * second, base + 3600 * second,
        1000000, 0, 1⟩]
  (((Client.groundClient.bundles (fun _ ↦ 0) 0 Client.groundCalls).foldl
    (fun m b ↦ m.inject (lit "dtn://ground-1") b (FromDTNTime b.primary.creationTime.time)))
    ((Mesh.new (some plan)).setHandler (lit "dtn://sat-eo") (Responder missionHost ⟨0, 0, 0⟩)))

def exchangeApp : AppState :=
  ⟨fun _ ↦ (NewComputeNode SceneStats.threePixelsMoments SceneStats.threePixelsFixed).captureScene
    (lit "scene-42") SceneStats.threePixels, fun _ ↦ 0, false⟩

def satellite : GoMap GoString Captured := GoMap.empty.insert (lit "dtn://sat-eo") ⟨0, 0, 0⟩

theorem fresh_exchangeMesh : exchangeMesh.Fresh :=
  .inject _ _ _ (.inject _ _ _ (.setHandler _ _ (.new _)))

theorem serves_exchangeMesh : Serves missionHost satellite exchangeMesh := by
  intro node
  unfold exchangeMesh satellite Client.groundCalls Client.bundles
  simp only [Client.bundles, List.foldl_cons, List.foldl_nil, Mesh.inject, Mesh.setHandler,
    Mesh.addNode, Mesh.setNode, Mesh.new, GoMap.insert_apply, GoMap.empty_apply]
  split_ifs <;> rfl

theorem unforged_exchangeMesh : Unforged exchangeMesh := by
  have hnone : ∀ inj ∈ exchangeMesh.pending, responseID? inj.b = none := by decide +kernel
  intro inj hinj resp hresp
  cases (hnone inj hinj).symm.trans (responseID?_of_response hresp)

theorem client_exchanges_exchangeMesh : ∃ s, exchangeMesh.run 10 exchangeApp = some s ∧
    s.report.deliveries.countP (fun d ↦ d.node = Client.groundClient.source.nodeID ∧
      answeredID? d = some (lit "req-1")) = 1 ∧
    ∀ r, s.report.deliveries.countP (fun d ↦ d.node = Client.groundClient.source.nodeID ∧
      answeredID? d = some r) ≤ Client.groundCalls.countP fun x ↦ x.requestID? = some r := by
  have hrun : (exchangeMesh.run 10 exchangeApp).map (fun s ↦ (s.app.crashed,
      s.report.deliveries.countP fun d ↦ d.node = Client.groundClient.source.nodeID ∧
        answeredID? d = some (lit "req-1"))) = some (false, 1) := by
    decide +kernel
  obtain ⟨s, hs, hend⟩ := Option.map_eq_some_iff.mp hrun
  obtain ⟨hcrash, hcount⟩ := Prod.mk.inj hend
  have hsession : InjectsSession (fun _ ↦ 0) Client.groundClient Client.groundCalls
      exchangeMesh := by
    unfold InjectsSession
    decide +kernel
  exact ⟨s, hs, hcount, (client_exchanges fresh_exchangeMesh serves_exchangeMesh
    unforged_exchangeMesh hsession (by decide +kernel) hs hcrash).1⟩

/-! ## Successes need uploads -/

/-- What is delivered and is no response was injected. -/
theorem exists_injection_of_ne_response {app : AppState}
    (h : Run.Runs fuel (Run.start m app) trace s) (hfollows : ∀ turn ∈ trace, turn.Follows m)
    (hanswers : ∀ turn ∈ trace, Answers responders turn) :
    ∀ turn ∈ trace, (∀ resp, carried turn.event.b ≠ .ok (.response resp)) →
      ∃ inj ∈ m.pending, inj.b = turn.event.b := by
  have horigin := (h.forall_event (E := fun ev ↦ (∃ inj ∈ m.pending, inj.b = ev.b) ∨
    ∃ resp, carried ev.b = .ok (.response resp)) (fun ev hev ↦ ?_) ?_).1
  · intro turn hturn hne
    apply (horigin turn hturn).resolve_right
    intro ⟨resp, hresp⟩
    exact hne resp hresp
  · obtain ⟨inj, hinj, rfl⟩ := List.mem_map.mp ((Run.start_queue_perm m app).mem_iff.mp hev)
    exact .inl ⟨inj, hinj, rfl⟩
  · intro turn hturn horigin next hnext
    rcases (hfollows turn hturn).caused_cases hnext with ⟨-, -, -, -, -, -, hsame, -⟩ |
      ⟨-, -, -, -, -, -, -, -, hinjected⟩
    · rwa [hsame]
    · obtain ⟨-, req, seq, -, hrb, -⟩ := (hanswers turn hturn).of_injected hnext hinjected
      obtain ⟨resp, hresp, -⟩ := hrb.response
      exact .inr ⟨resp, hresp⟩

/-- A payload delivered to a compute node was delivered in a turn. -/
theorem exists_turn_of_received {address : ℕ} {before later : List (List UInt8)} {payload : List UInt8}
    (h : received responders address trace = before ++ payload :: later) :
    ∃ first turn rest, trace = first ++ turn :: rest ∧ turn.fate = .delivered ∧
      (responders turn.event.nodeID).any (·.node = address) = true ∧
      turn.event.b.payload.getD [] = payload ∧ received responders address rest = later := by
  obtain ⟨l, l', hfilter, rfl, hl⟩ := List.map_eq_append_iff.mp h
  obtain ⟨turn, l'', rfl, rfl, rfl⟩ := List.map_eq_cons_iff.mp hl
  obtain ⟨first, mid, rfl, -, hmid⟩ := List.filter_eq_append_iff.mp hfilter
  obtain ⟨skipped, rest, rfl, -, hturn, hrest⟩ := List.filter_eq_cons_iff.mp hmid
  obtain ⟨hdelivered, hnode⟩ := of_decide_eq_true hturn
  exact ⟨first ++ skipped, turn, rest, (List.append_assoc _ _ _).symm, hdelivered, hnode, rfl,
    congrArg _ hrest⟩

/-- The response is what the model of an upload makes of a scene that the node has captured. The
upload was injected, and is the last one of its ID to be delivered there before the request. -/
structure Succeeds (responders : GoMap GoString Captured) (m : Mesh AppState) (c : ComputeNode)
    (address : ℕ) (uploaded : Turn) (between : List Turn) (req : InferenceRequest)
    (resp : InferenceResponse) : Prop where
  delivered : uploaded.fate = .delivered
  node : (responders uploaded.event.nodeID).any (·.node = address) = true
  injected : ∃ inj ∈ m.pending, inj.b = uploaded.event.b
  infers : ∃ model scene, ComputeNode.Deploys c.factories req.modelID
      (uploaded.event.b.payload.getD []) model ∧
    c.scenes req.inputID = some scene ∧ model scene = .ok (resp.result, resp.summary) ∧
    resp.inputBytes = Cbor.lenUint64 scene ∧ resp.outputBytes = Cbor.lenUint64 resp.result
  last : ∀ payload ∈ received responders address between, ∀ model,
    ¬ComputeNode.Deploys c.factories req.modelID payload model

/-- Where no model was deployed at the start and nobody injects a response, a success that arrives on the
ground goes back to an upload that was delivered before the request. -/
theorem run_success {host : Host} {app : AppState} (hm : m.Fresh)
    (hserves : Serves host responders m) (hunforged : Unforged m)
    (hbare : ∀ address id, (app.computeNodes address).models id = none)
    (h : m.run fuel app = some s) (hcrash : s.app.crashed = false) {before later : List Turn}
    {told : Turn} {resp : InferenceResponse} (hsplit : m.turns fuel app = before ++ told :: later)
    (hdelivered : told.fate = .delivered) (hresp : ParseResponse told.event.b = .ok resp)
    (hok : resp.ok = true) :
    ∃ first uploaded between asked rest captured req,
      before = (first ++ uploaded :: between) ++ asked :: rest ∧
      Exchange host responders m app (first ++ uploaded :: between) asked told captured req resp ∧
      Succeeds responders m (app.computeNodes captured.node) captured.node uploaded between req
        resp := by
  have hruns := Mesh.runs_turns h
  have hconfigured := Run.configured_start hm app
  obtain ⟨hanswers, -⟩ := answers_of_runs hserves hruns hconfigured hcrash
  have hinjected := exists_injection_of_ne_response hruns (hruns.configured hconfigured).2 hanswers
  rw [ParseResponse, parseResponsePayload_eq_ok] at hresp
  obtain ⟨first, asked, rest, captured, req, rfl, hexchange⟩ :=
    exists_exchange hm hserves hunforged hruns hcrash hsplit hdelivered hresp
  have hresponse := hexchange.response
  rw [hresponse] at hok
  obtain ⟨model, scene, hmodel, hscene, hinfer, hin, hout⟩ := ComputeNode.runInference_ok _ hok
  rw [← hresponse] at hinfer hin hout
  obtain ⟨-, hscenes⟩ := (app.computeNodes captured.node).after_frame host.quote
    (received responders captured.node first)
  rw [hscenes] at hscene
  rcases ComputeNode.models_after _ hmodel with hstart | ⟨earlier, payload, later', hsplit', hdeploys,
    hlast⟩
  · cases (hbare _ _).symm.trans hstart
  · obtain ⟨first, uploaded, between, rfl, hfate, hnode, rfl, rfl⟩ := exists_turn_of_received hsplit'
    refine ⟨first, uploaded, between, asked, rest, captured, req, rfl, hexchange, hfate, hnode, ?_,
      ⟨model, scene, hdeploys, hscene, hinfer, hin, hout⟩, hlast⟩
    obtain ⟨up, -, hup, -⟩ := hdeploys
    refine hinjected uploaded (by rw [hsplit]; simp) fun resp' hresp' ↦ ?_
    cases hup.symm.trans hresp'

end Runs

/-- The response to the request. -/
def exchangeResponse : InferenceResponse where
  requestID := lit "req-1"
  modelID := lit "eo-stats"
  ok := true
  result := [0x87, 3, 10, 0x18, 0xff, 0xfb, 0x40, 0x63, 0x60, 0, 0, 0, 0, 0, 0xfb, 0x40, 0x5a, 0x3d, 0x75,
    0xb7, 0xe6, 0xdd, 0xb0, 2, 0x90, 1] ++ List.replicate 11 0 ++ [1, 0, 0, 1]
  summary := lit "scene-stats: n=3 min=10 max=255 mean=155.0 std=105.0 hot(>=200)=2"
  inputBytes := 3
  outputBytes := 41

/-- The last of six turns brings the response down. -/
theorem exchangeMesh_told : ∃ s told, exchangeMesh.run 10 exchangeApp = some s ∧
    s.app.crashed = false ∧ (exchangeMesh.turns 10 exchangeApp)[5]? = some told ∧
    exchangeMesh.turns 10 exchangeApp = (exchangeMesh.turns 10 exchangeApp).take 5 ++
      told :: (exchangeMesh.turns 10 exchangeApp).drop 6 ∧
    told.fate = .delivered ∧ ParseResponse told.event.b = .ok exchangeResponse := by
  have hturn : ((exchangeMesh.turns 10 exchangeApp)[5]?).map (fun told ↦ (told.fate,
      ParseResponse told.event.b)) = some (.delivered, .ok exchangeResponse) := by
    decide +kernel
  have hrun : (exchangeMesh.run 10 exchangeApp).map (·.app.crashed) = some false := by
    decide +kernel
  obtain ⟨s, hs, hcrash⟩ := Option.map_eq_some_iff.mp hrun
  obtain ⟨told, htold, hend⟩ := Option.map_eq_some_iff.mp hturn
  obtain ⟨hdelivered, hresp⟩ := Prod.mk.inj hend
  refine ⟨s, told, hs, hcrash, htold, ?_, hdelivered, hresp⟩
  obtain ⟨hlt, rfl⟩ := List.getElem?_eq_some_iff.mp htold
  rw [List.getElem_cons_drop, List.take_append_drop]

theorem run_success_exchangeMesh : ∃ told first uploaded between asked rest captured req,
    (exchangeMesh.turns 10 exchangeApp)[5]? = some told ∧
    ParseResponse told.event.b = .ok exchangeResponse ∧
    (exchangeMesh.turns 10 exchangeApp).take 5 =
      (first ++ uploaded :: between) ++ asked :: rest ∧
    Exchange missionHost satellite exchangeMesh exchangeApp (first ++ uploaded :: between) asked told
      captured req exchangeResponse ∧
    Succeeds satellite exchangeMesh (exchangeApp.computeNodes captured.node) captured.node uploaded
      between req exchangeResponse := by
  obtain ⟨s, told, hs, hcrash, htold, hsplit, hdelivered, hresp⟩ := exchangeMesh_told
  obtain ⟨first, uploaded, between, asked, rest, captured, req, hbefore, hexchange, hsucceeds⟩ :=
    run_success fresh_exchangeMesh serves_exchangeMesh unforged_exchangeMesh (fun _ _ ↦ rfl) hs
      hcrash hsplit hdelivered hresp rfl
  exact ⟨told, first, uploaded, between, asked, rest, captured, req, htold, hresp, hbefore,
    hexchange, hsucceeds⟩

end Zenith.Bridge
