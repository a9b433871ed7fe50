import Zenith.Bridge.Codec
import Zenith.Data.Purge

/-!
# Compute nodes

A node runs the models that uploads deploy on the scenes that its sensors captured. Models and
factories are pure functions; what a model computes is left open.
-/

namespace Zenith.Bridge

open Go Cbor

/-- `Infer` of a model: the result with its summary, or the text of the error. -/
abbrev Model := List UInt8 → Except GoString (List UInt8 × GoString)

/-- A factory fails with the text of its error. -/
abbrev ModelFactory := GoString → List UInt8 → Except GoString Model

structure ComputeNode where
  factories : GoMap GoString ModelFactory
  models : GoMap GoString Model
  scenes : GoMap GoString (List UInt8)

/-- The errors of `Handle`. -/
inductive HandleError
  | message (err : MessageError)
  | unknownKind (kind : GoString)
  | deploy (modelID err : GoString)
  | encode (err : EncodeError)
  | cannotHandle (messageType : UInt64)
  deriving DecidableEq, Repr

/-- The format string of an error; its arguments are those of the constructor. -/
def HandleError.format : HandleError → String
  | message err => err.format
  | unknownKind _ => "spaceaibridge: unknown model kind %q"
  | deploy _ _ => "spaceaibridge: deploy %q: %w"
  | encode _ => "cbor: unsupported value: %T"
  | cannotHandle _ => "spaceaibridge: compute node cannot handle message type %d"

namespace ComputeNode

/-- `NewComputeNode`, with the model kinds that it registers. -/
def newComputeNode (builtinFactories : GoMap GoString ModelFactory) : ComputeNode :=
  ⟨builtinFactories, GoMap.empty, GoMap.empty⟩

def registerFactory (c : ComputeNode) (kind : GoString) (f : ModelFactory) : ComputeNode :=
  { c with factories := c.factories.insert kind f }

def captureScene (c : ComputeNode) (inputID : GoString) (data : List UInt8) : ComputeNode :=
  { c with scenes := c.scenes.insert inputID data }

def deploy (c : ComputeNode) (up : ModelUpload) : Except HandleError Unit × ComputeNode :=
  match c.factories up.kind with
  | none => (.error (.unknownKind up.kind), c)
  | some factory =>
    match factory up.modelID up.params with
    | .error err => (.error (.deploy up.modelID err), c)
    | .ok model => (.ok (), { c with models := c.models.insert up.modelID model })

variable (quote : GoString → GoString)

/-- `RunInference`; `quote` is what `%q` prints. -/
def runInference (c : ComputeNode) (req : InferenceRequest) : InferenceResponse :=
  let resp : InferenceResponse :=
    { requestID := req.requestID, modelID := req.modelID, ok := false, result := [], summary := [],
      inputBytes := 0, outputBytes := 0 }
  match c.models req.modelID with
  | none => { resp with summary := lit "model " ++ quote req.modelID ++ lit " not deployed" }
  | some model =>
    match c.scenes req.inputID with
    | none =>
      { resp with summary := lit "scene " ++ quote req.inputID ++ lit " not available on-orbit" }
    | some scene =>
      match model scene with
      | .error err => { resp with summary := lit "inference failed: " ++ err }
      | .ok (result, summary) =>
        { resp with
          ok := true
          result := result
          summary := summary
          inputBytes := lenUint64 scene
          outputBytes := lenUint64 result }

/-- `Handle`; there is no reply where `hasReply` is false. -/
def handle (c : ComputeNode) (payload : List UInt8) :
    Outcome HandleError (Option (List UInt8)) × ComputeNode :=
  match decode payload with
  | .error err => (.error (.message err), c)
  | .panic reason => (.panic reason, c)
  | .outOfFuel => (.outOfFuel, c)
  | .ok (.upload m) =>
    match c.deploy m with
    | (.error err, c) => (.error err, c)
    | (.ok (), c) => (.ok none, c)
  | .ok (.request m) =>
    match encode (.response (c.runInference quote m)) with
    | .error err => (.error (.encode err), c)
    | .ok enc =>
      -- `append` makes no longer slice
      if enc.length < 2 ^ 63 then (.ok (some enc), c) else (.panic .sliceTooLong, c)
  | .ok msg => (.error (.cannotHandle msg.messageType), c)

/-- Whatever comes of a request, the response is to it. -/
theorem runInference_ids (c : ComputeNode) (req : InferenceRequest) :
    (c.runInference quote req).requestID = req.requestID ∧
      (c.runInference quote req).modelID = req.modelID := by
  unfold runInference
  dsimp only
  cases c.models req.modelID with
  | none => exact ⟨rfl, rfl⟩
  | some model =>
    cases c.scenes req.inputID with
    | none => exact ⟨rfl, rfl⟩
    | some scene =>
      dsimp only
      cases model scene with
      | error err => exact ⟨rfl, rfl⟩
      | ok result => exact ⟨rfl, rfl⟩

/-- A request is answered with the encoded response, unless this is longer than a slice can be. -/
theorem handle_request (c : ComputeNode) {payload : List UInt8} {req : InferenceRequest}
    (h : decode payload = .ok (.request req)) :
    ∃ enc, encode (.response (c.runInference quote req)) = .ok enc ∧
      c.handle quote payload =
        if enc.length < 2 ^ 63 then (.ok (some enc), c) else (.panic .sliceTooLong, c) := by
  refine ⟨_, encode_eq _, ?_⟩
  unfold handle
  rw [h]
  dsimp only
  rw [encode_eq]

/-- Only requests are answered. -/
theorem handle_ne_reply (c : ComputeNode) {payload : List UInt8}
    (h : ∀ req, decode payload ≠ .ok (.request req)) (reply : List UInt8) :
    (c.handle quote payload).1 ≠ .ok (some reply) := by
  unfold handle
  cases hmsg : decode payload with
  | error err => simp
  | panic reason => simp
  | outOfFuel => simp
  | ok msg =>
    cases msg with
    | upload m =>
      dsimp only
      rcases c.deploy m with ⟨_ | _, c'⟩
      · simp
      · simp
    | request req => exact absurd hmsg (h req)
    | response m => simp

/-! ## Calls that leave no trace -/

/-- A call to a node from outside: its own sensors, or a message. -/
inductive Call
  | captureScene (inputID : GoString) (data : List UInt8)
  | handle (payload : List UInt8)

/-- What a call returns. A panic of `Handle` is a result: its caller may recover. -/
inductive CallResult
  | captured
  | handled (result : Outcome HandleError (Option (List UInt8)))

def call (c : ComputeNode) : Call → CallResult × ComputeNode
  | .captureScene inputID data => (.captured, c.captureScene inputID data)
  | .handle payload => (.handled (c.handle quote payload).1, (c.handle quote payload).2)

/-- A message that was refused, or a request for inference. -/
def Traceless : Call → CallResult → Prop
  | .handle payload, .handled result =>
    (∃ err, result = .error err) ∨ ∃ req, decode payload = .ok (.request req)
  | _, _ => False

/-- The cases of `Deploy`: an error and the node as it was, or one model in its place. -/
theorem deploy_cases (c : ComputeNode) (up : ModelUpload) :
    (∃ err, c.deploy up = (.error err, c)) ∨
      ∃ factory model, c.factories up.kind = some factory ∧
        factory up.modelID up.params = .ok model ∧
        c.deploy up = (.ok (), { c with models := c.models.insert up.modelID model }) := by
  unfold deploy
  cases hkind : c.factories up.kind with
  | none => exact .inl ⟨_, rfl⟩
  | some factory =>
    dsimp only
    cases hmodel : factory up.modelID up.params with
    | error err => exact .inl ⟨_, rfl⟩
    | ok model => exact .inr ⟨factory, model, rfl, hmodel, rfl⟩

theorem handle_upload (c : ComputeNode) {payload : List UInt8} {up : ModelUpload}
    (h : decode payload = .ok (.upload up)) :
    (∃ err, c.handle quote payload = (.error err, c)) ∨
      ∃ factory model, c.factories up.kind = some factory ∧
        factory up.modelID up.params = .ok model ∧
        c.handle quote payload =
          (.ok none, { c with models := c.models.insert up.modelID model }) := by
  unfold handle
  rw [h]
  dsimp only
  rcases c.deploy_cases up with ⟨err, hdeploy⟩ | ⟨factory, model, hkind, hmodel, hdeploy⟩
  · rw [hdeploy]
    exact .inl ⟨err, rfl⟩
  · rw [hdeploy]
    exact .inr ⟨factory, model, hkind, hmodel, rfl⟩

/-- Only an upload changes the node. -/
theorem handle_of_ne_upload (c : ComputeNode) {payload : List UInt8}
    (h : ∀ up, decode payload ≠ .ok (.upload up)) : (c.handle quote payload).2 = c := by
  cases hmsg : decode payload with
  | error err => rw [handle, hmsg]
  | panic reason => rw [handle, hmsg]
  | outOfFuel => rw [handle, hmsg]
  | ok msg =>
    cases msg with
    | upload up => exact absurd hmsg (h up)
    | request req =>
      obtain ⟨enc, -, hhandle⟩ := c.handle_request quote hmsg
      rw [hhandle]
      split_ifs
      · rfl
      · rfl
    | response resp => rw [handle, hmsg]

theorem call_of_traceless (c : ComputeNode) (x : Call) (h : Traceless x (c.call quote x).1) :
    (c.call quote x).2 = c := by
  cases x with
  | captureScene inputID data => exact absurd h id
  | handle payload =>
    by_cases hupload : ∃ up, decode payload = .ok (.upload up)
    · obtain ⟨up, hmsg⟩ := hupload
      rcases c.handle_upload quote hmsg with ⟨err, hhandle⟩ | ⟨factory, model, -, -, hhandle⟩
      · exact congrArg Prod.snd hhandle
      · rcases h with ⟨err, herror⟩ | ⟨req, hreq⟩
        · rw [hhandle] at herror
          cases herror
        · rw [hmsg] at hreq
          cases hreq
    · exact c.handle_of_ne_upload quote fun up hmsg ↦ hupload ⟨up, hmsg⟩

/-- Refused messages and requests may be struck out of a history in any number: the results of all
other calls and the node at the end are the same. An upload that succeeds puts one model in place. -/
theorem calls_leave_no_trace (c : ComputeNode) (calls : List Call) (mask : List Bool)
    (hmask : ∀ (i : ℕ) (x : Call) (result : CallResult), mask[i]? = some false →
      calls[i]? = some x → (Purge.run (call quote) c calls).1[i]? = some result →
      Traceless x result) :
    Purge.run (call quote) c (Purge.kept mask calls) =
        (Purge.kept mask (Purge.run (call quote) c calls).1, (Purge.run (call quote) c calls).2) ∧
      ∀ (before after : ComputeNode) (payload : List UInt8) (up : ModelUpload),
        decode payload = .ok (.upload up) → before.handle quote payload = (.ok none, after) →
          after.factories = before.factories ∧ after.scenes = before.scenes ∧
            (∀ id, id ≠ up.modelID → after.models id = before.models id) ∧
            ∃ factory model, before.factories up.kind = some factory ∧
              factory up.modelID up.params = .ok model ∧ after.models up.modelID = some model := by
  refine ⟨Purge.run_kept (call_of_traceless quote) c calls mask hmask, ?_⟩
  intro before after payload up hmsg hhandle
  rcases before.handle_upload quote hmsg with
    ⟨err, herror⟩ | ⟨factory, model, hkind, hmodel, hdeployed⟩
  · rw [herror] at hhandle
    cases hhandle
  · rw [hdeployed] at hhandle
    obtain ⟨-, rfl⟩ := Prod.mk.inj hhandle
    refine ⟨rfl, rfl, fun id hid ↦ GoMap.insert_of_ne _ _ hid, factory, model, hkind, hmodel, ?_⟩
    exact GoMap.insert_same _ _ _

/-- Bytes that are no message, a scene, and a request for it. -/
def quietCalls : List Call :=
  [.handle [], .captureScene (lit "s") [1, 2],
    .handle [0x84, 0x02, 0x61, 0x72, 0x61, 0x6d, 0x61, 0x73]]

/-- A node on which nothing can be deployed. -/
def bareNode : ComputeNode := newComputeNode GoMap.empty

theorem calls_leave_no_trace_quietCalls :
    Purge.run (call id) bareNode (Purge.kept [false, true, false] quietCalls) =
      (Purge.kept [false, true, false] (Purge.run (call id) bareNode quietCalls).1,
        (Purge.run (call id) bareNode quietCalls).2) := by
  refine (calls_leave_no_trace id bareNode quietCalls [false, true, false] ?_).1
  intro i x result hi hx hresult
  rcases i with _ | _ | _ | i
  · cases hx
    cases hresult
    exact .inl ⟨_, rfl⟩
  · cases hi
  · cases hx
    cases hresult
    exact .inr ⟨⟨lit "r", lit "m", lit "s"⟩, by decide +kernel⟩
  · cases hi

end ComputeNode

end Zenith.Bridge
