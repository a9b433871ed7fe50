import Zenith.Bridge.Responder
import Zenith.Node.Identity
import Zenith.Sim.Bound
import Zenith.Sim.Custody

/-!
# Request and response over the mesh

In a mesh of Responders each request that is delivered is answered by one bundle, and no answer is a
request. So a run has at most as many replies as injections, and its length is bounded like that of a
run without handlers on twice as many injections.
-/

namespace Zenith.Bridge

open Go Bpv7 Dtn Sim

/-- The handlers of the mesh are the Responders of the map. -/
def Serves (host : Host) (responders : GoMap GoString Captured) (m : Mesh AppState) : Prop :=
  ∀ node, m.handlers node = (responders node).map (Responder host)

/-- A turn that delivers a request to a Responder injects one reply to it there, at the time of the
delivery, and no other turn injects anything. -/
structure Answers (responders : GoMap GoString Captured) (turn : Turn) : Prop where
  request : turn.fate = .delivered → (responders turn.event.nodeID).isSome = true →
    ∀ req, carried turn.event.b = .ok (.request req) → ∃ seq rb, Replies turn.event.b req seq rb ∧
      turn.caused = [⟨turn.event.time, turn.event.nodeID, rb, true⟩]
  other : (∃ next ∈ turn.caused, next.injected = true) →
    turn.fate = .delivered ∧ (responders turn.event.nodeID).isSome = true ∧
      ∃ req, carried turn.event.b = .ok (.request req)

/-- The replies of a turn that come from the Responder with the counter at an address. -/
def repliesOf (responders : GoMap GoString Captured) (counter : ℕ) (turn : Turn) : List Bundle :=
  if turn.fate = .delivered ∧ (responders turn.event.nodeID).any (·.replySeq = counter) then
    turn.caused.map (·.b)
  else []

/-- The replies of one Responder in a run. -/
def replies (responders : GoMap GoString Captured) (counter : ℕ) (trace : List Turn) : List Bundle :=
  trace.flatMap (repliesOf responders counter)

/-! ## One turn -/

section Step

variable {host : Host} {responders : GoMap GoString Captured} {m : Mesh AppState} {s : Run AppState}
  {ev : MeshEvent}

theorem answer_eq (hserves : Serves host responders m) (hs : s.Configured m) (ev : MeshEvent) :
    s.answer ev = (responders ev.nodeID).elim ([], s.app) fun captured ↦
      Responder host captured s.app ev.nodeID ev.b ev.time := by
  unfold Run.answer
  rw [hs.handlers, hserves]
  cases responders ev.nodeID <;> rfl

/-- How the counters go on in a turn. -/
def Counts (responders : GoMap GoString Captured) (turn : Turn) (q q' : ℕ → UInt64) : Prop :=
  ∀ counter,
    repliesOf responders counter turn = [] ∧ q' counter = q counter ∨
    ∃ rb, repliesOf responders counter turn = [rb] ∧ rb.primary.isFragment = false ∧
      rb.primary.creationTime.sequenceNumber = q counter + 1 ∧ q' counter = q counter + 1

/-- A turn in which no handler is called. -/
theorem answers_of_ne_delivered {f : Fate} (hf : f ≠ .delivered) :
    Answers responders ⟨ev, f, s.caused ev f⟩ ∧
      Counts responders ⟨ev, f, s.caused ev f⟩ s.app.replySeqs (s.after ev f).app.replySeqs := by
  have happ : (s.after ev f).app = s.app := Run.app_after_of_ne s ev hf
  constructor
  · refine ⟨fun hdelivered ↦ absurd hdelivered hf, fun ⟨next, hnext, hinjected⟩ ↦ ?_⟩
    cases f with
    | delivered => exact absurd rfl hf
    | forwarded hop arrival =>
      rw [List.mem_singleton.mp hnext] at hinjected
      cases hinjected
    | duplicate => cases hnext
    | expired => cases hnext
    | undeliverable => cases hnext
  · intro counter
    rw [happ]
    exact .inl ⟨if_neg fun h ↦ hf h.1, rfl⟩

/-- A delivery on which nothing is returned. -/
theorem answers_of_silent (hcaused : (s.answer ev).1 = [])
    (hseqs : (s.answer ev).2.replySeqs = s.app.replySeqs)
    (hnone : (responders ev.nodeID).isSome = true → ∀ req, carried ev.b ≠ .ok (.request req)) :
    Answers responders ⟨ev, .delivered, s.caused ev .delivered⟩ ∧
      Counts responders ⟨ev, .delivered, s.caused ev .delivered⟩ s.app.replySeqs
        (s.after ev .delivered).app.replySeqs := by
  have hnothing : s.caused ev .delivered = [] := by
    change (s.answer ev).1.filterMap ev.reply = []
    rw [hcaused, List.filterMap_nil]
  rw [hnothing, Run.app_after_delivered, hseqs]
  constructor
  · refine ⟨fun _ hsome req hreq ↦ absurd hreq (hnone hsome req), fun ⟨_, hnext, _⟩ ↦ ?_⟩
    cases hnext
  · intro counter
    refine .inl ⟨?_, rfl⟩
    unfold repliesOf
    split_ifs <;> rfl

/-- A delivery on which one reply is returned, with the next number. -/
theorem answers_of_reply {captured : Captured} {req : InferenceRequest} {rb : Bundle}
    (hcaptured : responders ev.nodeID = some captured) (hreq : carried ev.b = .ok (.request req))
    (hrb : Replies ev.b req (s.app.replySeqs captured.replySeq + 1) rb)
    (hout : (s.answer ev).1 = [⟨ev.nodeID, some rb, ev.time⟩])
    (hseqs : (s.answer ev).2.replySeqs =
      Function.update s.app.replySeqs captured.replySeq (s.app.replySeqs captured.replySeq + 1)) :
    Answers responders ⟨ev, .delivered, s.caused ev .delivered⟩ ∧
      Counts responders ⟨ev, .delivered, s.caused ev .delivered⟩ s.app.replySeqs
        (s.after ev .delivered).app.replySeqs := by
  have hsome : (responders ev.nodeID).isSome = true := by rw [hcaptured, Option.isSome_some]
  have hcaused : s.caused ev .delivered = [⟨ev.time, ev.nodeID, rb, true⟩] := by
    change (s.answer ev).1.filterMap ev.reply = _
    rw [hout]
    simp [MeshEvent.reply]
  rw [hcaused, Run.app_after_delivered, hseqs]
  constructor
  · refine ⟨fun _ _ req' hreq' ↦ ?_, fun _ ↦ ⟨rfl, hsome, req, hreq⟩⟩
    rw [hreq] at hreq'
    cases hreq'
    exact ⟨_, rb, hrb, rfl⟩
  · intro counter
    by_cases hcounter : captured.replySeq = counter
    · subst hcounter
      refine .inr ⟨rb, ?_, hrb.whole, hrb.sequenceNumber, Function.update_self _ _ _⟩
      exact if_pos ⟨rfl, by simp [hcaptured]⟩
    · refine .inl ⟨if_neg ?_, Function.update_of_ne (Ne.symm hcounter) _ _⟩
      simp [hcaptured, hcounter]

theorem answers_after (hserves : Serves host responders m) (hs : s.Configured m) (f : Fate)
    (hcrash : (s.after ev f).app.crashed = false) : Answers responders ⟨ev, f, s.caused ev f⟩ ∧
      Counts responders ⟨ev, f, s.caused ev f⟩ s.app.replySeqs (s.after ev f).app.replySeqs := by
  by_cases hf : f = .delivered
  · subst hf
    have hanswer := answer_eq hserves hs ev
    cases hcaptured : responders ev.nodeID with
    | none =>
      rw [hcaptured] at hanswer
      apply answers_of_silent
      · rw [hanswer]
        rfl
      · rw [hanswer]
        rfl
      · rw [hcaptured]
        intro hsome
        cases hsome
    | some captured =>
      rw [hcaptured] at hanswer
      dsimp only [Option.elim] at hanswer
      by_cases hmsg : ∃ req, carried ev.b = .ok (.request req)
      · obtain ⟨req, hreq⟩ := hmsg
        rw [Run.app_after_delivered, hanswer] at hcrash
        rcases responder_request host captured s.app ev.nodeID ev.time hreq with
          hcrashed | ⟨rb, hrb, hout, -, hseqs⟩
        · cases hcrashed.symm.trans hcrash
        · rw [← hanswer] at hout hseqs
          exact answers_of_reply hcaptured hreq hrb hout hseqs
      · obtain ⟨hout, hseqs⟩ := responder_other host captured s.app ev.nodeID ev.time
          fun req hreq ↦ hmsg ⟨req, hreq⟩
        rw [← hanswer] at hout hseqs
        exact answers_of_silent hout hseqs fun _ req hreq ↦ hmsg ⟨req, hreq⟩
  · exact answers_of_ne_delivered hf

theorem crashed_after (hserves : Serves host responders m) (hs : s.Configured m) (f : Fate)
    (h : s.app.crashed = true) : (s.after ev f).app.crashed = true := by
  by_cases hf : f = .delivered
  · subst hf
    rw [Run.app_after_delivered, answer_eq hserves hs ev]
    cases responders ev.nodeID with
    | none => exact h
    | some captured => exact responder_crashed host captured ev.nodeID ev.time h
  · rwa [Run.app_after_of_ne s ev hf]

end Step

/-! ## The numbers of replies -/

/-- Whole bundles with consecutive sequence numbers after `q`. -/
structure Numbered (q : UInt64) (bs : List Bundle) : Prop where
  whole : ∀ b ∈ bs, b.primary.isFragment = false
  numbers : bs.map (·.primary.creationTime.sequenceNumber) =
    (List.range bs.length).map fun i ↦ q + 1 + UInt64.ofNat i

theorem Numbered.cons {q : UInt64} {b : Bundle} {bs : List Bundle} (h : Numbered (q + 1) bs)
    (hwhole : b.primary.isFragment = false)
    (hnumber : b.primary.creationTime.sequenceNumber = q + 1) : Numbered q (b :: bs) where
  whole := List.forall_mem_cons.mpr ⟨hwhole, h.whole⟩
  numbers := by
    have hnext (i : ℕ) : q + 1 + 1 + UInt64.ofNat i = q + 1 + UInt64.ofNat (i + 1) := by
      rw [UInt64.ofNat_add, UInt64.add_assoc (q + 1), UInt64.add_comm 1]
      rfl
    rw [List.map_cons, hnumber, h.numbers, List.length_cons, List.range_succ_eq_map, List.map_cons,
      List.map_map]
    congr 1
    · exact (UInt64.add_zero _).symm
    · exact List.map_congr_left fun i _ ↦ hnext i

/-- Fewer than all numbers tell the bundles apart. -/
theorem Numbered.nodup {q : UInt64} {bs : List Bundle} (h : Numbered q bs)
    (hlen : bs.length ≤ 2 ^ 64) : (bs.map Bundle.id).Nodup := by
  have hnumbers : (bs.map (·.primary.creationTime.sequenceNumber)).Nodup := by
    rw [h.numbers]
    apply List.Nodup.map_on _ List.nodup_range
    intro i hi j hj heq
    have hnat := congrArg UInt64.toNat ((UInt64.add_right_inj _).mp heq)
    have hi' := List.mem_range.mp hi
    have hj' := List.mem_range.mp hj
    rwa [UInt64.toNat_ofNat', UInt64.toNat_ofNat', Nat.mod_eq_of_lt (hi'.trans_le hlen),
      Nat.mod_eq_of_lt (hj'.trans_le hlen)] at hnat
  rw [List.Nodup, List.pairwise_map] at hnumbers ⊢
  apply hnumbers.imp_of_mem
  intro b b' hb hb' hne hid
  rw [Bundle.id_of_whole (h.whole b hb), Bundle.id_of_whole (h.whole b' hb'),
    Bundle.numbered_inj] at hid
  exact hne hid.2.2

/-! ## Whole runs -/

section Runs

variable {host : Host} {responders : GoMap GoString Captured} {m : Mesh AppState} {fuel : ℕ}
  {s s' : Run AppState} {trace : List Turn}

theorem crashed_of_runs (hserves : Serves host responders m) (h : Run.Runs fuel s trace s')
    (hs : s.Configured m) (hcrash : s.app.crashed = true) : s'.app.crashed = true :=
  (h.rule (P := fun s ↦ s.Configured m ∧ s.app.crashed = true) (Q := fun _ ↦ True)
    (fun {s ev queue f} hs _ _ ↦ ⟨trivial, hs.1.after ev queue f,
      crashed_after (s := { s with queue := queue }) hserves (hs.1.withQueue queue) f hs.2⟩)
    ⟨hs, hcrash⟩).1.2

theorem answers_of_runs (hserves : Serves host responders m) (h : Run.Runs fuel s trace s')
    (hs : s.Configured m) (hcrash : s'.app.crashed = false) :
    (∀ turn ∈ trace, Answers responders turn) ∧ ∀ counter,
      Numbered (s.app.replySeqs counter) (replies responders counter trace) ∧
        (replies responders counter trace).length ≤ trace.length := by
  induction h with
  | nil s =>
    exact ⟨fun _ hturn ↦ absurd hturn List.not_mem_nil,
      fun _ ↦ ⟨⟨fun _ hb ↦ absurd hb List.not_mem_nil, rfl⟩, le_rfl⟩⟩
  | @cons s s' ev queue f trace hpop hfate htail ih =>
    have hnext := hs.after ev queue f
    have hgoing : (Run.after { s with queue := queue } ev f).app.crashed = false := by
      rw [← Bool.not_eq_true]
      intro hcrashed
      cases hcrash.symm.trans (crashed_of_runs hserves htail hnext hcrashed)
    obtain ⟨hturn, hcounts⟩ := answers_after hserves (hs.withQueue queue) f hgoing
    obtain ⟨hturns, hnumbered⟩ := ih hnext hcrash
    refine ⟨List.forall_mem_cons.mpr ⟨hturn, hturns⟩, fun counter ↦ ?_⟩
    obtain ⟨hrest, hlen⟩ := hnumbered counter
    unfold replies at hrest hlen ⊢
    rw [List.flatMap_cons]
    rcases hcounts counter with ⟨hnil, hq⟩ | ⟨rb, hone, hwhole, hnumber, hq⟩
    · rw [hq] at hrest
      rw [show repliesOf responders counter ⟨ev, f, s.caused ev f⟩ = [] from hnil, List.nil_append]
      exact ⟨hrest, hlen.trans (Nat.le_succ _)⟩
    · rw [hq] at hrest
      rw [show repliesOf responders counter ⟨ev, f, s.caused ev f⟩ = [rb] from hone,
        List.singleton_append]
      exact ⟨hrest.cons hwhole hnumber, Nat.succ_le_succ hlen⟩

/-- A turn answers at most once. -/
theorem Answers.countP_caused {turn : Turn} (h : Answers responders turn) :
    turn.caused.countP (·.injected) = if turn.caused.any (·.injected) then 1 else 0 := by
  by_cases hany : turn.caused.any (·.injected) = true
  · obtain ⟨hdelivered, hsome, req, hreq⟩ := h.other (List.any_eq_true.mp hany)
    obtain ⟨seq, rb, -, hcaused⟩ := h.request hdelivered hsome req hreq
    rw [if_pos hany, hcaused]
    rfl
  · rw [if_neg hany, List.countP_eq_zero]
    intro next hnext hinjected
    exact hany (List.any_eq_true.mpr ⟨next, hnext, hinjected⟩)

theorem Answers.of_injected {turn : Turn} (h : Answers responders turn) {next : MeshEvent}
    (hnext : next ∈ turn.caused) (hinjected : next.injected = true) :
    turn.fate = .delivered ∧ ∃ req seq, carried turn.event.b = .ok (.request req) ∧
      Replies turn.event.b req seq next.b ∧ next.time = turn.event.time ∧
      next.nodeID = turn.event.nodeID := by
  obtain ⟨hdelivered, hsome, req, hreq⟩ := h.other ⟨next, hnext, hinjected⟩
  obtain ⟨seq, rb, hrb, hcaused⟩ := h.request hdelivered hsome req hreq
  rw [hcaused, List.mem_singleton] at hnext
  subst hnext
  exact ⟨hdelivered, req, seq, hreq, hrb, rfl, rfl⟩

/-- A request is the bundle of an injection: replies carry responses. -/
theorem exists_injection_of_request {app : AppState}
    (h : Run.Runs fuel (Run.start m app) trace s) (hfollows : ∀ turn ∈ trace, turn.Follows m)
    (hanswers : ∀ turn ∈ trace, Answers responders turn) :
    ∀ turn ∈ trace, ∀ req, carried turn.event.b = .ok (.request req) →
      ∃ inj ∈ m.pending, inj.b = turn.event.b := by
  have horigin := (h.forall_event (E := fun ev ↦ (∃ inj ∈ m.pending, inj.b = ev.b) ∨
    ∃ resp, carried ev.b = .ok (.response resp)) (fun ev hev ↦ ?_) ?_).1
  · intro turn hturn req hreq
    rcases horigin turn hturn with hinj | ⟨resp, hresp⟩
    · exact hinj
    · cases hreq.symm.trans hresp
  · obtain ⟨inj, hinj, rfl⟩ := List.mem_map.mp ((Run.start_queue_perm m app).mem_iff.mp hev)
    exact .inl ⟨inj, hinj, rfl⟩
  · intro turn hturn horigin next hnext
    rcases (hfollows turn hturn).caused_cases hnext with ⟨-, -, -, -, -, -, hsame, -⟩ |
      ⟨-, -, -, -, -, -, -, -, hinjected⟩
    · rwa [hsame]
    · obtain ⟨-, req, seq, -, hrb, -⟩ := (hanswers turn hturn).of_injected hnext hinjected
      obtain ⟨resp, hresp, -⟩ := hrb.response
      exact .inr ⟨resp, hresp⟩

/-- Each injection is answered once at most. -/
theorem countP_replies_le {app : AppState} (hm : m.Fresh)
    (h : Run.Runs fuel (Run.start m app) trace s)
    (hanswers : ∀ turn ∈ trace, Answers responders turn) :
    (trace.flatMap Turn.caused).countP (·.injected) ≤ m.pending.length := by
  have hconfigured := Run.configured_start hm app
  have hfollows := (h.configured hconfigured).2
  have hanswered : ∀ turn ∈ trace, turn.caused.any (·.injected) = true →
      turn.fate = .delivered ∧ ∃ inj ∈ m.pending, inj.b = turn.event.b := by
    intro turn hturn hany
    obtain ⟨next, hnext, hinjected⟩ := List.any_eq_true.mp hany
    obtain ⟨hdelivered, req, -, hreq, -⟩ := (hanswers turn hturn).of_injected hnext hinjected
    exact ⟨hdelivered, exists_injection_of_request h hfollows hanswers turn hturn req hreq⟩
  have hnodup : ((trace.filter fun turn ↦ turn.caused.any (·.injected)).map Turn.visit).Nodup := by
    have hfirst : (trace.filter fun turn ↦ turn.caused.any (·.injected)) =
        (trace.filter (·.fate ≠ .duplicate)).filter fun turn ↦ turn.caused.any (·.injected) := by
      rw [List.filter_filter]
      apply List.filter_congr
      intro turn hturn
      cases hany : turn.caused.any (·.injected) with
      | false => rfl
      | true => simp [(hanswered turn hturn hany).1]
    rw [hfirst]
    exact List.Nodup.sublist (List.filter_sublist.map Turn.visit) h.visited.1
  calc
    (trace.flatMap Turn.caused).countP (·.injected) =
        trace.countP fun turn ↦ turn.caused.any (·.injected) :=
      countP_flatMap_of_forall fun turn hturn ↦ (hanswers turn hturn).countP_caused
    _ = ((trace.filter fun turn ↦ turn.caused.any (·.injected)).map Turn.visit).toFinset.card := by
      rw [List.toFinset_card_of_nodup hnodup, List.length_map, List.countP_eq_length_filter]
    _ ≤ (m.pending.map fun inj ↦
        (inj.b.primary.destination.nodeID, inj.b.id)).toFinset.card := by
      apply Finset.card_le_card
      intro visit hvisit
      obtain ⟨turn, hturn, rfl⟩ := List.mem_map.mp (List.mem_toFinset.mp hvisit)
      obtain ⟨hturn, hany⟩ := List.mem_filter.mp hturn
      obtain ⟨hdelivered, inj, hinj, hb⟩ := hanswered turn hturn hany
      refine List.mem_toFinset.mpr (List.mem_map.mpr ⟨inj, hinj, ?_⟩)
      rw [hb, h.destination_eq hconfigured turn hturn hdelivered]
      rfl
    _ ≤ m.pending.length := by
      apply (List.toFinset_card_le _).trans
      rw [List.length_map]

/-- Twice as many injections as there are bound the run. -/
theorem length_le_of_answers {app : AppState} (hm : m.Fresh)
    (h : Run.Runs fuel (Run.start m app) trace s)
    (hanswers : ∀ turn ∈ trace, Answers responders turn) :
    trace.length + s.queue.length ≤ 2 * m.pending.length * (m.nodeIDs.card + 1) := by
  have hreplies := countP_replies_le hm h hanswers
  calc
    trace.length + s.queue.length ≤
        (m.pending.length + (trace.flatMap Turn.caused).countP (·.injected)) *
          (m.nodeIDs.card + 1) := by
      apply h.length_le_of_replies hm
      intro turn hturn next hnext hinjected
      obtain ⟨-, -, -, -, -, -, hnode⟩ := (hanswers turn hturn).of_injected hnext hinjected
      exact hnode
    _ ≤ 2 * m.pending.length * (m.nodeIDs.card + 1) := by
      apply Nat.mul_le_mul_right
      omega

end Runs

/-- What a run does over Responders: each request delivered is answered once and nothing else is,
the replies of a Responder are told apart, and there is at most one for each injection. -/
structure Responds (responders : GoMap GoString Captured) (m : Mesh AppState) (trace : List Turn)
    (s : Run AppState) : Prop where
  deliveries : s.report.deliveries = trace.flatMap Turn.deliveries
  answers : ∀ turn ∈ trace, Answers responders turn
  nodup : ∀ counter, ((replies responders counter trace).map Bundle.id).Nodup
  injected : s.report.events.countP (·.kind = .injected) ≤ 2 * m.pending.length

/-- A mesh of Responders answers requests, and its queue empties unless the guard of the loop is
lower than `2 * k * (N + 1)`, for `k` injections and `N` nodes. -/
theorem run_responds {host : Host} {responders : GoMap GoString Captured} {m : Mesh AppState}
    (hm : m.Fresh) (hserves : Serves host responders m) (app : AppState) :
    (m.SearchesReturn → ∃ fuel s, m.run fuel app = some s) ∧
    (∀ fuel s, m.run fuel app = some s → s.app.crashed = false →
      Responds responders m (m.turns fuel app) s) ∧
    ∀ fuel limit s, 2 * m.pending.length * (m.nodeIDs.card + 1) ≤ limit →
      Run.loop fuel limit (Run.start m app) = some s → s.app.crashed = false → s.queue = [] := by
  have hconfigured := Run.configured_start hm app
  refine ⟨fun hroutes ↦ hroutes.exists_loop hm app maxEvents, fun fuel s h hcrash ↦ ?_,
    fun fuel limit s hbound h hcrash ↦ ?_⟩
  · obtain ⟨hruns, hlimit, -⟩ := Run.runs_turns h
    change Run.Runs fuel (Run.start m app) (m.turns fuel app) s at hruns
    change (m.turns fuel app).length ≤ maxEvents at hlimit
    obtain ⟨hanswers, hnumbered⟩ := answers_of_runs hserves hruns hconfigured hcrash
    refine ⟨hruns.deliveries_eq, hanswers, fun counter ↦ ?_, ?_⟩
    · obtain ⟨hnumbers, hlen⟩ := hnumbered counter
      apply hnumbers.nodup
      exact (hlen.trans hlimit).trans (by decide)
    · have hreplies := countP_replies_le hm hruns hanswers
      have hinjected := hruns.countP_injected_le rfl
      rw [(Run.start_queue_perm m app).length_eq, List.length_map] at hinjected
      omega
  · obtain ⟨trace, hruns, -, hend⟩ := Run.loop_eq_some.mp h
    have hanswers := (answers_of_runs hserves hruns hconfigured hcrash).1
    have hlen := length_le_of_answers hm hruns hanswers
    by_contra hne
    have hpos := List.length_pos_of_ne_nil hne
    have hfull : ¬trace.length < limit := fun hlt ↦ hne (hend hlt)
    omega

/-- A station requests an inference from another one, and both are Responders. -/
def inferenceRequest : Bundle :=
  let req : InferenceRequest := ⟨lit "req-1", lit "eo-stats", lit "scene-42"⟩
  { imageBundle with
    canonical := [⟨BlockTypePayload, 1, 0, CRCNone,
      (Cbor.Item.ofValue (Message.request req).value).bytes⟩] }

def missionHost : Host := ⟨fun _ _ ↦ 0, id⟩

/-- A compute node with a scene and a model that returns the first bytes of what it sees. -/
def imager : ComputeNode :=
  let thumbnail : ModelFactory := fun _ _ ↦ .ok fun scene ↦ .ok (scene.take 2, lit "thumbnail")
  (((ComputeNode.newComputeNode GoMap.empty).registerFactory (lit "thumbnail") thumbnail).captureScene
    (lit "scene-42") [7, 8, 9]).deploy ⟨lit "eo-stats", lit "thumbnail", []⟩ |>.2

/-- The compute nodes of the two stations; the model is on the second one. -/
def missionApp : AppState :=
  ⟨fun address ↦ if address = 1 then imager else ComputeNode.newComputeNode GoMap.empty, fun _ ↦ 0,
    false⟩

def stations : GoMap GoString Captured :=
  (GoMap.empty.insert (lit "dtn://ground-1") ⟨0, 0, 0⟩).insert (lit "dtn://ground-2") ⟨1, 1, 0⟩

def inferenceMesh : Mesh AppState :=
  let base : Time := 1767225600 * second
  let plan := Cgr.ContactPlan.newContactPlan
    [⟨lit "dtn://ground-1", lit "dtn://ground-2", base, base + 300 * second, 1000000, 0, 1⟩,
      ⟨lit "dtn://ground-2", lit "dtn://ground-1", base + 600 * second, base + 900 * second, 1000000,
        0, 1⟩]
  (((Mesh.new (some plan)).setHandler (lit "dtn://ground-1")
    (Responder missionHost ⟨0, 0, 0⟩)).setHandler (lit "dtn://ground-2")
    (Responder missionHost ⟨1, 1, 0⟩)).inject (lit "dtn://ground-1") inferenceRequest base

theorem run_responds_inferenceMesh : ∃ s, inferenceMesh.run 10 missionApp = some s ∧
    s.report.deliveries.length = 2 ∧
    Responds stations inferenceMesh (inferenceMesh.turns 10 missionApp) s := by
  have hrun : (inferenceMesh.run 10 missionApp).map (fun s ↦
      (s.app.crashed, s.report.deliveries.length)) = some (false, 2) := by
    decide +kernel
  obtain ⟨s, hs, hend⟩ := Option.map_eq_some_iff.mp hrun
  obtain ⟨hcrash, hlen⟩ := Prod.mk.inj hend
  have hfresh : inferenceMesh.Fresh :=
    .inject _ _ _ (.setHandler _ _ (.setHandler _ _ (.new _)))
  have hserves : Serves missionHost stations inferenceMesh := by
    intro node
    unfold inferenceMesh stations Mesh.inject Mesh.setHandler Mesh.addNode Mesh.setNode Mesh.new
    simp only [GoMap.insert_apply, GoMap.empty_apply]
    split_ifs <;> rfl
  exact ⟨s, hs, hlen, (run_responds hfresh hserves missionApp).2.1 10 s hs hcrash⟩

/-! ## The guard of the loop -/

/-- The bundle is injected `k` times more. -/
def injectCopies (m : Mesh AppState) (nodeID : GoString) (b : Bundle) : ℕ → Mesh AppState
  | 0 => m
  | k + 1 => (injectCopies m nodeID b k).inject nodeID b 0

theorem fresh_injectCopies {m : Mesh AppState} (hm : m.Fresh) (nodeID : GoString) (b : Bundle)
    (k : ℕ) : (injectCopies m nodeID b k).Fresh ∧
      (injectCopies m nodeID b k).plan = m.plan ∧
      (injectCopies m nodeID b k).handlers = m.handlers ∧
      (injectCopies m nodeID b k).pending = m.pending ++ List.replicate k ⟨nodeID, b, 0⟩ := by
  induction k with
  | zero => exact ⟨hm, rfl, rfl, (List.append_nil _).symm⟩
  | succ k ih =>
    obtain ⟨hfresh, hplan, hhandlers, hpending⟩ := ih
    refine ⟨.inject _ _ _ hfresh, hplan, hhandlers, ?_⟩
    calc
      (injectCopies m nodeID b k).pending ++ [⟨nodeID, b, 0⟩] =
          m.pending ++ (List.replicate k ⟨nodeID, b, 0⟩ ++ [⟨nodeID, b, 0⟩]) := by
        rw [hpending, List.append_assoc]
      _ = m.pending ++ List.replicate (k + 1) ⟨nodeID, b, 0⟩ := by rw [List.replicate_succ']

/-- One injection more than the loop takes turns. -/
def overloadedMesh : Mesh AppState :=
  injectCopies ((Mesh.new none).setHandler (lit "dtn://ground-2") (Responder missionHost ⟨1, 1, 0⟩))
    (lit "dtn://ground-1") inferenceRequest (maxEvents + 1)

theorem run_not_emptied : ¬∀ (host : Host) (responders : GoMap GoString Captured)
    (m : Mesh AppState) (fuel : ℕ) (app : AppState) (s : Run AppState), m.Fresh →
    Serves host responders m → m.run fuel app = some s → s.app.crashed = false → s.queue = [] := by
  intro hall
  obtain ⟨hfresh, hplan, hhandlers, hpending⟩ := fresh_injectCopies
    (.setHandler (lit "dtn://ground-2") (Responder missionHost ⟨1, 1, 0⟩) (.new none))
    (lit "dtn://ground-1") inferenceRequest (maxEvents + 1)
  change overloadedMesh.Fresh at hfresh
  change overloadedMesh.plan = none at hplan
  change overloadedMesh.handlers = GoMap.empty.insert (lit "dtn://ground-2") _ at hhandlers
  change overloadedMesh.pending = List.replicate (maxEvents + 1) _ at hpending
  have hserves : Serves missionHost (GoMap.empty.insert (lit "dtn://ground-2") ⟨1, 1, 0⟩)
      overloadedMesh := by
    intro node
    rw [hhandlers, GoMap.insert_apply, GoMap.insert_apply]
    split_ifs <;> rfl
  have hconfigured := Run.configured_start hfresh missionApp
  have hroutes : overloadedMesh.SearchesReturn := by
    intro plan hsome
    cases hplan.symm.trans hsome
  obtain ⟨fuel, s, hs⟩ := hroutes.exists_loop hfresh missionApp maxEvents
  obtain ⟨trace, hruns, hlimit, -⟩ := Run.loop_eq_some.mp hs
  have hfollows := (hruns.configured hconfigured).2
  -- nothing leaves the first station, where there is no handler
  have hstay := (hruns.forall_event (E := fun ev ↦ ev.nodeID = lit "dtn://ground-1")
    (fun ev hev ↦ ?_) ?_).1
  · have hnone : ∀ turn ∈ trace, overloadedMesh.handlers turn.event.nodeID = none := by
      intro turn hturn
      rw [hhandlers, hstay turn hturn]
      decide
    have happ : s.app = missionApp := hruns.app_eq hconfigured hnone
    have hcrash : s.app.crashed = false := by
      rw [happ]
      rfl
    have hempty := hall missionHost _ overloadedMesh fuel missionApp s hfresh hserves hs hcrash
    have hlength := hruns.perm.length_eq
    rw [hempty, List.append_nil, List.length_map, List.length_append,
      (Run.start_queue_perm overloadedMesh missionApp).length_eq, List.length_map, hpending,
      List.length_replicate] at hlength
    omega
  · obtain ⟨inj, hinj, rfl⟩ :=
      List.mem_map.mp ((Run.start_queue_perm overloadedMesh missionApp).mem_iff.mp hev)
    rw [hpending] at hinj
    rw [List.eq_of_mem_replicate hinj]
    rfl
  · intro turn hturn hat next hnext
    rcases (hfollows turn hturn).caused_cases hnext with ⟨-, plan, hsome, -⟩ |
      ⟨handler, -, -, hhandler, -⟩
    · cases hplan.symm.trans hsome
    · rw [hhandlers, hat, GoMap.insert_apply, if_neg (by decide)] at hhandler
      cases hhandler

end Zenith.Bridge
