import Zenith.Sim.Bound
import Zenith.Sim.Capacity

/-!
# Bundles do not disturb each other

Without handlers, and where no two injections have the same ID, the turns about one bundle in the run
of all injections are the turns of the run with its injection alone: what a node does with a bundle
depends on whether it has seen that ID, on the plan and on the time only. The order of the injections
decides between events at the same time, and so the order of the turns about different bundles, and
nothing else.
-/

namespace Zenith.Sim

open Go Bpv7 Cgr Dtn EventLoop

variable {σ : Type}

/-- The mesh over the same plan with a single injection. -/
def Mesh.alone (m : Mesh σ) (inj : Injection) : Mesh σ :=
  (Mesh.new m.plan).inject inj.nodeID inj.b inj.atTime

/-- What a turn causes where there are no handlers. -/
def Fate.arrivals (f : Fate) (ev : MeshEvent) : List MeshEvent :=
  match f with
  | forwarded hop arrival => [⟨arrival, hop.toNode, ev.b, false⟩]
  | _ => []

theorem eq_of_perm_of_length_le_one {α : Type} {l l' : List α} (h : l.Perm l')
    (hlen : l.length ≤ 1) : l = l' := by
  cases l with
  | nil => exact h.nil_eq
  | cons a l =>
    have hnil : l = [] := List.eq_nil_of_length_eq_zero (by simpa using hlen)
    subst hnil
    exact h.singleton_eq

/-- Only the entry that has the key itself is left by filtering for it. -/
theorem filter_eq_singleton {α κ : Type} [DecidableEq κ] {l : List α} (key : α → κ) {a : α}
    (hnodup : (l.map key).Nodup) (ha : a ∈ l) : l.filter (fun b ↦ key b = key a) = [a] := by
  induction l with
  | nil => cases ha
  | cons b l ih =>
    rw [List.map_cons, List.nodup_cons] at hnodup
    obtain ⟨hfresh, htail⟩ := hnodup
    rcases List.mem_cons.mp ha with rfl | ha
    · have hnone : l.filter (fun b ↦ key b = key a) = [] := by
        apply List.filter_eq_nil_iff.mpr
        intro b hb heq
        exact hfresh (List.mem_map.mpr ⟨b, hb, of_decide_eq_true heq⟩)
      rw [List.filter_cons_of_pos (by simp), hnone]
    · have hne : key b ≠ key a := fun heq ↦ hfresh (heq ▸ List.mem_map_of_mem ha)
      rw [List.filter_cons_of_neg (by simp [hne]), ih htail ha]

namespace Run

theorem Configured.caused_eq {m : Mesh σ} {s : Run σ} (h : s.Configured m)
    (hfree : ∀ node, m.handlers node = none) (ev : MeshEvent) (f : Fate) :
    s.caused ev f = f.arrivals ev := by
  cases f with
  | delivered =>
    unfold caused answer
    rw [h.handlers, hfree]
    rfl
  | _ => rfl

/-- The run `s'` is about one bundle ID and is where the run `s` of all bundles is with it. -/
structure Restricts (m : Mesh σ) (bundleID : GoString) (s s' : Run σ) : Prop where
  joint : s.Configured m
  alone : s'.Configured m
  seen : ∀ node, (s.mesh.nodeAt node).seen.isSet bundleID =
    (s'.mesh.nodeAt node).seen.isSet bundleID
  queue : s.queue.filter (·.b.id = bundleID) = s'.queue
  single : s'.queue.length ≤ 1

section Restricts

variable {m : Mesh σ} {bundleID : GoString} {s s' : Run σ} {ev : MeshEvent}
  {queue : List MeshEvent} {f : Fate} {fuel : ℕ}

theorem Restricts.fate_eq (h : Restricts m bundleID s s') (hid : ev.b.id = bundleID) (fuel : ℕ) :
    fate fuel (s.mesh.nodeAt ev.nodeID) ev = fate fuel (s'.mesh.nodeAt ev.nodeID) ev := by
  apply fate_congr
  · exact (h.joint.keyed _).trans (h.alone.keyed _).symm
  · exact (h.joint.planned _).trans (h.alone.planned _).symm
  · rw [hid]
    exact h.seen ev.nodeID

/-- The next event about the bundle is the only one that the run by itself has. -/
theorem Restricts.pop_same (h : Restricts m bundleID s s') (hid : ev.b.id = bundleID)
    (hpop : BinaryHeap.pop (·.time) s.queue = some (ev, queue)) :
    s'.queue = [ev] ∧ queue.filter (·.b.id = bundleID) = [] := by
  have hperm := (BinaryHeap.pop_perm hpop).filter (·.b.id = bundleID)
  rw [h.queue, List.filter_cons_of_pos (by simp [hid])] at hperm
  have heq := eq_of_perm_of_length_le_one hperm h.single
  have hsingle := h.single
  rw [heq, List.length_cons] at hsingle
  have hrest : queue.filter (·.b.id = bundleID) = [] := List.eq_nil_of_length_eq_zero (by omega)
  rw [hrest] at heq
  exact ⟨heq, hrest⟩

theorem Restricts.after_same (h : Restricts m bundleID s s')
    (hfree : ∀ node, m.handlers node = none) (hid : ev.b.id = bundleID)
    (hpop : BinaryHeap.pop (·.time) s.queue = some (ev, queue)) (f : Fate) :
    Restricts m bundleID (after { s with queue := queue } ev f)
      (after { s' with queue := [] } ev f) := by
  have hrest := (h.pop_same hid hpop).2
  have hjoint : (after { s with queue := queue } ev f).queue = (f.arrivals ev).foldl push queue :=
    congrArg (List.foldl push queue) (h.joint.caused_eq hfree ev f)
  have halone : (after { s' with queue := [] } ev f).queue = f.arrivals ev := by
    have hcaused : (after { s' with queue := [] } ev f).queue = (f.arrivals ev).foldl push [] :=
      congrArg (List.foldl push []) (h.alone.caused_eq hfree ev f)
    rw [hcaused]
    cases f <;> rfl
  refine ⟨h.joint.after ev queue f, h.alone.after ev [] f, fun node ↦ ?_, ?_, ?_⟩
  · rw [isSet_seen_after, isSet_seen_after]
    exact congrArg _ (h.seen node)
  · rw [hjoint, halone]
    have hperm := (foldl_push_perm MeshEvent.time queue (f.arrivals ev)).symm.filter
      (·.b.id = bundleID)
    rw [List.filter_append, hrest, List.nil_append] at hperm
    have hall : (f.arrivals ev).filter (·.b.id = bundleID) = f.arrivals ev := by
      cases f <;> simp [Fate.arrivals, hid]
    rw [hall] at hperm
    refine (eq_of_perm_of_length_le_one hperm ?_).symm
    cases f <;> simp [Fate.arrivals]
  · rw [halone]
    cases f <;> simp [Fate.arrivals]

/-- A turn about another bundle makes no difference. -/
theorem Restricts.after_other (h : Restricts m bundleID s s')
    (hfree : ∀ node, m.handlers node = none) (hid : ev.b.id ≠ bundleID)
    (hpop : BinaryHeap.pop (·.time) s.queue = some (ev, queue)) (f : Fate) :
    Restricts m bundleID (after { s with queue := queue } ev f) s' := by
  have hjoint : (after { s with queue := queue } ev f).queue = (f.arrivals ev).foldl push queue :=
    congrArg (List.foldl push queue) (h.joint.caused_eq hfree ev f)
  refine ⟨h.joint.after ev queue f, h.alone, fun node ↦ ?_, ?_, h.single⟩
  · rw [isSet_seen_after, decide_eq_false (by simp [Ne.symm hid]), Bool.false_or]
    exact h.seen node
  · have hnone : (f.arrivals ev).filter (·.b.id = bundleID) = [] := by
      cases f <;> simp [Fate.arrivals, hid]
    have hpushed := (foldl_push_perm MeshEvent.time queue (f.arrivals ev)).filter
      (·.b.id = bundleID)
    rw [List.filter_append, hnone, List.append_nil] at hpushed
    have hpopped := (BinaryHeap.pop_perm hpop).filter (·.b.id = bundleID)
    rw [h.queue, List.filter_cons_of_neg (by simp [hid])] at hpopped
    rw [hjoint]
    exact (eq_of_perm_of_length_le_one (hpopped.trans hpushed.symm) h.single).symm

/-- The turns about one bundle are a run by themselves. -/
theorem Restricts.runs {t : Run σ} {trace : List Turn} (h : Restricts m bundleID s s')
    (hfree : ∀ node, m.handlers node = none) (hruns : Runs fuel s trace t) :
    ∃ t', Runs fuel s' (trace.filter (·.event.b.id = bundleID)) t' ∧
      Restricts m bundleID t t' := by
  induction hruns generalizing s' with
  | nil s => exact ⟨s', .nil s', h⟩
  | @cons s t ev queue f trace hpop hfate _ ih =>
    by_cases hid : ev.b.id = bundleID
    · obtain ⟨t', htail, hend⟩ := ih (h.after_same hfree hid hpop f)
      have hpop' : BinaryHeap.pop (·.time) s'.queue = some (ev, []) := by
        rw [(h.pop_same hid hpop).1]
        rfl
      have hcaused : s.caused ev f = s'.caused ev f :=
        (h.joint.caused_eq hfree ev f).trans (h.alone.caused_eq hfree ev f).symm
      rw [List.filter_cons_of_pos (by simp [hid]), hcaused]
      exact ⟨t', .cons hpop' ((h.fate_eq hid fuel).symm.trans hfate) htail, hend⟩
    · rw [List.filter_cons_of_neg (by simp [hid])]
      exact ih (h.after_other hfree hid hpop f)

end Restricts

end Run

section Independent

variable {m m' : Mesh σ}

theorem Mesh.fresh_alone (m : Mesh σ) (inj : Injection) : (m.alone inj).Fresh :=
  .inject _ _ _ (.new _)

theorem Run.restricts_start (hm : m.Fresh) (hfree : ∀ node, m.handlers node = none)
    (hdistinct : (m.pending.map (·.b.id)).Nodup) {inj : Injection} (hinj : inj ∈ m.pending)
    (app : σ) :
    Run.Restricts m inj.b.id (Run.start m app) (Run.start (m.alone inj) app) := by
  have halone := Run.configured_start (m.fresh_alone inj) app
  have hqueue : (Run.start (m.alone inj) app).queue = [inj.event] := rfl
  refine ⟨Run.configured_start hm app, ⟨halone.keyed, halone.planned, ?_⟩, fun node ↦ ?_, ?_, ?_⟩
  · funext node
    exact (hfree node).symm
  · unfold Run.start
    rw [hm.nodeAt_eq, (m.fresh_alone inj).nodeAt_eq]
    rfl
  · rw [hqueue]
    have hperm := (Run.start_queue_perm m app).filter (·.b.id = inj.b.id)
    have hkept : (m.pending.map Injection.event).filter (·.b.id = inj.b.id) = [inj.event] := by
      rw [List.filter_map]
      exact congrArg (List.map Injection.event)
        (filter_eq_singleton (fun i : Injection ↦ i.b.id) hdistinct hinj)
    rw [hkept] at hperm
    exact (eq_of_perm_of_length_le_one hperm.symm le_rfl).symm
  · rw [hqueue]
    exact le_rfl

/-- The turns about one bundle are what the run of its injection alone begins with, if that comes to
an end. -/
theorem Run.Runs.split_alone (hm : m.Fresh) (hfree : ∀ node, m.handlers node = none)
    (hdistinct : (m.pending.map (·.b.id)).Nodup) {fuel fuel' : ℕ} {app : σ} {s v : Run σ}
    {trace full : List Turn} (h : Run.Runs fuel (Run.start m app) trace s) {inj : Injection}
    (hinj : inj ∈ m.pending) (hfull : Run.Runs fuel' (Run.start (m.alone inj) app) full v)
    (hempty : v.queue = []) :
    ∃ u rest, Run.Restricts m inj.b.id s u ∧
      full = trace.filter (·.event.b.id = inj.b.id) ++ rest ∧ Run.Runs fuel' u rest v := by
  obtain ⟨u, hsolo, hrestricts⟩ :=
    (Run.restricts_start hm hfree hdistinct hinj app).runs hfree h
  obtain ⟨rest, hrest, htail⟩ := hsolo.split hfull hempty
  exact ⟨u, rest, hrestricts, hrest, htail⟩

/-- Every turn is about a bundle that was injected. -/
theorem Run.Runs.exists_injection (hm : m.Fresh) (hfree : ∀ node, m.handlers node = none)
    {fuel : ℕ} {app : σ} {s : Run σ} {trace : List Turn}
    (h : Run.Runs fuel (Run.start m app) trace s) :
    (∀ turn ∈ trace, ∃ inj ∈ m.pending, inj.b = turn.event.b) ∧
      ∀ ev ∈ s.queue, ∃ inj ∈ m.pending, inj.b = ev.b := by
  obtain ⟨hturns, hqueue⟩ := h.sends (h.configured (Run.configured_start hm app)).2
  exact ⟨fun turn hturn ↦ (hturns turn hturn).exists_injection hfree,
    fun ev hev ↦ (hqueue ev hev).exists_injection hfree⟩

end Independent

/-! ## Reports -/

theorem filter_flatMap_of_forall {α β : Type} {l : List α} {f : α → List β} {p : β → Bool}
    {q : α → Bool} (h : ∀ a ∈ l, ∀ b ∈ f a, p b = q a) :
    (l.flatMap f).filter p = (l.filter q).flatMap f := by
  induction l with
  | nil => rfl
  | cons a l ih =>
    rw [List.flatMap_cons, List.filter_append, ih fun b hb ↦ h b (List.mem_cons_of_mem a hb)]
    cases hq : q a with
    | true =>
      have hall : (f a).filter p = f a := by
        apply List.filter_eq_self.mpr
        intro b hb
        rw [h a List.mem_cons_self b hb, hq]
      rw [List.filter_cons_of_pos hq, hall, List.flatMap_cons]
    | false =>
      have hnone : (f a).filter p = [] := by
        apply List.filter_eq_nil_iff.mpr
        intro b hb
        rw [h a List.mem_cons_self b hb, hq]
        exact Bool.false_ne_true
      rw [List.filter_cons_of_neg (by simp [hq]), hnone, List.nil_append]

theorem Turn.bundleID_of_mem_deliveries {turn : Turn} {d : Delivery} (h : d ∈ turn.deliveries) :
    d.bundleID = turn.event.b.id := by
  unfold Turn.deliveries MeshEvent.deliveries at h
  cases hf : turn.fate with
  | delivered =>
    rw [hf] at h
    rw [List.mem_singleton.mp h]
  | _ =>
    rw [hf] at h
    cases h

section Reports

variable {m : Mesh σ} {fuel : ℕ} {app : σ} {s : Run σ} {trace : List Turn}

/-- What the report says about one bundle is what the turns about it report. -/
theorem Run.Runs.filter_events (h : Run.Runs fuel (Run.start m app) trace s)
    (bundleID : GoString) : s.report.events.filter (·.bundleID = bundleID) =
      (trace.filter (·.event.b.id = bundleID)).flatMap Turn.events := by
  rw [h.events_eq]
  apply filter_flatMap_of_forall
  intro turn _ e he
  rw [(Turn.of_mem_events he).2]

theorem Run.Runs.filter_deliveries (h : Run.Runs fuel (Run.start m app) trace s)
    (bundleID : GoString) : s.report.deliveries.filter (·.bundleID = bundleID) =
      (trace.filter (·.event.b.id = bundleID)).flatMap Turn.deliveries := by
  rw [h.deliveries_eq]
  apply filter_flatMap_of_forall
  intro turn _ d hd
  rw [Turn.bundleID_of_mem_deliveries hd]

end Reports

section Main

variable {m : Mesh σ}

/-- The run of one injection alone ends, and its turns are those about it in the run of all. -/
theorem Run.Runs.exists_alone (hm : m.Fresh) (hfree : ∀ node, m.handlers node = none)
    (hdistinct : (m.pending.map (·.b.id)).Nodup) {fuel : ℕ} {app : σ} {s : Run σ}
    {trace : List Turn} (h : Run.Runs fuel (Run.start m app) trace s) (hempty : s.queue = [])
    {inj : Injection} (hinj : inj ∈ m.pending) :
    ∃ v, Run.Runs fuel (Run.start (m.alone inj) app)
      (trace.filter (·.event.b.id = inj.b.id)) v ∧ v.queue = [] := by
  obtain ⟨v, hsolo, hrestricts⟩ := (Run.restricts_start hm hfree hdistinct hinj app).runs hfree h
  refine ⟨v, hsolo, ?_⟩
  rw [← hrestricts.queue, hempty]
  rfl

end Main

/-! ## Any order of the injections -/

/-- Two meshes over the same plan, without handlers, with the same injections of different bundles. -/
structure Mesh.Rearranged (m m' : Mesh σ) : Prop where
  fresh : m.Fresh
  fresh' : m'.Fresh
  free : ∀ node, m.handlers node = none
  free' : ∀ node, m'.handlers node = none
  distinct : (m.pending.map (·.b.id)).Nodup
  plan : m'.plan = m.plan
  perm : m'.pending.Perm m.pending

theorem length_le_of_filter {α κ : Type} [DecidableEq κ] (key : α → κ) {l l' : List α}
    (h : ∀ a ∈ l', (l'.filter fun b ↦ key b = key a).length ≤
      (l.filter fun b ↦ key b = key a).length) : l'.length ≤ l.length := by
  have hcount (l : List α) (k : κ) :
      (l.map key).count k = (l.filter fun b ↦ key b = k).length := by
    rw [List.count_eq_countP, List.countP_map, List.countP_eq_length_filter]
    rfl
  have hsub : List.Subperm (l'.map key) (l.map key) := by
    apply List.subperm_ext_iff.mpr
    intro k hk
    obtain ⟨a, ha, rfl⟩ := List.mem_map.mp hk
    rw [hcount, hcount]
    exact h a ha
  have hlen := hsub.length_le
  rwa [List.length_map, List.length_map] at hlen

theorem Run.Runs.eq_nil {fuel : ℕ} {s s' : Run σ} {trace : List Turn}
    (h : Run.Runs fuel s trace s') (hempty : s.queue = []) : trace = [] := by
  cases h with
  | nil => rfl
  | cons hpop =>
    rw [BinaryHeap.pop_eq_none.mpr hempty] at hpop
    cases hpop

section Rearranged

variable {m m' : Mesh σ} {fuel fuel' : ℕ} {app : σ} {s t : Run σ} {trace trace' : List Turn}

/-- For each bundle the turns of the second run are those of the first, as far as it has come. -/
theorem Mesh.Rearranged.begins (hm : m.Rearranged m')
    (h : Run.Runs fuel (Run.start m app) trace s) (hempty : s.queue = [])
    (h' : Run.Runs fuel' (Run.start m' app) trace' t) {inj : Injection} (hinj : inj ∈ m.pending) :
    ∃ u v rest, Run.Restricts m' inj.b.id t u ∧ Run.Runs fuel u rest v ∧ v.queue = [] ∧
      trace.filter (·.event.b.id = inj.b.id) =
        trace'.filter (·.event.b.id = inj.b.id) ++ rest := by
  obtain ⟨v, hsolo, hv⟩ := h.exists_alone hm.fresh hm.free hm.distinct hempty hinj
  have hsame : m'.alone inj = m.alone inj := by
    unfold Mesh.alone
    rw [hm.plan]
  have hdistinct : (m'.pending.map (·.b.id)).Nodup := (hm.perm.map _).nodup_iff.mpr hm.distinct
  rw [← hsame] at hsolo
  obtain ⟨u, rest, hrestricts, hrest, htail⟩ :=
    h'.split_alone hm.fresh' hm.free' hdistinct (hm.perm.mem_iff.mpr hinj) hsolo hv
  exact ⟨u, v, rest, hrestricts, htail, hv, hrest⟩

theorem Mesh.Rearranged.exists_injection (hm : m.Rearranged m')
    (h' : Run.Runs fuel' (Run.start m' app) trace' t) :
    (∀ turn ∈ trace', ∃ inj ∈ m.pending, inj.b = turn.event.b) ∧
      ∀ ev ∈ t.queue, ∃ inj ∈ m.pending, inj.b = ev.b := by
  obtain ⟨hturns, hqueue⟩ := h'.exists_injection hm.fresh' hm.free'
  simp only [hm.perm.mem_iff] at hturns hqueue
  exact ⟨hturns, hqueue⟩

theorem Mesh.Rearranged.length_le (hm : m.Rearranged m')
    (h : Run.Runs fuel (Run.start m app) trace s) (hempty : s.queue = [])
    (h' : Run.Runs fuel' (Run.start m' app) trace' t) : trace'.length ≤ trace.length := by
  apply length_le_of_filter fun turn : Turn ↦ turn.event.b.id
  intro turn hturn
  obtain ⟨inj, hinj, hb⟩ := (hm.exists_injection h').1 turn hturn
  obtain ⟨u, v, rest, -, -, -, hsplit⟩ := hm.begins h hempty h' hinj
  rw [hb] at hsplit
  rw [hsplit, List.length_append]
  exact Nat.le_add_right _ _

/-- The search that the next turn of the second run needs has come back in the first run. -/
theorem Mesh.Rearranged.exists_fate (hm : m.Rearranged m')
    (h : Run.Runs fuel (Run.start m app) trace s) (hempty : s.queue = [])
    (h' : Run.Runs fuel' (Run.start m' app) trace' t) {ev : MeshEvent} {queue : List MeshEvent}
    (hpop : BinaryHeap.pop (·.time) t.queue = some (ev, queue)) :
    ∃ fuel f, fate fuel (t.mesh.nodeAt ev.nodeID) ev = some f := by
  have hev : ev ∈ t.queue := (BinaryHeap.pop_perm hpop).mem_iff.mpr List.mem_cons_self
  obtain ⟨inj, hinj, hb⟩ := (hm.exists_injection h').2 ev hev
  obtain ⟨u, v, rest, hrestricts, htail, hv, -⟩ := hm.begins h hempty h' hinj
  have hid : ev.b.id = inj.b.id := congrArg Bundle.id hb.symm
  have hqueue := (hrestricts.pop_same hid hpop).1
  cases htail with
  | nil =>
    rw [hv] at hqueue
    cases hqueue
  | cons hpop' hfate _ =>
    rw [hqueue] at hpop'
    cases hpop'
    exact ⟨fuel, _, (hrestricts.fate_eq hid fuel).trans hfate⟩

/-- Once the second run has ended too, the two agree about every bundle. -/
theorem Mesh.Rearranged.filter_eq (hm : m.Rearranged m')
    (h : Run.Runs fuel (Run.start m app) trace s) (hempty : s.queue = [])
    (h' : Run.Runs fuel' (Run.start m' app) trace' t) (hempty' : t.queue = [])
    (bundleID : GoString) : trace'.filter (·.event.b.id = bundleID) =
      trace.filter (·.event.b.id = bundleID) := by
  by_cases hmem : ∃ inj ∈ m.pending, inj.b.id = bundleID
  · obtain ⟨inj, hinj, rfl⟩ := hmem
    obtain ⟨u, v, rest, hrestricts, htail, -, hsplit⟩ := hm.begins h hempty h' hinj
    have hnil : rest = [] := by
      apply htail.eq_nil
      rw [← hrestricts.queue, hempty']
      rfl
    rw [hsplit, hnil, List.append_nil]
  · have hnone (l : List Turn) (hl : ∀ turn ∈ l, ∃ inj ∈ m.pending, inj.b = turn.event.b) :
        l.filter (·.event.b.id = bundleID) = [] := by
      apply List.filter_eq_nil_iff.mpr
      intro turn hturn hid
      obtain ⟨inj, hinj, hb⟩ := hl turn hturn
      exact hmem ⟨inj, hinj, (congrArg Bundle.id hb).trans (of_decide_eq_true hid)⟩
    rw [hnone trace' (hm.exists_injection h').1,
      hnone trace (h.exists_injection hm.fresh hm.free).1]

/-- So the second run ends as well. -/
theorem Mesh.Rearranged.exists_done (hm : m.Rearranged m')
    (h : Run.Runs fuel (Run.start m app) trace s) (hempty : s.queue = []) :
    ∃ fuel' trace' t, Run.Runs fuel' (Run.start m' app) trace' t ∧ t.queue = [] :=
  Run.Runs.exists_done fun _ _ _ h' ↦
    ⟨hm.length_le h hempty h', fun _ _ hpop ↦ hm.exists_fate h hempty h' hpop⟩

end Rearranged

/-- No bundle disturbs another: each has the events that it has alone, and any order of the injections
leads to the same deliveries. -/
theorem run_independent {m : Mesh σ} (hm : m.Fresh) (hfree : ∀ node, m.handlers node = none)
    (hdistinct : (m.pending.map (·.b.id)).Nodup) {fuel : ℕ} {app : σ} {s : Run σ}
    (h : m.run fuel app = some s) (hempty : s.queue = []) :
    (∀ inj ∈ m.pending, ∃ v, (m.alone inj).run fuel app = some v ∧ v.queue = [] ∧
      v.report.events = s.report.events.filter (·.bundleID = inj.b.id)) ∧
    ∀ m' : Mesh σ, m'.Fresh → (∀ node, m'.handlers node = none) → m'.plan = m.plan →
      m'.pending.Perm m.pending → ∃ fuel' t, m'.run fuel' app = some t ∧ t.queue = [] ∧
        (∀ bundleID, t.report.events.filter (·.bundleID = bundleID) =
          s.report.events.filter (·.bundleID = bundleID)) ∧
        t.report.deliveries.Perm s.report.deliveries := by
  obtain ⟨trace, hruns, hlen, -⟩ := Run.loop_eq_some.mp h
  constructor
  · intro inj hinj
    obtain ⟨v, hsolo, hv⟩ := hruns.exists_alone hm hfree hdistinct hempty hinj
    have hle := List.length_filter_le (fun turn ↦ turn.event.b.id = inj.b.id) trace
    refine ⟨v, Run.loop_eq_some.mpr ⟨_, hsolo, hle.trans hlen, fun _ ↦ hv⟩, hv, ?_⟩
    rw [hruns.filter_events]
    exact hsolo.events_eq
  · intro m' hm' hfree' hplan hperm
    have hsame : m.Rearranged m' := ⟨hm, hm', hfree, hfree', hdistinct, hplan, hperm⟩
    obtain ⟨fuel', trace', t, hruns', hempty'⟩ := hsame.exists_done hruns hempty
    have hle := (hsame.length_le hruns hempty hruns').trans hlen
    have hfilter := hsame.filter_eq hruns hempty hruns' hempty'
    refine ⟨fuel', t, Run.loop_eq_some.mpr ⟨trace', hruns', hle, fun _ ↦ hempty'⟩, hempty',
      fun bundleID ↦ ?_, ?_⟩
    · rw [hruns'.filter_events, hruns.filter_events, hfilter]
    · apply List.perm_iff_count.mpr
      intro d
      have hdeliveries : t.report.deliveries.filter (·.bundleID = d.bundleID) =
          s.report.deliveries.filter (·.bundleID = d.bundleID) := by
        rw [hruns'.filter_deliveries, hruns.filter_deliveries, hfilter]
      have hcount (l : List Delivery) : l.count d =
          (l.filter (·.bundleID = d.bundleID)).count d :=
        (List.count_filter (by simp)).symm
      rw [hcount, hdeliveries, ← hcount]

theorem run_independent_crowdedMesh : ∃ s, crowdedMesh.run 10 () = some s ∧
    (∀ inj ∈ crowdedMesh.pending, ∃ v, (crowdedMesh.alone inj).run 10 () = some v ∧
      v.queue = [] ∧ v.report.events = s.report.events.filter (·.bundleID = inj.b.id)) ∧
    ∀ m' : Mesh Unit, m'.Fresh → (∀ node, m'.handlers node = none) →
      m'.plan = crowdedMesh.plan → m'.pending.Perm crowdedMesh.pending →
      ∃ fuel' t, m'.run fuel' () = some t ∧ t.queue = [] ∧
        (∀ bundleID, t.report.events.filter (·.bundleID = bundleID) =
          s.report.events.filter (·.bundleID = bundleID)) ∧
        t.report.deliveries.Perm s.report.deliveries := by
  have hrun : (crowdedMesh.run 10 ()).map (·.queue.length) = some 0 := by decide +kernel
  obtain ⟨s, hs, hlen⟩ := Option.map_eq_some_iff.mp hrun
  exact ⟨s, hs, run_independent fresh_crowdedMesh (fun _ ↦ rfl) (by decide +kernel) hs
    (List.eq_nil_of_length_eq_zero hlen)⟩

end Zenith.Sim
