import Zenith.Node.Store

/-!
# A node over its history

Whatever is called on a node, its collections agree with each other and with the record of what
`Ingest` stored. An ID is seen for good, so that one that has left the store stays out.
-/

namespace Zenith.Dtn.Node

open Go Bpv7 Cgr

/-- A call that changes a node. -/
inductive Call
  | ingest (b : Bundle) (now : Time)
  | dequeue (bundleID : GoString)

/-- The node after a call. -/
def step (n : Node) : Call → Node
  | .ingest b now => (n.ingest b now).2
  | .dequeue bundleID => n.dequeue bundleID

def run (n : Node) (calls : List Call) : Node := calls.foldl step n

/-- The ID that a call stores. -/
def storing (n : Node) : Call → List GoString
  | .ingest b now => if (n.ingest b now).1 = .stored then [b.id] else []
  | .dequeue _ => []

/-- The IDs that calls store, in order. -/
def storings (n : Node) : List Call → List GoString
  | [] => []
  | call :: calls => n.storing call ++ (n.step call).storings calls

/-- The call takes the ID out of the store, or disposes of a bundle with it on arrival. -/
def Disposes (n : Node) (id : GoString) : Call → Prop
  | .ingest b now =>
    b.id = id ∧ ((n.ingest b now).1 = .delivered ∨ (n.ingest b now).1 = .expired)
  | .dequeue bundleID => bundleID = id ∧ (n.store id).isSome = true

@[simp] theorem run_nil (n : Node) : n.run [] = n := rfl
@[simp] theorem run_cons (n : Node) (call : Call) (calls : List Call) :
    n.run (call :: calls) = (n.step call).run calls := rfl

theorem run_append (n : Node) (calls calls' : List Call) :
    n.run (calls ++ calls') = (n.run calls).run calls' := List.foldl_append

/-- A node whose collections agree, with the record of what was stored. -/
structure Recorded (n : Node) (record : List GoString) : Prop extends n.Consistent where
  order_eq : n.order = record.filter fun id ↦ (n.store id).isSome
  record_nodup : record.Nodup
  record_seen : ∀ id ∈ record, n.seen.isSet id = true
  delivered_seen : ∀ b ∈ n.delivered, n.seen.isSet b.id = true
  delivered_nodup : (n.delivered.map Bundle.id).Nodup
  delivered_not_stored : ∀ b ∈ n.delivered, n.store b.id = none

theorem recorded_new (id : GoString) (plan : Option ContactPlan) : (new id plan).Recorded [] where
  toConsistent := consistent_new id plan
  order_eq := rfl
  record_nodup := List.nodup_nil
  record_seen := by simp
  delivered_seen := by simp
  delivered_nodup := List.nodup_nil
  delivered_not_stored := by simp

namespace Recorded

variable {n : Node} {record : List GoString}

theorem nodup_append_singleton {α : Type} {l : List α} {a : α} (hl : l.Nodup) (ha : a ∉ l) :
    (l ++ [a]).Nodup := by
  rw [List.nodup_append_comm]
  exact List.nodup_cons.mpr ⟨ha, hl⟩

/-- Seen IDs, and one more, stay seen. -/
theorem isSet_insert_of (id : GoString) {key : GoString} (h : n.seen.isSet key = true) :
    (n.seen.insert id true).isSet key = true := by
  rw [GoMap.isSet_insert, h, Bool.or_true]

theorem ne_of_seen {id key : GoString} (hseen : n.seen.isSet id = true)
    (hnew : n.seen.isSet key = false) : id ≠ key := by
  rintro rfl
  rw [hnew] at hseen
  cases hseen

theorem store_of_unseen (h : n.Recorded record) {id : GoString} (hnew : n.seen.isSet id = false) :
    n.store id = none := by
  by_contra hstored
  exact ne_of_seen (h.seen id (Option.isSome_iff_ne_none.mpr hstored)) hnew rfl

/-- A bundle is delivered that was not seen before. -/
theorem deliver (h : n.Recorded record) {b : Bundle} (hnew : n.seen.isSet b.id = false)
    (hconsistent : Consistent
      { n with seen := n.seen.insert b.id true, delivered := n.delivered ++ [b] }) :
    Recorded { n with seen := n.seen.insert b.id true, delivered := n.delivered ++ [b] } record := by
  have hfresh : b.id ∉ n.delivered.map Bundle.id := by
    intro hmem
    obtain ⟨b', hb', hid⟩ := List.mem_map.mp hmem
    exact ne_of_seen (h.delivered_seen b' hb') hnew hid
  refine ⟨hconsistent, h.order_eq, h.record_nodup,
    fun id hid ↦ isSet_insert_of _ (h.record_seen id hid), fun b' hb' ↦ ?_, ?_, fun b' hb' ↦ ?_⟩
  · rcases List.mem_append.mp hb' with hb' | hb'
    · exact isSet_insert_of _ (h.delivered_seen b' hb')
    · rw [List.mem_singleton.mp hb', GoMap.isSet_insert]
      simp
  · rw [List.map_append]
    exact nodup_append_singleton h.delivered_nodup hfresh
  · rcases List.mem_append.mp hb' with hb' | hb'
    · exact h.delivered_not_stored b' hb'
    · rw [List.mem_singleton.mp hb']
      exact h.store_of_unseen hnew

/-- A bundle is stored that was not seen before. -/
theorem file (h : n.Recorded record) {b : Bundle} (hnew : n.seen.isSet b.id = false)
    (hconsistent : Consistent { n with
      seen := n.seen.insert b.id true
      store := n.store.insert b.id b
      order := n.order ++ [b.id] }) :
    Recorded { n with
      seen := n.seen.insert b.id true
      store := n.store.insert b.id b
      order := n.order ++ [b.id] } (record ++ [b.id]) := by
  have hunrecorded : b.id ∉ record := fun hmem ↦ ne_of_seen (h.record_seen b.id hmem) hnew rfl
  have hold : (record.filter fun id ↦ (n.store.insert b.id b id).isSome) =
      record.filter fun id ↦ (n.store id).isSome := by
    apply List.filter_congr
    intro id hid
    rw [GoMap.insert_of_ne]
    exact fun heq ↦ hunrecorded (heq ▸ hid)
  refine ⟨hconsistent, ?_, nodup_append_singleton h.record_nodup hunrecorded, fun id hid ↦ ?_,
    fun b' hb' ↦ isSet_insert_of _ (h.delivered_seen b' hb'), h.delivered_nodup, fun b' hb' ↦ ?_⟩
  · rw [List.filter_append, hold, ← h.order_eq]
    simp
  · rcases List.mem_append.mp hid with hid | hid
    · exact isSet_insert_of _ (h.record_seen id hid)
    · rw [List.mem_singleton.mp hid, GoMap.isSet_insert]
      simp
  · have hne : b'.id ≠ b.id := ne_of_seen (h.delivered_seen b' hb') hnew
    exact (GoMap.insert_of_ne _ _ hne).trans (h.delivered_not_stored b' hb')

theorem ingest (h : n.Recorded record) (b : Bundle) (now : Time) :
    (n.ingest b now).2.Recorded (record ++ n.storing (.ingest b now)) := by
  have hconsistent := h.toConsistent.ingest b now
  rcases n.ingest_cases b now with
    ⟨-, hingest⟩ | ⟨-, -, hingest⟩ | ⟨hnew, -, -, hingest⟩ | ⟨hnew, -, -, hingest⟩
  · simpa [storing, hingest] using h
  · rw [hingest] at hconsistent
    simp only [storing, hingest, reduceCtorEq, if_false, List.append_nil]
    exact ⟨hconsistent, h.order_eq, h.record_nodup,
      fun id hid ↦ isSet_insert_of _ (h.record_seen id hid),
      fun b' hb' ↦ isSet_insert_of _ (h.delivered_seen b' hb'), h.delivered_nodup,
      h.delivered_not_stored⟩
  · rw [hingest] at hconsistent
    simp only [storing, hingest, reduceCtorEq, if_false, List.append_nil]
    exact h.deliver hnew hconsistent
  · rw [hingest] at hconsistent
    simp only [storing, hingest, if_true]
    exact h.file hnew hconsistent

theorem dequeue (h : n.Recorded record) (bundleID : GoString) :
    (n.dequeue bundleID).Recorded record := by
  have hconsistent := h.toConsistent.dequeue bundleID
  refine ⟨hconsistent, ?_, h.record_nodup, ?_, ?_, ?_, ?_⟩
  · have hkeep : (fun id ↦ ((n.dequeue bundleID).store id).isSome) =
        fun id ↦ decide (id ≠ bundleID) && (n.store id).isSome := by
      funext id
      rw [store_dequeue]
      by_cases hid : id = bundleID <;> simp [hid]
    rw [hkeep, ← List.filter_filter, ← h.order_eq]
    unfold Node.dequeue
    cases hstore : n.store bundleID with
    | none =>
      refine (List.filter_eq_self.mpr fun id hid ↦ ?_).symm
      have hstored := (h.mem_order id).mp hid
      apply decide_eq_true
      rintro rfl
      rw [hstore] at hstored
      cases hstored
    | some b =>
      rw [h.nodup.erase_eq_filter]
      apply List.filter_congr
      intro id _
      by_cases hid : id = bundleID <;> simp [hid]
  · rw [dequeue_seen]
    exact h.record_seen
  · rw [dequeue_seen, dequeue_delivered]
    exact h.delivered_seen
  · rw [dequeue_delivered]
    exact h.delivered_nodup
  · intro b hb
    rw [dequeue_delivered] at hb
    rw [store_dequeue, h.delivered_not_stored b hb, ite_self]

theorem step (h : n.Recorded record) (call : Call) :
    (n.step call).Recorded (record ++ n.storing call) := by
  cases call with
  | ingest b now => exact h.ingest b now
  | dequeue bundleID =>
    rw [storing, List.append_nil]
    exact h.dequeue bundleID

/-- The record of a run goes on from what was recorded before it. -/
theorem run (h : n.Recorded record) (calls : List Call) :
    (n.run calls).Recorded (record ++ n.storings calls) := by
  induction calls generalizing n record with
  | nil => simpa [storings] using h
  | cons call calls ih =>
    have hrun := ih (h.step call)
    rwa [List.append_assoc] at hrun

theorem none_notMem_stored (h : n.Recorded record) : none ∉ n.stored := by
  intro hmem
  obtain ⟨id, hid, hnone⟩ := List.mem_map.mp hmem
  have hstored := (h.mem_order id).mp hid
  rw [hnone] at hstored
  cases hstored

end Recorded

/-! ## What is gone stays out -/

/-- The ID was seen and is not stored. -/
def Gone (n : Node) (id : GoString) : Prop := n.seen.isSet id = true ∧ n.store id = none

theorem Gone.step {n : Node} {id : GoString} (h : n.Gone id) (call : Call) :
    (n.step call).Gone id := by
  obtain ⟨hseen, hstore⟩ := h
  cases call with
  | ingest b now =>
    refine ⟨?_, ?_⟩
    · change (n.ingest b now).2.seen.isSet id = true
      rw [isSet_ingest_seen, hseen, Bool.or_true]
    · change (n.ingest b now).2.store id = none
      rw [store_ingest, hstore]
      apply if_neg
      rintro ⟨rfl, hnew, -⟩
      rw [hseen] at hnew
      cases hnew
  | dequeue bundleID =>
    refine ⟨?_, ?_⟩
    · change (n.dequeue bundleID).seen.isSet id = true
      rw [dequeue_seen, hseen]
    · change (n.dequeue bundleID).store id = none
      rw [store_dequeue, hstore, ite_self]

theorem Gone.run {n : Node} {id : GoString} (h : n.Gone id) (calls : List Call) :
    (n.run calls).Gone id := by
  induction calls generalizing n with
  | nil => exact h
  | cons call calls ih => exact ih (h.step call)

theorem Recorded.gone_of_disposes {n : Node} {record : List GoString} (h : n.Recorded record)
    {id : GoString} {call : Call} (hcall : n.Disposes id call) : (n.step call).Gone id := by
  cases call with
  | ingest b now =>
    obtain ⟨rfl, hresult⟩ := hcall
    refine ⟨?_, ?_⟩
    · change (n.ingest b now).2.seen.isSet b.id = true
      rw [isSet_ingest_seen]
      simp
    · change (n.ingest b now).2.store b.id = none
      rcases n.ingest_cases b now with ⟨-, hingest⟩ | ⟨hnew, -, hingest⟩ | ⟨hnew, -, -, hingest⟩ |
        ⟨-, -, -, hingest⟩
      · simp [hingest] at hresult
      · rw [hingest]
        exact h.store_of_unseen hnew
      · rw [hingest]
        exact h.store_of_unseen hnew
      · simp [hingest] at hresult
  | dequeue bundleID =>
    obtain ⟨rfl, hstored⟩ := hcall
    refine ⟨?_, ?_⟩
    · change (n.dequeue bundleID).seen.isSet bundleID = true
      rw [dequeue_seen]
      exact h.seen bundleID hstored
    · change (n.dequeue bundleID).store bundleID = none
      rw [store_dequeue, if_pos rfl]

/-- After any calls on a new node the collections agree, the order is that of storing, nothing that
`Stored` returns is nil, and an ID that was dequeued, delivered or expired is not stored again. -/
theorem representation_invariant (id : GoString) (plan : Option ContactPlan) (calls : List Call) :
    ((new id plan).run calls).Recorded ((new id plan).storings calls) ∧
      none ∉ ((new id plan).run calls).stored ∧
      ∀ (key : GoString) (call : Call) (later : List Call),
        ((new id plan).run calls).Disposes key call →
          ((new id plan).run (calls ++ call :: later)).store key = none := by
  have hrecorded := (recorded_new id plan).run calls
  rw [List.nil_append] at hrecorded
  refine ⟨hrecorded, hrecorded.none_notMem_stored, fun key call later hcall ↦ ?_⟩
  rw [run_append, run_cons]
  exact ((hrecorded.gone_of_disposes hcall).run later).2

end Zenith.Dtn.Node
