import Zenith.Node.Node

/-!
# What a node stores

The order lists the IDs under which something is stored, each once. A bundle is stored under its own
ID, which was seen.
-/

namespace Zenith.Dtn.Node

open Go Bpv7 Cgr

structure Consistent (n : Node) : Prop where
  nodup : n.order.Nodup
  mem_order : ∀ id, id ∈ n.order ↔ (n.store id).isSome = true
  filed : ∀ id b, n.store id = some b → b.id = id
  seen : ∀ id, (n.store id).isSome = true → n.seen.isSet id = true

theorem consistent_new (id : GoString) (plan : Option ContactPlan) : (new id plan).Consistent where
  nodup := List.nodup_nil
  mem_order := by
    intro id
    simp [new]
  filed := by
    intro id b h
    cases h
  seen := by
    intro id h
    cases h

namespace Consistent

variable {n : Node}

theorem ingest (h : n.Consistent) (b : Bundle) (now : Time) : (n.ingest b now).2.Consistent := by
  have hseen (id : GoString) (hid : (n.store id).isSome = true) :
      (n.seen.insert b.id true).isSet id = true := by
    rw [GoMap.isSet_insert, h.seen id hid, Bool.or_true]
  rcases n.ingest_cases b now with
    ⟨-, hingest⟩ | ⟨-, -, hingest⟩ | ⟨-, -, -, hingest⟩ | ⟨hnew, -, -, hingest⟩
  · rw [hingest]
    exact h
  · rw [hingest]
    exact ⟨h.nodup, h.mem_order, h.filed, hseen⟩
  · rw [hingest]
    exact ⟨h.nodup, h.mem_order, h.filed, hseen⟩
  · rw [hingest]
    have hfree : b.id ∉ n.order := by
      rw [h.mem_order]
      intro hstored
      cases hnew.symm.trans (h.seen b.id hstored)
    refine ⟨?_, fun id ↦ ?_, fun id b' hb' ↦ ?_, fun id hid ↦ ?_⟩
    · apply List.nodup_append.mpr
      refine ⟨h.nodup, List.nodup_singleton _, fun x hx y hy hxy ↦ hfree ?_⟩
      rwa [← List.mem_singleton.mp hy, ← hxy]
    · dsimp only
      rw [List.mem_append, List.mem_singleton, GoMap.insert_apply, h.mem_order]
      by_cases hid : id = b.id <;> simp [hid]
    · dsimp only at hb'
      rw [GoMap.insert_apply] at hb'
      split_ifs at hb' with hid
      · cases hb'
        exact hid.symm
      · exact h.filed id b' hb'
    · dsimp only at hid ⊢
      rw [GoMap.insert_apply] at hid
      split_ifs at hid with hself
      · rw [GoMap.isSet_insert, decide_eq_true hself, Bool.true_or]
      · exact hseen id hid

theorem dequeue (h : n.Consistent) (bundleID : GoString) : (n.dequeue bundleID).Consistent := by
  unfold Node.dequeue
  cases n.store bundleID with
  | none => exact h
  | some b =>
    refine ⟨h.nodup.erase bundleID, fun id ↦ ?_, fun id b' hb' ↦ ?_, fun id hid ↦ ?_⟩
    · dsimp only
      rw [h.nodup.mem_erase_iff, GoMap.erase_apply, h.mem_order]
      by_cases hid : id = bundleID <;> simp [hid]
    · dsimp only at hb'
      rw [GoMap.erase_apply] at hb'
      split_ifs at hb'
      exact h.filed id b' hb'
    · dsimp only at hid ⊢
      rw [GoMap.erase_apply] at hid
      split_ifs at hid
      · cases hid
      · exact h.seen id hid

/-- What is stored is there in one copy. -/
theorem countP_stored (h : n.Consistent) {id : GoString} (hid : (n.store id).isSome = true) :
    n.stored.countP (fun copy ↦ copy.map Bundle.id = some id) = 1 := by
  have hcopies : n.order.countP (fun key ↦ (n.store key).map Bundle.id = some id) =
      n.order.count id := by
    apply List.countP_congr
    intro key hkey
    obtain ⟨b, hb⟩ := Option.isSome_iff_exists.mp ((h.mem_order key).mp hkey)
    rw [hb, Option.map_some, h.filed key b hb]
    simp
  unfold Node.stored
  rw [List.countP_map]
  exact hcopies.trans (List.count_eq_one_of_mem h.nodup ((h.mem_order id).mpr hid))

end Consistent

/-! ## The store after a call -/

theorem store_dequeue (n : Node) (bundleID id : GoString) :
    (n.dequeue bundleID).store id = if id = bundleID then none else n.store id := by
  unfold dequeue
  cases hstore : n.store bundleID with
  | none =>
    split_ifs with hid
    · rw [hid, hstore]
    · rfl
  | some b => exact GoMap.erase_apply n.store bundleID id

/-- An ID that is stored by `Ingest` was not seen before. -/
theorem store_ingest (n : Node) (b : Bundle) (now : Time) (id : GoString) :
    (n.ingest b now).2.store id =
      if id = b.id ∧ n.seen.isSet b.id = false ∧ b.expired now = false ∧
        b.primary.destination.nodeID ≠ n.id then some b else n.store id := by
  rcases n.ingest_cases b now with ⟨hseen, hingest⟩ | ⟨-, hexpired, hingest⟩ |
    ⟨-, -, hdest, hingest⟩ | ⟨hnew, hlive, hdest, hingest⟩
  · rw [hingest]
    simp [hseen]
  · rw [hingest]
    simp [hexpired]
  · rw [hingest]
    simp [hdest]
  · rw [hingest]
    dsimp only
    rw [GoMap.insert_apply]
    by_cases hid : id = b.id <;> simp [hid, hnew, hlive, hdest]

end Zenith.Dtn.Node
