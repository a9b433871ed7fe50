import Zenith.Cgr.Optimal
import Zenith.Contactplan.Load

/-!
# When the search comes back

The loop over the queue always ends; the walk back along the predecessors need not. A light time
below zero lets a contact improve a node that was settled before, and where that node is an ancestor
of the contact the predecessors close a loop that never reaches the source.
-/

namespace Zenith.Cgr

open Go EarliestArrival

/-- The predecessors at the end of a search, for any light times. -/
theorem settling_of_search {p : ContactPlan} {source dest : GoString} {sizeBytes : ℤ}
    {readyAt arrival : Time} {fuel : ℕ} {pred : GoMap GoString Contact}
    (h : search p dest sizeBytes fuel (Search.start source readyAt) = some (some (pred, arrival))) :
    ∃ L left, Settling (p.graph sizeBytes) source readyAt L left ∧ L.parent = pred ∧
      L.label dest = some arrival := by
  obtain ⟨L, left, hsettling, -, -, hend⟩ := search_rule (P := fun _ _ ↦ True)
    (fun _ _ _ _ _ _ ↦ trivial) (explores_start p sizeBytes source readyAt) trivial rfl h
  rcases hend with ⟨hnone, -⟩ | ⟨arrival', hsome, hlabel, -⟩
  · cases hnone
  · cases hsome
    exact ⟨L, left, hsettling, rfl, hlabel⟩

theorem mem_collect {pred : GoMap GoString Contact} {source node : GoString} {fuel : ℕ}
    {hops result : List Contact} (h : collect pred source fuel node hops = some result)
    {c : Contact} (hc : c ∈ result) : c ∈ hops ∨ ∃ n, pred n = some c := by
  induction fuel generalizing node hops with
  | zero => cases h
  | succ fuel ih =>
    unfold collect at h
    by_cases hsource : node = source
    · rw [if_pos hsource] at h
      cases h
      exact .inl hc
    · rw [if_neg hsource] at h
      cases hpred : pred node with
      | none =>
        rw [hpred] at h
        cases h
        exact .inl hc
      | some e =>
        rw [hpred] at h
        rcases ih h with hold | hparent
        · rcases List.mem_append.mp hold with hmem | hlast
          · exact .inl hmem
          · exact .inr ⟨node, (List.mem_singleton.mp hlast) ▸ hpred⟩
        · exact .inr hparent

/-- Whatever the light times are, the hops of a route are contacts of the plan. -/
theorem mem_contacts_of_findRoute {p : ContactPlan} {fuel : ℕ} {source dest : GoString}
    {sizeBytes : ℤ} {readyAt : Time} {r : Route} {found : Bool}
    (h : p.findRoute fuel source dest sizeBytes readyAt = some (r, found)) {c : Contact}
    (hc : c ∈ r.hops) : c ∈ p.contacts := by
  by_cases hne : source = dest
  · rw [ContactPlan.findRoute, if_pos hne] at h
    cases h
    cases hc
  · rcases (findRoute_eq_some hne).mp h with ⟨-, hresult⟩ |
      ⟨pred, arrival, hops, hsearch, hcollect, hresult⟩
    · cases hresult
      cases hc
    · cases hresult
      obtain ⟨L, left, hsettling, rfl, -⟩ := settling_of_search hsearch
      rcases mem_collect hcollect (List.mem_reverse.mp hc) with hnil | ⟨node, hnode⟩
      · cases hnil
      · exact (hsettling.parent_label node c hnode).1

/-- A set of nodes that the predecessors do not leave and that misses the source holds the walk. -/
theorem collect_eq_none {pred : GoMap GoString Contact} {source node : GoString}
    {S : Set GoString}
    (hS : ∀ n ∈ S, n ≠ source ∧ ∃ c, pred n = some c ∧ c.fromNode ∈ S) (hnode : node ∈ S)
    (fuel : ℕ) (hops : List Contact) : collect pred source fuel node hops = none := by
  induction fuel generalizing node hops with
  | zero => rfl
  | succ fuel ih =>
    obtain ⟨hne, c, hc, hmem⟩ := hS node hnode
    rw [collect, if_neg hne, hc]
    exact ih hmem _

/-- A walk that cannot leave a set of nodes without the source keeps the search from coming back. -/
theorem findRoute_eq_none {p : ContactPlan} {source dest : GoString} {sizeBytes : ℤ}
    {readyAt arrival : Time} {fuel : ℕ} {pred : GoMap GoString Contact} {S : Set GoString}
    (hsearch : search p dest sizeBytes fuel (Search.start source readyAt) = some (some (pred, arrival)))
    (hS : ∀ n ∈ S, n ≠ source ∧ ∃ m ∈ S, (pred n).map (·.fromNode) = some m) (hdest : dest ∈ S)
    (fuel' : ℕ) : p.findRoute fuel' source dest sizeBytes readyAt = none := by
  have hloop : ∀ n ∈ S, n ≠ source ∧ ∃ c, pred n = some c ∧ c.fromNode ∈ S := by
    intro n hn
    obtain ⟨hne, m, hm, hpred⟩ := hS n hn
    obtain ⟨c, hc, rfl⟩ := Option.map_eq_some_iff.mp hpred
    exact ⟨hne, c, hc, hm⟩
  cases hresult : p.findRoute fuel' source dest sizeBytes readyAt with
  | none => rfl
  | some result =>
    rcases (findRoute_eq_some (hS dest hdest).1.symm).mp hresult with
      ⟨hnone, -⟩ | ⟨pred', arrival', hops, hsome, hcollect, -⟩
    · cases search_unique hnone hsearch
    · cases search_unique hsome hsearch
      rw [collect_eq_none hloop hdest] at hcollect
      cases hcollect

end Zenith.Cgr

namespace Zenith.Contactplan

open Go Cgr EarliestArrival

/-- A link with a light time in milliseconds. -/
def alwaysOpen (fromNode toNode : GoString) (owltMs : ℤ) : Contact :=
  ⟨fromNode, toNode, 0, 100 * second, 0, owltMs * millisecond, 1⟩

/-- A loop from `a` over `b` and `c` that is closed when the search leaves `c`. The way from `b` to `c`
takes as long as that to `d`. -/
def loopedPlan (first last : GoString) : ContactPlan := .newContactPlan
  [alwaysOpen (lit "s") (lit "a") 10, alwaysOpen (lit "a") (lit "b") 2, alwaysOpen (lit "b") first 3,
    alwaysOpen (lit "b") last 3, alwaysOpen (lit "c") (lit "a") (-6)]

/-- Which contacts a plan has does not decide whether the search comes back: it also depends on their
order, by which the queue hands out entries with the same time. -/
theorem findRoute_diverges_of_perm : ∃ p p' : ContactPlan, p.contacts.Perm p'.contacts ∧
    (∃ fuel r, p.findRoute fuel (lit "s") (lit "d") 0 0 = some (r, true)) ∧
    ∀ fuel, p'.findRoute fuel (lit "s") (lit "d") 0 0 = none := by
  have hperm : (loopedPlan (lit "d") (lit "c")).contacts.Perm (loopedPlan (lit "c") (lit "d")).contacts := by
    rw [loopedPlan, loopedPlan, ContactPlan.contacts_newContactPlan, ContactPlan.contacts_newContactPlan]
    exact .cons _ (.cons _ (.swap _ _ _))
  have hfound : ((loopedPlan (lit "d") (lit "c")).findRoute 10 (lit "s") (lit "d") 0 0).map (·.2) =
      some true := by decide +kernel
  have hrun : ((search (loopedPlan (lit "c") (lit "d")) (lit "d") 0 10
      (Search.start (lit "s") 0)).bind fun result ↦
        result.map fun (pred, _) ↦ [lit "a", lit "b", lit "c", lit "d"].map fun n ↦
          (pred n).map (·.fromNode)) =
      some [some (lit "c"), some (lit "a"), some (lit "b"), some (lit "b")] := by decide +kernel
  obtain ⟨⟨r, found⟩, hr, rfl⟩ := Option.map_eq_some_iff.mp hfound
  obtain ⟨result, hsearch, hrun⟩ := Option.bind_eq_some_iff.mp hrun
  obtain ⟨⟨pred, arrival⟩, rfl, hpred⟩ := Option.map_eq_some_iff.mp hrun
  obtain ⟨ha, hb, hc, hd⟩ : (pred (lit "a")).map (·.fromNode) = some (lit "c") ∧
      (pred (lit "b")).map (·.fromNode) = some (lit "a") ∧
      (pred (lit "c")).map (·.fromNode) = some (lit "b") ∧
      (pred (lit "d")).map (·.fromNode) = some (lit "b") := by
    simpa only [List.map_cons, List.map_nil, List.cons.injEq, and_true] using hpred
  refine ⟨_, _, hperm, ⟨10, r, hr⟩,
    findRoute_eq_none (S := {lit "a", lit "b", lit "c", lit "d"}) hsearch ?_ (by simp)⟩
  rintro n (rfl | rfl | rfl | rfl)
  · exact ⟨by decide +kernel, _, by simp, ha⟩
  · exact ⟨by decide +kernel, _, by simp, hb⟩
  · exact ⟨by decide +kernel, _, by simp, hc⟩
  · exact ⟨by decide +kernel, _, by simp, hd⟩

end Zenith.Contactplan
