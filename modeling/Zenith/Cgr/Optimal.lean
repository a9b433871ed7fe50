import Zenith.Cgr.Search

/-!
# The route found is the earliest

Where no contact arrives before it is entered, the labels of settled nodes are final, the
predecessors form a tree over the source, and walking back from the destination gives a chain of
contacts that arrives exactly at the label.
-/

namespace Zenith.Cgr

open Go EarliestArrival

/-- No contact of the plan takes `sizeBytes` back in time. -/
def ContactPlan.Forward (p : ContactPlan) (sizeBytes : ℤ) : Prop :=
  ∀ c ∈ p.contacts, 0 ≤ c.txDuration sizeBytes + c.owlt

theorem ContactPlan.Forward.causal {p : ContactPlan} {sizeBytes : ℤ} (h : p.Forward sizeBytes) :
    (p.graph sizeBytes).Causal :=
  fun c hc _ _ harrive ↦ Contact.le_arrivalTime (h c hc) harrive

theorem forward_of_nonneg {p : ContactPlan} {sizeBytes : ℤ} (hsize : 0 ≤ sizeBytes)
    (howlt : ∀ c ∈ p.contacts, 0 ≤ c.owlt) (hfits : ∀ c ∈ p.contacts, c.TxFits sizeBytes) :
    p.Forward sizeBytes :=
  fun c hc ↦ add_nonneg (Contact.txDuration_nonneg hsize (hfits c hc)) (howlt c hc)

theorem collect_of_path {p : ContactPlan} {sizeBytes : ℤ} {pred : GoMap GoString Contact}
    {source node : GoString} {es hops : List Contact} {fuel : ℕ}
    (h : Path (p.graph sizeBytes) pred source source node es) (hfuel : es.length < fuel) :
    collect pred source fuel node hops = some (hops ++ es.reverse) := by
  induction h generalizing hops fuel with
  | nil =>
    obtain ⟨fuel, rfl⟩ : ∃ n, fuel = n + 1 := ⟨fuel - 1, by simp at hfuel; omega⟩
    rw [collect, if_pos rfl, List.reverse_nil, List.append_nil]
  | @snoc node c es hne hpred _ ih =>
    rw [List.length_append, List.length_singleton] at hfuel
    obtain ⟨fuel, rfl⟩ : ∃ n, fuel = n + 1 := ⟨fuel - 1, by omega⟩
    have hrest : collect pred source fuel c.fromNode (hops ++ [c]) =
        some (hops ++ [c] ++ es.reverse) := ih (by omega)
    rw [collect, if_neg hne, hpred]
    dsimp only
    rw [hrest, List.reverse_append, List.reverse_singleton, List.append_assoc]

theorem findRoute_of_path {p : ContactPlan} {sizeBytes : ℤ} {source dest : GoString}
    {readyAt arrival : Time} {fuel : ℕ} {pred : GoMap GoString Contact} {es : List Contact}
    (hne : source ≠ dest)
    (hsearch : search p dest sizeBytes fuel (Search.start source readyAt) =
      some (some (pred, arrival)))
    (hpath : Path (p.graph sizeBytes) pred source source dest es) :
    p.findRoute (max fuel (es.length + 1)) source dest sizeBytes readyAt =
      some (⟨es, arrival⟩, true) := by
  have hcollect : collect pred source (es.length + 1) dest [] = some es.reverse :=
    collect_of_path hpath (Nat.lt_succ_self es.length)
  rw [findRoute_eq_some hne]
  refine .inr ⟨pred, arrival, es.reverse, search_mono (le_max_left _ _) hsearch,
    collect_mono (le_max_right _ _) hcollect, ?_⟩
  rw [List.reverse_reverse]

/-- What the search keeps on a plan that never goes back in time. -/
structure EarliestTree (p : ContactPlan) (sizeBytes : ℤ) (source : GoString) (readyAt : Time)
    (L : Labels GoString Contact Time) (left : GoString → Option Time) : Prop where
  greedy : Greedy source readyAt L left
  tree : ∀ w a, L.label w = some a →
    ∃ es, Path (p.graph sizeBytes) L.parent source source w es

theorem earliestTree_start (p : ContactPlan) (sizeBytes : ℤ) (source : GoString)
    (readyAt : Time) :
    EarliestTree p sizeBytes source readyAt (Search.start source readyAt).labels fun _ ↦ none where
  greedy := Greedy.start source readyAt
  tree := by
    intro w a hw
    by_cases hsource : w = source
    · exact ⟨[], hsource ▸ .nil⟩
    · cases (GoMap.insert_of_ne GoMap.empty readyAt hsource).symm.trans hw

theorem EarliestTree.settle {p : ContactPlan} {sizeBytes : ℤ} {source v : GoString}
    {readyAt t : Time} {L L' : Labels GoString Contact Time} {left : GoString → Option Time}
    (hforward : p.Forward sizeBytes) (hsettling : Settling (p.graph sizeBytes) source readyAt L left)
    (h : EarliestTree p sizeBytes source readyAt L left) (hfresh : left v = none)
    (hlabel : L.label v = some t) (hleast : ∀ w a, left w = none → L.label w = some a → t ≤ a)
    (hrelaxed : Relaxed (p.graph sizeBytes) ((p.graph sizeBytes).leaving v) t L L') :
    EarliestTree p sizeBytes source readyAt L' (Function.update left v (some t)) where
  greedy := h.greedy.settle hforward.causal hfresh hlabel hleast hrelaxed
  tree := hsettling.exists_path_relaxed hfresh hlabel hrelaxed
    (hforward.causal.not_timeTravel source readyAt) h.tree

/-- The search returns on every plan that never goes back in time, with the earliest chain of
contacts or, where there is none, without a route. -/
theorem exists_findRoute {p : ContactPlan} {sizeBytes : ℤ} {source dest : GoString}
    (readyAt : Time) (hforward : p.Forward sizeBytes) (hne : source ≠ dest) :
    ∃ fuel r found, p.findRoute fuel source dest sizeBytes readyAt = some (r, found) ∧
      ((found = true ∧ p.Carries sizeBytes source readyAt r.hops dest r.arrivalTime ∧
          ∀ hops a, p.Carries sizeBytes source readyAt hops dest a → r.arrivalTime ≤ a) ∨
        (found = false ∧ ∀ hops a, ¬p.Carries sizeBytes source readyAt hops dest a)) := by
  obtain ⟨fuel, result, hresult⟩ := exists_search_start p source dest sizeBytes readyAt
  obtain ⟨L, left, hsettling, htree, hdest, hend⟩ :=
    search_rule (fun hsettling h hfresh hlabel hleast hrelaxed ↦
        EarliestTree.settle hforward hsettling h hfresh hlabel hleast hrelaxed)
      (explores_start p sizeBytes source readyAt) (earliestTree_start p sizeBytes source readyAt)
      rfl hresult
  rcases hend with ⟨rfl, hall⟩ | ⟨arrival, rfl, hlabel, hleast⟩
  · refine ⟨_, Route.zero, false, (findRoute_eq_some hne).mpr (.inl ⟨hresult, rfl⟩), .inr ⟨rfl, ?_⟩⟩
    intro hops a hcarries
    exact htree.greedy.settled_of_journey hforward.causal hsettling hall hcarries hdest
  · obtain ⟨es, hpath⟩ := htree.tree dest arrival hlabel
    refine ⟨_, ⟨es, arrival⟩, true, findRoute_of_path hne hresult hpath, .inl ⟨rfl, ?_, ?_⟩⟩
    · exact htree.greedy.journey_of_path hsettling hpath hlabel
    · intro hops a hcarries
      exact htree.greedy.le_of_journey hforward.causal hsettling hdest hleast hcarries

theorem ContactPlan.Carries.ne_nil {p : ContactPlan} {sizeBytes : ℤ} {u v : GoString} {t a : Time}
    {hops : List Contact} (h : p.Carries sizeBytes u t hops v a) (hne : u ≠ v) : hops ≠ [] := by
  rintro rfl
  cases h
  exact hne rfl

/-- What a call that comes back says about the chains of contacts from `source` to `dest`. -/
theorem findRoute_spec {p : ContactPlan} {sizeBytes : ℤ} {source dest : GoString} {readyAt : Time}
    {fuel : ℕ} {r : Route} {found : Bool} (hforward : p.Forward sizeBytes) (hne : source ≠ dest)
    (h : p.findRoute fuel source dest sizeBytes readyAt = some (r, found)) :
    (found = true ∧ p.Carries sizeBytes source readyAt r.hops dest r.arrivalTime ∧
        ∀ hops a, p.Carries sizeBytes source readyAt hops dest a → r.arrivalTime ≤ a) ∨
      (found = false ∧ ∀ hops a, ¬p.Carries sizeBytes source readyAt hops dest a) := by
  obtain ⟨fuel', r', found', hfound, hspec⟩ := exists_findRoute readyAt hforward hne
  cases findRoute_unique hfound h
  exact hspec

/-- Soundness, completeness and optimality of the search. -/
theorem findRoute_earliest (p : ContactPlan) (source dest : GoString) (sizeBytes : ℤ)
    (readyAt : Time) (howlt : ∀ c ∈ p.contacts, 0 ≤ c.owlt)
    (hfits : ∀ c ∈ p.contacts, c.TxFits sizeBytes) (hsize : 0 ≤ sizeBytes) (hne : source ≠ dest) :
    (∃ fuel result, p.findRoute fuel source dest sizeBytes readyAt = some result) ∧
    ∀ fuel r,
      (p.findRoute fuel source dest sizeBytes readyAt = some (r, true) →
        r.hops ≠ [] ∧ p.Carries sizeBytes source readyAt r.hops dest r.arrivalTime ∧
          ∀ hops a, p.Carries sizeBytes source readyAt hops dest a → ¬a < r.arrivalTime) ∧
      (p.findRoute fuel source dest sizeBytes readyAt = some (r, false) →
        ∀ hops a, ¬p.Carries sizeBytes source readyAt hops dest a) := by
  have hforward := forward_of_nonneg hsize howlt hfits
  obtain ⟨fuel', r', found, hfound, -⟩ := exists_findRoute readyAt hforward hne
  refine ⟨⟨fuel', (r', found), hfound⟩, fun fuel r ↦ ⟨fun h ↦ ?_, fun h ↦ ?_⟩⟩
  · rcases findRoute_spec hforward hne h with ⟨-, hcarries, hleast⟩ | ⟨hfalse, -⟩
    · exact ⟨hcarries.ne_nil hne, hcarries, fun hops a hother ↦ not_lt.mpr (hleast hops a hother)⟩
    · cases hfalse
  · rcases findRoute_spec hforward hne h with ⟨htrue, -⟩ | ⟨-, hnone⟩
    · cases htrue
    · exact hnone

/-- Two relays; the one whose second contact opens earlier is the way to go. -/
def relayPlan : ContactPlan := ContactPlan.newContactPlan
  [⟨lit "gs-a", lit "sat-slow", 0, 300 * second, 1000000, 0, 1⟩,
    ⟨lit "sat-slow", lit "gs-b", 5400 * second, 5700 * second, 1000000, 0, 1⟩,
    ⟨lit "gs-a", lit "sat-fast", 0, 300 * second, 1000000, 0, 1⟩,
    ⟨lit "sat-fast", lit "gs-b", 1800 * second, 2100 * second, 1000000, 3 * millisecond, 1⟩]

theorem findRoute_earliest_relayPlan :
    (∃ fuel result, relayPlan.findRoute fuel (lit "gs-a") (lit "gs-b") 1000 0 = some result) ∧
    ∀ fuel r,
      (relayPlan.findRoute fuel (lit "gs-a") (lit "gs-b") 1000 0 = some (r, true) →
        r.hops ≠ [] ∧ relayPlan.Carries 1000 (lit "gs-a") 0 r.hops (lit "gs-b") r.arrivalTime ∧
          ∀ hops a, relayPlan.Carries 1000 (lit "gs-a") 0 hops (lit "gs-b") a →
            ¬a < r.arrivalTime) ∧
      (relayPlan.findRoute fuel (lit "gs-a") (lit "gs-b") 1000 0 = some (r, false) →
        ∀ hops a, ¬relayPlan.Carries 1000 (lit "gs-a") 0 hops (lit "gs-b") a) := by
  apply findRoute_earliest
  · decide +kernel
  · simp only [relayPlan, ContactPlan.contacts_newContactPlan, List.forall_mem_cons]
    norm_num [Contact.TxFits, second]
  · decide
  · decide +kernel

end Zenith.Cgr
