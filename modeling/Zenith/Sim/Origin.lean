import Zenith.Sim.Trace

/-!
# Where events come from

Whatever an event has that none of the injections had was brought in by an earlier turn. A bundle is
delivered at most as often as it was injected.
-/

namespace Zenith.EventLoop

open BinaryHeap

variable {α κ : Type} [LinearOrder κ] {key : α → κ}

/-- What an event has and no event at the start had, an earlier turn brought in. -/
theorem Agenda.exists_introduced {E : α → Prop} {q q' : List α} {trace : List (α × List α)}
    (h : Agenda key q trace q') (hq : ∀ a ∈ q, ¬E a) {before after : List (α × List α)}
    {turn : α × List α} (hsplit : trace = before ++ turn :: after) (hturn : E turn.1) :
    ∃ before' earlier between, before = before' ++ earlier :: between ∧ ¬E earlier.1 ∧
      ∃ b ∈ earlier.2, E b := by
  induction h generalizing before with
  | nil q => cases before <;> cases hsplit
  | @cons q queue q' caused a trace hpop _ ih =>
    have ha : ¬E a := hq a ((pop_perm hpop).mem_iff.mpr List.mem_cons_self)
    cases before with
    | nil =>
      cases hsplit
      exact absurd hturn ha
    | cons first before =>
      rw [List.cons_append, List.cons.injEq] at hsplit
      obtain ⟨rfl, hsplit⟩ := hsplit
      by_cases hnew : ∃ b ∈ caused, E b
      · exact ⟨[], (a, caused), before, rfl, ha, hnew⟩
      · have hqueue : ∀ b ∈ caused.foldl (push key) queue, ¬E b := by
          intro b hb hEb
          rw [(foldl_push_perm key queue caused).mem_iff, List.mem_append] at hb
          rcases hb with hold | hcaused
          · exact hq b ((pop_perm hpop).mem_iff.mpr (List.mem_cons_of_mem a hold)) hEb
          · exact hnew ⟨b, hcaused, hEb⟩
        obtain ⟨before', earlier, between, rfl, hearlier⟩ := ih hqueue hsplit
        exact ⟨(a, caused) :: before', earlier, between, rfl, hearlier⟩

end Zenith.EventLoop

namespace Zenith.Sim

open Go Bpv7 Cgr Dtn EventLoop

variable {σ : Type} {fuel : ℕ} {s s' : Run σ} {trace : List Turn}

theorem countP_flatMap_le {α β : Type} {l : List α} {f : α → List β} {p : β → Bool} {q : α → Bool}
    (h : ∀ a ∈ l, (f a).countP p ≤ if q a then 1 else 0) : (l.flatMap f).countP p ≤ l.countP q := by
  induction l with
  | nil => exact le_rfl
  | cons a l ih =>
    rw [List.flatMap_cons, List.countP_append, List.countP_cons, Nat.add_comm]
    exact Nat.add_le_add (ih fun b hb ↦ h b (List.mem_cons_of_mem a hb)) (h a List.mem_cons_self)

namespace Run

/-- A run of several turns is a run of the first ones and one of the others. -/
theorem Runs.of_append {before after : List Turn} (h : Runs fuel s (before ++ after) s') :
    ∃ mid, Runs fuel s before mid ∧ Runs fuel mid after s' := by
  induction before generalizing s with
  | nil => exact ⟨s, .nil s, h⟩
  | cons turn before ih =>
    cases h with
    | cons hpop hfate htail =>
      obtain ⟨mid, hbefore, hafter⟩ := ih htail
      exact ⟨mid, .cons hpop hfate hbefore, hafter⟩

/-- What the bundle of an event has and no bundle at the start had, an earlier turn brought in. -/
theorem Runs.exists_introduced {p : Bundle → Prop} (h : Runs fuel s trace s')
    (hs : ∀ ev ∈ s.queue, ¬p ev.b) {before after : List Turn} {turn : Turn}
    (hsplit : trace = before ++ turn :: after) (hturn : p turn.event.b) :
    ∃ before' earlier between, before = before' ++ earlier :: between ∧ ¬p earlier.event.b ∧
      ∃ next ∈ earlier.caused, p next.b := by
  let pair : Turn → MeshEvent × List MeshEvent := fun turn ↦ (turn.event, turn.caused)
  have hpairs : trace.map pair = before.map pair ++ pair turn :: after.map pair := by
    rw [hsplit, List.map_append, List.map_cons]
  obtain ⟨first, middle, last, hfirst, hnew, next, hnext, hp⟩ :=
    h.agenda.exists_introduced (E := fun ev ↦ p ev.b) hs hpairs hturn
  obtain ⟨before', rest, rfl, -, hrest⟩ := List.map_eq_append_iff.mp hfirst
  obtain ⟨earlier, between, rfl, rfl, -⟩ := List.map_eq_cons_iff.mp hrest
  exact ⟨before', earlier, between, rfl, hnew, next, hnext, hp⟩

theorem countP_split (l : List MeshEvent) (p : Bundle → Prop) [DecidablePred p] :
    l.countP (fun ev ↦ p ev.b) = l.countP (fun ev ↦ ev.injected = false ∧ p ev.b) +
      l.countP (fun ev ↦ ev.injected = true ∧ p ev.b) := by
  induction l with
  | nil => rfl
  | cons ev l ih =>
    simp only [List.countP_cons, ih]
    cases ev.injected <;> by_cases hp : p ev.b <;> simp [hp] <;> omega

/-- A bundle ends or is forwarded in a turn. -/
theorem countP_delivered_add_forwarded_le (trace : List Turn) (p : Bundle → Prop)
    [DecidablePred p] : (trace.countP fun turn ↦ turn.fate.kind = .delivered ∧ p turn.event.b) +
      (trace.countP fun turn ↦ turn.fate.kind = .forwarded ∧ p turn.event.b) ≤
    trace.countP fun turn ↦ p turn.event.b := by
  induction trace with
  | nil => exact le_rfl
  | cons turn trace ih =>
    simp only [List.countP_cons]
    by_cases hp : p turn.event.b
    · rcases turn.fate.kind_cases with hkind | hkind | hkind | hkind | hkind <;>
        simp only [hkind, hp, reduceCtorEq, and_self, and_true, decide_true, decide_false,
          Bool.false_eq_true, if_true, if_false] <;>
        omega
    · simp only [hp, and_false, decide_false, Bool.false_eq_true, if_false]
      omega

/-- Bundles of one kind are delivered at most as often as they are injected. -/
theorem Runs.countP_delivered_le {m : Mesh σ} (h : Runs fuel s trace s') (hs : s.Configured m)
    (p : Bundle → Prop) [DecidablePred p] :
    (trace.countP fun turn ↦ turn.fate.kind = .delivered ∧ p turn.event.b) ≤
      s.queue.countP (fun ev ↦ p ev.b) +
        (trace.flatMap Turn.caused).countP fun ev ↦ ev.injected = true ∧ p ev.b := by
  have harrivals : (trace.flatMap Turn.caused).countP (fun ev ↦ ev.injected = false ∧ p ev.b) =
      trace.countP fun turn ↦ turn.fate.kind = .forwarded ∧ p turn.event.b :=
    countP_flatMap_of_forall fun turn hturn ↦ ((h.configured hs).2 turn hturn).countP_arrivals p
  have hperm := h.perm.countP_eq fun ev ↦ p ev.b
  rw [List.countP_append, List.countP_map, List.countP_append, countP_split (trace.flatMap _) p,
    harrivals] at hperm
  have hends := countP_delivered_add_forwarded_le trace p
  change (trace.countP fun turn ↦ p turn.event.b) + _ = _ at hperm
  omega

end Run

end Zenith.Sim
