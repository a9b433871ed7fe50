import Zenith.Cgr.Contact
import Zenith.Data.BinaryHeap

/-!
# The earliest-arrival search

`findRoute` with its queue, its maps and the walk back along the predecessors. Neither the loop over
the queue nor the walk has a bound of its own, so both carry fuel and answer `none` where it does not
suffice; more fuel never changes an answer.
-/

namespace Zenith.Cgr

open Go

structure Route where
  hops : List Contact
  arrivalTime : Time
  deriving DecidableEq, Repr

/-- `Route{}`. -/
def Route.zero : Route := ⟨[], zeroTime⟩

def Route.nextHop (r : Route) : Option GoString := r.hops.head?.map (·.toNode)

structure PqItem where
  node : GoString
  arrival : Time
  deriving DecidableEq, Repr

/-- The local variables of `FindRoute`. -/
structure Search where
  best : GoMap GoString Time
  pred : GoMap GoString Contact
  visited : GoMap GoString Bool
  queue : List PqItem

namespace Search

def start (source : GoString) (readyAt : Time) : Search where
  best := GoMap.empty.insert source readyAt
  pred := GoMap.empty
  visited := GoMap.empty
  queue := BinaryHeap.push (·.arrival) [] ⟨source, readyAt⟩

/-- The body of the inner loop: one contact that leaves the node just taken from the queue. -/
def relax (now : Time) (sizeBytes : ℤ) (s : Search) (c : Contact) : Search :=
  match c.arrivalTime now sizeBytes with
  | none => s
  | some arrival =>
    let earlier := match s.best c.toNode with
      | some prev => decide (arrival < prev)
      | none => true
    if earlier then
      { s with
        best := s.best.insert c.toNode arrival
        pred := s.pred.insert c.toNode c
        queue := BinaryHeap.push (·.arrival) s.queue ⟨c.toNode, arrival⟩ }
    else s

def expand (p : ContactPlan) (sizeBytes : ℤ) (cur : PqItem) (s : Search) : Search :=
  (p.outgoing cur.node).foldl (relax cur.arrival sizeBytes) s

end Search

/-- What one turn of the outer loop leads to. -/
inductive Turn
  | exhausted
  | settled (pred : GoMap GoString Contact) (arrival : Time)
  | next (s : Search)

def turn (p : ContactPlan) (dest : GoString) (sizeBytes : ℤ) (s : Search) : Turn :=
  match BinaryHeap.pop (·.arrival) s.queue with
  | none => .exhausted
  | some (cur, queue) =>
    if s.visited.isSet cur.node then .next { s with queue := queue }
    else
      let s := { s with queue := queue, visited := s.visited.insert cur.node true }
      if cur.node = dest then .settled s.pred cur.arrival else .next (s.expand p sizeBytes cur)

/-- The outer loop. It ends with the predecessors and the arrival at `dest`, or with nothing where
the queue runs empty. -/
def search (p : ContactPlan) (dest : GoString) (sizeBytes : ℤ) :
    ℕ → Search → Option (Option (GoMap GoString Contact × Time))
  | 0, _ => none
  | fuel + 1, s =>
    match turn p dest sizeBytes s with
    | .exhausted => some none
    | .settled pred arrival => some (some (pred, arrival))
    | .next s => search p dest sizeBytes fuel s

/-- The first loop of `reconstruct`. -/
def collect (pred : GoMap GoString Contact) (source : GoString) :
    ℕ → GoString → List Contact → Option (List Contact)
  | 0, _, _ => none
  | fuel + 1, node, hops =>
    if node = source then some hops
    else
      match pred node with
      | none => some hops
      | some c => collect pred source fuel c.fromNode (hops ++ [c])

def reconstruct (fuel : ℕ) (pred : GoMap GoString Contact) (source dest : GoString)
    (arrival : Time) : Option Route :=
  (collect pred source fuel dest []).map fun hops ↦ ⟨hops.reverse, arrival⟩

def ContactPlan.findRoute (p : ContactPlan) (fuel : ℕ) (source dest : GoString) (sizeBytes : ℤ)
    (readyAt : Time) : Option (Route × Bool) :=
  if source = dest then some (⟨[], readyAt⟩, true)
  else
    match search p dest sizeBytes fuel (Search.start source readyAt) with
    | none => none
    | some none => some (Route.zero, false)
    | some (some (pred, arrival)) =>
      (reconstruct fuel pred source dest arrival).map fun r ↦ (r, true)

/-! ## Fuel -/

theorem search_mono {p : ContactPlan} {dest : GoString} {sizeBytes : ℤ} {fuel fuel' : ℕ}
    {s : Search} {result : Option (GoMap GoString Contact × Time)} (hle : fuel ≤ fuel')
    (h : search p dest sizeBytes fuel s = some result) :
    search p dest sizeBytes fuel' s = some result := by
  induction fuel generalizing fuel' s with
  | zero => cases h
  | succ fuel ih =>
    obtain ⟨fuel', rfl⟩ : ∃ n, fuel' = n + 1 := ⟨fuel' - 1, by omega⟩
    unfold search at h ⊢
    cases hturn : turn p dest sizeBytes s with
    | exhausted => rwa [hturn] at h
    | settled pred arrival => rwa [hturn] at h
    | next s' =>
      rw [hturn] at h
      exact ih (by omega) h

theorem search_unique {p : ContactPlan} {dest : GoString} {sizeBytes : ℤ} {fuel fuel' : ℕ}
    {s : Search} {result result' : Option (GoMap GoString Contact × Time)}
    (h : search p dest sizeBytes fuel s = some result)
    (h' : search p dest sizeBytes fuel' s = some result') : result = result' := by
  have hmax := search_mono (le_max_left fuel fuel') h
  have hmax' := search_mono (le_max_right fuel fuel') h'
  exact Option.some_injective _ (hmax.symm.trans hmax')

theorem collect_mono {pred : GoMap GoString Contact} {source node : GoString} {fuel fuel' : ℕ}
    {hops result : List Contact} (hle : fuel ≤ fuel')
    (h : collect pred source fuel node hops = some result) :
    collect pred source fuel' node hops = some result := by
  induction fuel generalizing fuel' node hops with
  | zero => cases h
  | succ fuel ih =>
    obtain ⟨fuel', rfl⟩ : ∃ n, fuel' = n + 1 := ⟨fuel' - 1, by omega⟩
    unfold collect at h ⊢
    by_cases hsource : node = source
    · rwa [if_pos hsource] at h ⊢
    · rw [if_neg hsource] at h ⊢
      cases hpred : pred node with
      | none => rwa [hpred] at h
      | some c =>
        rw [hpred] at h
        exact ih (by omega) h

/-- How a call that takes `fuel` turns at most comes to its result. -/
theorem findRoute_eq_some {p : ContactPlan} {fuel : ℕ} {source dest : GoString} {sizeBytes : ℤ}
    {readyAt : Time} {result : Route × Bool} (hne : source ≠ dest) :
    p.findRoute fuel source dest sizeBytes readyAt = some result ↔
      (search p dest sizeBytes fuel (Search.start source readyAt) = some none ∧
        result = (Route.zero, false)) ∨
      ∃ pred arrival hops,
        search p dest sizeBytes fuel (Search.start source readyAt) = some (some (pred, arrival)) ∧
        collect pred source fuel dest [] = some hops ∧ result = (⟨hops.reverse, arrival⟩, true) := by
  unfold ContactPlan.findRoute reconstruct
  rw [if_neg hne]
  rcases search p dest sizeBytes fuel (Search.start source readyAt) with _ | _ | ⟨pred, arrival⟩
  · simp
  · simp [eq_comm]
  · rcases hcollect : collect pred source fuel dest [] with _ | hops
    · simp [hcollect]
    · simp [hcollect, eq_comm]

theorem findRoute_mono {p : ContactPlan} {fuel fuel' : ℕ} {source dest : GoString}
    {sizeBytes : ℤ} {readyAt : Time} {result : Route × Bool} (hle : fuel ≤ fuel')
    (h : p.findRoute fuel source dest sizeBytes readyAt = some result) :
    p.findRoute fuel' source dest sizeBytes readyAt = some result := by
  by_cases hne : source = dest
  · rw [ContactPlan.findRoute, if_pos hne] at h ⊢
    exact h
  · rw [findRoute_eq_some hne] at h ⊢
    rcases h with ⟨hsearch, hresult⟩ | ⟨pred, arrival, hops, hsearch, hcollect, hresult⟩
    · exact .inl ⟨search_mono hle hsearch, hresult⟩
    · exact .inr ⟨pred, arrival, hops, search_mono hle hsearch, collect_mono hle hcollect, hresult⟩

theorem findRoute_unique {p : ContactPlan} {fuel fuel' : ℕ} {source dest : GoString}
    {sizeBytes : ℤ} {readyAt : Time} {result result' : Route × Bool}
    (h : p.findRoute fuel source dest sizeBytes readyAt = some result)
    (h' : p.findRoute fuel' source dest sizeBytes readyAt = some result') : result = result' := by
  have hmax := findRoute_mono (le_max_left fuel fuel') h
  have hmax' := findRoute_mono (le_max_right fuel fuel') h'
  exact Option.some_injective _ (hmax.symm.trans hmax')

end Zenith.Cgr
