import Zenith.Bpv7.Codec
import Zenith.Cgr.Route

/-!
# A store-and-forward node

A node delivers what is addressed to it, stores the rest, and takes each bundle ID once. Nothing
mutates a bundle, so the pointers of the source are the bundles themselves.
-/

namespace Zenith.Dtn

open Go Bpv7 Cgr

inductive IngestResult
  | delivered
  | stored
  | duplicate
  | expired
  deriving DecidableEq, Repr

structure Node where
  id : GoString
  plan : Option ContactPlan
  store : GoMap GoString Bundle
  order : List GoString
  delivered : List Bundle
  seen : GoMap GoString Bool

/-- The size of the encoding, or of the payload where there is none. -/
def bundleSize (b : Bundle) : ℤ :=
  match b.marshal with
  | .ok enc => enc.length
  | .error _ => (b.payload.getD []).length

namespace Node

/-- `New`. -/
def new (id : GoString) (plan : Option ContactPlan) : Node where
  id := id
  plan := plan
  store := GoMap.empty
  order := []
  delivered := []
  seen := GoMap.empty

def ingest (n : Node) (b : Bundle) (now : Time) : IngestResult × Node :=
  if n.seen.isSet b.id then (.duplicate, n)
  else
    let n := { n with seen := n.seen.insert b.id true }
    if b.expired now then (.expired, n)
    else if b.primary.destination.nodeID = n.id then
      (.delivered, { n with delivered := n.delivered ++ [b] })
    else (.stored, { n with store := n.store.insert b.id b, order := n.order ++ [b.id] })

/-- `Route`; `none` where the search needs more than `fuel` turns. -/
def route (fuel : ℕ) (n : Node) (b : Bundle) (now : Time) : Option (Route × Bool) :=
  match n.plan with
  | none => some (Route.zero, false)
  | some plan => plan.findRoute fuel n.id b.primary.destination.nodeID (bundleSize b) now

def dequeue (n : Node) (bundleID : GoString) : Node :=
  match n.store bundleID with
  | none => n
  | some _ => { n with store := n.store.erase bundleID, order := n.order.erase bundleID }

/-- `Stored`; a missing entry is the nil pointer. -/
def stored (n : Node) : List (Option Bundle) := n.order.map n.store

@[simp] theorem new_id (id : GoString) (plan : Option ContactPlan) : (new id plan).id = id := rfl
@[simp] theorem new_plan (id : GoString) (plan : Option ContactPlan) :
    (new id plan).plan = plan := rfl
@[simp] theorem new_delivered (id : GoString) (plan : Option ContactPlan) :
    (new id plan).delivered = [] := rfl
@[simp] theorem isSet_new_seen (id bundleID : GoString) (plan : Option ContactPlan) :
    (new id plan).seen.isSet bundleID = false := rfl

/-- What `Ingest` does, by its result. -/
theorem ingest_cases (n : Node) (b : Bundle) (now : Time) :
    (n.seen.isSet b.id = true ∧ n.ingest b now = (.duplicate, n)) ∨
    (n.seen.isSet b.id = false ∧ b.expired now = true ∧
      n.ingest b now = (.expired, { n with seen := n.seen.insert b.id true })) ∨
    (n.seen.isSet b.id = false ∧ b.expired now = false ∧ b.primary.destination.nodeID = n.id ∧
      n.ingest b now = (.delivered,
        { n with seen := n.seen.insert b.id true, delivered := n.delivered ++ [b] })) ∨
    (n.seen.isSet b.id = false ∧ b.expired now = false ∧ b.primary.destination.nodeID ≠ n.id ∧
      n.ingest b now = (.stored,
        { n with
          seen := n.seen.insert b.id true
          store := n.store.insert b.id b
          order := n.order ++ [b.id] })) := by
  unfold ingest
  cases hseen : n.seen.isSet b.id with
  | true => exact .inl ⟨rfl, if_pos rfl⟩
  | false =>
    right
    rw [if_neg Bool.false_ne_true]
    cases hexpired : b.expired now with
    | true => exact .inl ⟨rfl, rfl, if_pos rfl⟩
    | false =>
      right
      dsimp only
      rw [if_neg Bool.false_ne_true]
      by_cases hdest : b.primary.destination.nodeID = n.id
      · exact .inl ⟨rfl, rfl, hdest, if_pos hdest⟩
      · exact .inr ⟨rfl, rfl, hdest, if_neg hdest⟩

@[simp] theorem ingest_id (n : Node) (b : Bundle) (now : Time) : (n.ingest b now).2.id = n.id := by
  rcases n.ingest_cases b now with ⟨-, h⟩ | ⟨-, -, h⟩ | ⟨-, -, -, h⟩ | ⟨-, -, -, h⟩ <;> rw [h]

@[simp] theorem ingest_plan (n : Node) (b : Bundle) (now : Time) :
    (n.ingest b now).2.plan = n.plan := by
  rcases n.ingest_cases b now with ⟨-, h⟩ | ⟨-, -, h⟩ | ⟨-, -, -, h⟩ | ⟨-, -, -, h⟩ <;> rw [h]

/-- After `Ingest` the ID is seen, and nothing else is that was not before. -/
theorem isSet_ingest_seen (n : Node) (b : Bundle) (now : Time) (bundleID : GoString) :
    (n.ingest b now).2.seen.isSet bundleID =
      (decide (bundleID = b.id) || n.seen.isSet bundleID) := by
  rcases n.ingest_cases b now with ⟨hseen, h⟩ | ⟨-, -, h⟩ | ⟨-, -, -, h⟩ | ⟨-, -, -, h⟩
  · rw [h]
    by_cases hid : bundleID = b.id
    · simp [hid, hseen]
    · simp [hid]
  · rw [h, GoMap.isSet_insert]
  · rw [h, GoMap.isSet_insert]
  · rw [h, GoMap.isSet_insert]

section Dequeue

variable (n : Node) (bundleID : GoString)

@[simp] theorem dequeue_id : (n.dequeue bundleID).id = n.id := by
  unfold dequeue
  cases n.store bundleID <;> rfl

@[simp] theorem dequeue_plan : (n.dequeue bundleID).plan = n.plan := by
  unfold dequeue
  cases n.store bundleID <;> rfl

@[simp] theorem dequeue_delivered : (n.dequeue bundleID).delivered = n.delivered := by
  unfold dequeue
  cases n.store bundleID <;> rfl

@[simp] theorem dequeue_seen : (n.dequeue bundleID).seen = n.seen := by
  unfold dequeue
  cases n.store bundleID <;> rfl

end Dequeue

end Node

end Zenith.Dtn
