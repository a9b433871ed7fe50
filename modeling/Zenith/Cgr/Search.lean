import Zenith.Cgr.Route
import Zenith.Graph.EarliestArrival

/-!
# What the search keeps

The contacts of a plan are the edges of a graph with arrival times, `best` and `pred` are its labels
and parents. The queue may hold outdated entries: what matters is that each node not yet visited is
queued under its label. Then the first entry of a node not yet visited is the least label, whatever
the signs of the light times, and each turn either drops an outdated entry or settles one node.
-/

namespace Zenith.Cgr

open Go EarliestArrival

/-- The contacts of a plan as a bundle of `sizeBytes` sees them. -/
def ContactPlan.graph (p : ContactPlan) (sizeBytes : ℤ) : TimedGraph GoString Contact Time where
  edges := {c | c ∈ p.contacts}
  source := Contact.fromNode
  target := Contact.toNode
  arrive := fun c t ↦ c.arrivalTime t sizeBytes
  fifo := Contact.arrivalTime_mono

/-- The chain of contacts `hops` of the plan takes a bundle that is at `u` at time `t` to `v`, where
it arrives at time `a`. -/
abbrev ContactPlan.Carries (p : ContactPlan) (sizeBytes : ℤ) (u : GoString) (t : Time)
    (hops : List Contact) (v : GoString) (a : Time) : Prop :=
  (p.graph sizeBytes).Journey u t hops v a

namespace Search

def labels (s : Search) : Labels GoString Contact Time := ⟨s.best, s.pred⟩

/-! ## One turn -/

theorem relax_cases (now : Time) (sizeBytes : ℤ) (s : Search) (c : Contact) :
    (s.relax now sizeBytes c = s ∧
      ∀ a, c.arrivalTime now sizeBytes = some a → ∃ b ≤ a, s.best c.toNode = some b) ∨
    ∃ a, c.arrivalTime now sizeBytes = some a ∧ (∀ b, s.best c.toNode = some b → a < b) ∧
      s.relax now sizeBytes c =
        { s with
          best := s.best.insert c.toNode a
          pred := s.pred.insert c.toNode c
          queue := BinaryHeap.push (·.arrival) s.queue ⟨c.toNode, a⟩ } := by
  unfold relax
  cases harrival : c.arrivalTime now sizeBytes with
  | none => exact .inl ⟨rfl, fun a h ↦ by cases h⟩
  | some a =>
    cases hbest : s.best c.toNode with
    | none => exact .inr ⟨a, rfl, fun b h ↦ (by cases h), rfl⟩
    | some prev =>
      by_cases hlt : a < prev
      · refine .inr ⟨a, rfl, fun b h ↦ ?_, by simp [hlt]⟩
        cases h
        exact hlt
      · refine .inl ⟨by simp [hlt], fun a' h ↦ ?_⟩
        cases h
        exact ⟨prev, not_lt.mp hlt, rfl⟩

theorem relaxed_relax (p : ContactPlan) (now : Time) (sizeBytes : ℤ) (s : Search) (c : Contact) :
    Relaxed (p.graph sizeBytes) {c} now s.labels (s.relax now sizeBytes c).labels := by
  rcases relax_cases now sizeBytes s c with ⟨hsame, hle⟩ | ⟨a, harrival, hlt, hnew⟩
  · rw [hsame]
    constructor
    · intro e he a harrival
      rw [Set.mem_singleton_iff.mp he] at harrival ⊢
      exact hle a harrival
    · exact fun w ↦ .inl ⟨rfl, rfl⟩
  · rw [hnew]
    constructor
    · intro e he a' harrival'
      rw [Set.mem_singleton_iff.mp he] at harrival' ⊢
      cases harrival.symm.trans harrival'
      exact ⟨a, le_rfl, GoMap.insert_same _ _ _⟩
    · intro w
      by_cases hw : w = c.toNode
      · subst hw
        exact .inr ⟨c, rfl, a, rfl, harrival, GoMap.insert_same _ _ _, GoMap.insert_same _ _ _, hlt⟩
      · exact .inl ⟨GoMap.insert_of_ne _ _ hw, GoMap.insert_of_ne _ _ hw⟩

theorem relaxed_foldl (p : ContactPlan) (now : Time) (sizeBytes : ℤ) (s : Search)
    (cs : List Contact) :
    Relaxed (p.graph sizeBytes) {c | c ∈ cs} now s.labels
      (cs.foldl (relax now sizeBytes) s).labels := by
  induction cs generalizing s with
  | nil =>
    have hempty : {c : Contact | c ∈ []} = ∅ := by simp
    rw [hempty]
    exact .refl s.labels
  | cons c cs ih =>
    have hunion : {d | d ∈ c :: cs} = {c} ∪ {d | d ∈ cs} := by
      ext d
      simp
    rw [hunion]
    exact (relaxed_relax p now sizeBytes s c).comp (ih _)

theorem relaxed_expand (p : ContactPlan) (sizeBytes : ℤ) (cur : PqItem) (s : Search) :
    Relaxed (p.graph sizeBytes) ((p.graph sizeBytes).leaving cur.node) cur.arrival s.labels
      (s.expand p sizeBytes cur).labels := by
  have hleaving : (p.graph sizeBytes).leaving cur.node = {c | c ∈ p.outgoing cur.node} := by
    ext c
    exact ContactPlan.mem_outgoing.symm
  rw [hleaving]
  exact relaxed_foldl p cur.arrival sizeBytes s _

@[simp] theorem visited_relax (now : Time) (sizeBytes : ℤ) (s : Search) (c : Contact) :
    (s.relax now sizeBytes c).visited = s.visited := by
  rcases relax_cases now sizeBytes s c with ⟨hsame, -⟩ | ⟨a, -, -, hnew⟩
  · rw [hsame]
  · rw [hnew]

@[simp] theorem visited_expand (p : ContactPlan) (sizeBytes : ℤ) (cur : PqItem) (s : Search) :
    (s.expand p sizeBytes cur).visited = s.visited := by
  unfold expand
  induction p.outgoing cur.node generalizing s with
  | nil => rfl
  | cons c cs ih => rw [List.foldl_cons, ih, visited_relax]

/-! ## The queue -/

/-- The queue of a search: a heap in which each node that is not visited stands under its label. -/
structure Queued (s : Search) : Prop where
  heap : BinaryHeap.IsHeap (·.arrival) s.queue
  label_le : ∀ item ∈ s.queue, ∃ b ≤ item.arrival, s.best item.node = some b
  frontier : ∀ n b, s.best n = some b → s.visited.isSet n = false → ⟨n, b⟩ ∈ s.queue

theorem queued_start (source : GoString) (readyAt : Time) : (start source readyAt).Queued where
  heap := BinaryHeap.isHeap_push BinaryHeap.isHeap_nil _
  label_le := by
    intro item hitem
    rw [start, BinaryHeap.mem_push] at hitem
    rcases hitem with rfl | hnil
    · exact ⟨readyAt, le_rfl, GoMap.insert_same _ _ _⟩
    · cases hnil
  frontier := by
    intro n b hbest _
    dsimp only [start] at hbest
    rw [GoMap.insert_apply] at hbest
    split_ifs at hbest with hn
    · cases hbest
      exact BinaryHeap.mem_push.mpr (.inl (hn ▸ rfl))
    · cases hbest

theorem Queued.relax {s : Search} (h : s.Queued) (now : Time) (sizeBytes : ℤ) (c : Contact) :
    (s.relax now sizeBytes c).Queued := by
  rcases relax_cases now sizeBytes s c with ⟨hsame, -⟩ | ⟨a, -, hlt, hnew⟩
  · rw [hsame]
    exact h
  · rw [hnew]
    refine ⟨BinaryHeap.isHeap_push h.heap _, ?_, ?_⟩
    · intro item hitem
      rcases BinaryHeap.mem_push.mp hitem with rfl | hold
      · exact ⟨a, le_rfl, GoMap.insert_same _ _ _⟩
      · obtain ⟨b, hb, hbest⟩ := h.label_le item hold
        by_cases hnode : item.node = c.toNode
        · have hle : a ≤ item.arrival := by
            calc
              a ≤ b := (hlt b (hnode ▸ hbest)).le
              _ ≤ item.arrival := hb
          refine ⟨a, hle, ?_⟩
          dsimp only
          rw [hnode, GoMap.insert_same]
        · exact ⟨b, hb, (GoMap.insert_of_ne _ _ hnode).trans hbest⟩
    · intro n b hbest hvisited
      dsimp only at hbest
      by_cases hn : n = c.toNode
      · subst hn
        rw [GoMap.insert_same] at hbest
        cases hbest
        exact BinaryHeap.mem_push.mpr (.inl rfl)
      · rw [GoMap.insert_of_ne _ _ hn] at hbest
        exact BinaryHeap.mem_push.mpr (.inr (h.frontier n b hbest hvisited))

theorem Queued.expand {s : Search} (h : s.Queued) (p : ContactPlan) (sizeBytes : ℤ)
    (cur : PqItem) : (s.expand p sizeBytes cur).Queued := by
  unfold Search.expand
  induction p.outgoing cur.node generalizing s with
  | nil => exact h
  | cons c cs ih => exact ih (h.relax cur.arrival sizeBytes c)

/-- What the code does with an entry of a node that is not visited, before it looks at `dest`. -/
def visit (s : Search) (cur : PqItem) (queue : List PqItem) : Search :=
  { s with queue := queue, visited := s.visited.insert cur.node true }

section Pop

variable {s : Search} {cur : PqItem} {queue : List PqItem}

/-- Dropping an entry of a node that is visited already or from now on. -/
theorem Queued.drop (h : s.Queued) (hpop : BinaryHeap.pop (·.arrival) s.queue = some (cur, queue))
    {visited : GoMap GoString Bool} (hcur : visited.isSet cur.node = true)
    (hmono : ∀ n, visited.isSet n = false → s.visited.isSet n = false) :
    Queued { s with queue := queue, visited := visited } where
  heap := BinaryHeap.isHeap_pop h.heap hpop
  label_le := by
    intro item hitem
    apply h.label_le
    exact (BinaryHeap.pop_perm hpop).symm.subset (List.mem_cons_of_mem cur hitem)
  frontier := by
    intro n b hbest hvisited
    have hmem := (BinaryHeap.pop_perm hpop).subset (h.frontier n b hbest (hmono n hvisited))
    rcases List.mem_cons.mp hmem with hself | hrest
    · subst hself
      rw [hcur] at hvisited
      cases hvisited
    · exact hrest

theorem Queued.skip (h : s.Queued) (hpop : BinaryHeap.pop (·.arrival) s.queue = some (cur, queue))
    (hcur : s.visited.isSet cur.node = true) : Queued { s with queue := queue } :=
  h.drop hpop hcur fun _ hn ↦ hn

theorem Queued.visit (h : s.Queued)
    (hpop : BinaryHeap.pop (·.arrival) s.queue = some (cur, queue)) :
    (s.visit cur queue).Queued := by
  refine h.drop hpop (by simp [GoMap.isSet_insert]) fun n hn ↦ ?_
  rw [GoMap.isSet_insert, Bool.or_eq_false_iff] at hn
  exact hn.2

/-- The first entry of a node that is not visited is its label, and the least one. -/
theorem Queued.pop_label (h : s.Queued)
    (hpop : BinaryHeap.pop (·.arrival) s.queue = some (cur, queue))
    (hcur : s.visited.isSet cur.node = false) :
    s.best cur.node = some cur.arrival ∧
      ∀ n b, s.visited.isSet n = false → s.best n = some b → cur.arrival ≤ b := by
  have hmem : cur ∈ s.queue := (BinaryHeap.pop_perm hpop).symm.subset List.mem_cons_self
  have hleast : ∀ n b, s.visited.isSet n = false → s.best n = some b → cur.arrival ≤ b :=
    fun n b hn hb ↦ BinaryHeap.pop_min h.heap hpop (h.frontier n b hb hn)
  obtain ⟨b, hb, hbest⟩ := h.label_le cur hmem
  rw [← le_antisymm (hleast _ _ hcur hbest) hb] at hbest
  exact ⟨hbest, hleast⟩

end Pop

end Search

/-- The turns of the loop: the queue is empty, an outdated entry is dropped, `dest` is settled, or
another node is settled and its contacts are tried. -/
theorem turn_cases (p : ContactPlan) (dest : GoString) (sizeBytes : ℤ) (s : Search) :
    (s.queue = [] ∧ turn p dest sizeBytes s = .exhausted) ∨
    ∃ cur queue, BinaryHeap.pop (·.arrival) s.queue = some (cur, queue) ∧
      ((s.visited.isSet cur.node = true ∧
          turn p dest sizeBytes s = .next { s with queue := queue }) ∨
        (s.visited.isSet cur.node = false ∧ cur.node = dest ∧
          turn p dest sizeBytes s = .settled s.pred cur.arrival) ∨
        (s.visited.isSet cur.node = false ∧ cur.node ≠ dest ∧
          turn p dest sizeBytes s = .next ((s.visit cur queue).expand p sizeBytes cur))) := by
  unfold turn
  cases hpop : BinaryHeap.pop (·.arrival) s.queue with
  | none => exact .inl ⟨BinaryHeap.pop_eq_none.mp hpop, rfl⟩
  | some entry =>
    obtain ⟨cur, queue⟩ := entry
    refine .inr ⟨cur, queue, rfl, ?_⟩
    dsimp only
    cases hvisited : s.visited.isSet cur.node with
    | true => exact .inl ⟨rfl, if_pos rfl⟩
    | false =>
      rw [if_neg Bool.false_ne_true]
      by_cases hdest : cur.node = dest
      · exact .inr (.inl ⟨rfl, hdest, if_pos hdest⟩)
      · exact .inr (.inr ⟨rfl, hdest, if_neg hdest⟩)

/-! ## The loop ends -/

/-- Entries to take from the queue and contacts that may still put one there. -/
def pending (p : ContactPlan) (s : Search) : ℕ :=
  s.queue.length + (p.contacts.filter fun c ↦ !s.visited.isSet c.fromNode).length

theorem length_queue_relax_le (now : Time) (sizeBytes : ℤ) (s : Search) (c : Contact) :
    (s.relax now sizeBytes c).queue.length ≤ s.queue.length + 1 := by
  rcases Search.relax_cases now sizeBytes s c with ⟨hsame, -⟩ | ⟨a, -, -, hnew⟩
  · rw [hsame]
    exact Nat.le_succ _
  · rw [hnew, BinaryHeap.length_push]

theorem length_queue_expand_le (p : ContactPlan) (sizeBytes : ℤ) (cur : PqItem) (s : Search) :
    (s.expand p sizeBytes cur).queue.length ≤
      s.queue.length + (p.outgoing cur.node).length := by
  unfold Search.expand
  induction p.outgoing cur.node generalizing s with
  | nil => exact le_rfl
  | cons c cs ih =>
    calc
      _ ≤ (s.relax cur.arrival sizeBytes c).queue.length + cs.length := ih _
      _ ≤ s.queue.length + 1 + cs.length :=
        Nat.add_le_add_right (length_queue_relax_le cur.arrival sizeBytes s c) _
      _ = s.queue.length + (c :: cs).length := by rw [List.length_cons]; omega

/-- Visiting a node takes its contacts out of those that remain to be tried. -/
theorem length_unvisited_visit (p : ContactPlan) {s : Search} {cur : PqItem}
    (queue : List PqItem) (hcur : s.visited.isSet cur.node = false) :
    (p.contacts.filter fun c ↦ !(s.visit cur queue).visited.isSet c.fromNode).length +
        (p.outgoing cur.node).length =
      (p.contacts.filter fun c ↦ !s.visited.isSet c.fromNode).length := by
  rw [ContactPlan.outgoing_eq]
  induction p.contacts with
  | nil => rfl
  | cons c cs ih =>
    simp only [Search.visit, GoMap.isSet_insert] at ih ⊢
    by_cases hnode : c.fromNode = cur.node
    · simp [hnode, hcur] at ih ⊢
      omega
    · cases hvisited : s.visited.isSet c.fromNode <;> simp [hnode, hvisited] at ih ⊢ <;> omega

theorem pending_turn {p : ContactPlan} {dest : GoString} {sizeBytes : ℤ} {s s' : Search}
    (h : turn p dest sizeBytes s = .next s') : pending p s' < pending p s := by
  rcases turn_cases p dest sizeBytes s with
    ⟨-, hturn⟩ | ⟨cur, queue, hpop, ⟨-, hturn⟩ | ⟨-, -, hturn⟩ | ⟨hfresh, -, hturn⟩⟩
  · cases hturn.symm.trans h
  · cases hturn.symm.trans h
    have hlen := BinaryHeap.pop_length hpop
    unfold pending
    dsimp only
    omega
  · cases hturn.symm.trans h
  · cases hturn.symm.trans h
    have hlen := BinaryHeap.pop_length hpop
    have hpush := length_queue_expand_le p sizeBytes cur (s.visit cur queue)
    have hleft := length_unvisited_visit p queue hfresh
    have hqueue : (s.visit cur queue).queue.length = queue.length := rfl
    unfold pending
    rw [Search.visited_expand]
    omega

/-- The loop over the queue ends for every plan, whatever its light times. -/
theorem exists_search {p : ContactPlan} (dest : GoString) (sizeBytes : ℤ) {fuel : ℕ} {s : Search}
    (hfuel : pending p s < fuel) : ∃ result, search p dest sizeBytes fuel s = some result := by
  induction fuel generalizing s with
  | zero => omega
  | succ fuel ih =>
    unfold search
    cases hturn : turn p dest sizeBytes s with
    | exhausted => exact ⟨none, rfl⟩
    | settled pred arrival => exact ⟨some (pred, arrival), rfl⟩
    | next s' => exact ih (by have hlt := pending_turn hturn; omega)

/-- One turn for each entry of the queue and each contact is enough, and one to find it empty. -/
theorem exists_search_start (p : ContactPlan) (source dest : GoString) (sizeBytes : ℤ)
    (readyAt : Time) : ∃ fuel result,
      search p dest sizeBytes fuel (Search.start source readyAt) = some result :=
  ⟨_, exists_search dest sizeBytes (Nat.lt_succ_self _)⟩

/-! ## What holds when it ends -/

/-- `left` gives the time at which each visited node was taken from the queue. -/
structure Explores (p : ContactPlan) (sizeBytes : ℤ) (source : GoString)
    (readyAt : Time) (s : Search) (left : GoString → Option Time) : Prop where
  settling : Settling (p.graph sizeBytes) source readyAt s.labels left
  queued : s.Queued
  visited : ∀ n, s.visited.isSet n = false ↔ left n = none

theorem explores_start (p : ContactPlan) (sizeBytes : ℤ) (source : GoString) (readyAt : Time) :
    Explores p sizeBytes source readyAt (Search.start source readyAt) fun _ ↦ none where
  settling := Settling.start readyAt
  queued := Search.queued_start source readyAt
  visited := fun _ ↦ ⟨fun _ ↦ rfl, fun _ ↦ rfl⟩

theorem Explores.settle {p : ContactPlan} {sizeBytes : ℤ} {source : GoString} {readyAt : Time}
    {s : Search} {left : GoString → Option Time} {cur : PqItem} {queue : List PqItem}
    (h : Explores p sizeBytes source readyAt s left)
    (hpop : BinaryHeap.pop (·.arrival) s.queue = some (cur, queue))
    (hcur : s.visited.isSet cur.node = false) :
    Explores p sizeBytes source readyAt ((s.visit cur queue).expand p sizeBytes cur)
      (Function.update left cur.node (some cur.arrival)) where
  settling := h.settling.settle ((h.visited cur.node).mp hcur) (h.queued.pop_label hpop hcur).1
    (Search.relaxed_expand p sizeBytes cur (s.visit cur queue))
  queued := (h.queued.visit hpop).expand p sizeBytes cur
  visited := by
    intro n
    rw [Search.visited_expand, Search.visit, GoMap.isSet_insert]
    by_cases hn : n = cur.node
    · subst hn
      simp
    · rw [Function.update_of_ne hn, ← h.visited n]
      simp [hn]

/-- What every settling of a least label keeps holds at the end of the loop, where `dest` has the
least label or nothing is labelled that is not settled. -/
theorem search_rule {p : ContactPlan} {sizeBytes : ℤ} {source dest : GoString} {readyAt : Time}
    {P : Labels GoString Contact Time → (GoString → Option Time) → Prop}
    (hsettle : ∀ {L L' left v t}, Settling (p.graph sizeBytes) source readyAt L left → P L left →
      left v = none → L.label v = some t → (∀ w a, left w = none → L.label w = some a → t ≤ a) →
      Relaxed (p.graph sizeBytes) ((p.graph sizeBytes).leaving v) t L L' →
      P L' (Function.update left v (some t)))
    {fuel : ℕ} {s : Search} {left : GoString → Option Time}
    {result : Option (GoMap GoString Contact × Time)}
    (hs : Explores p sizeBytes source readyAt s left) (hP : P s.labels left) (hdest : left dest = none)
    (h : search p dest sizeBytes fuel s = some result) :
    ∃ L left, Settling (p.graph sizeBytes) source readyAt L left ∧ P L left ∧ left dest = none ∧
      ((result = none ∧ ∀ w b, L.label w = some b → left w ≠ none) ∨
        ∃ arrival, result = some (L.parent, arrival) ∧ L.label dest = some arrival ∧
          ∀ w b, left w = none → L.label w = some b → arrival ≤ b) := by
  induction fuel generalizing s left with
  | zero => cases h
  | succ fuel ih =>
    unfold search at h
    rcases turn_cases p dest sizeBytes s with
      ⟨hnil, hturn⟩ |
      ⟨cur, queue, hpop, ⟨hold, hturn⟩ | ⟨hfresh, hself, hturn⟩ | ⟨hfresh, hne, hturn⟩⟩
    · rw [hturn] at h
      cases h
      refine ⟨s.labels, left, hs.settling, hP, hdest, .inl ⟨rfl, fun w b hb hw ↦ ?_⟩⟩
      have hmem := hs.queued.frontier w b hb ((hs.visited w).mpr hw)
      rw [hnil] at hmem
      cases hmem
    · rw [hturn] at h
      have hskip : Explores p sizeBytes source readyAt { s with queue := queue } left :=
        ⟨hs.settling, hs.queued.skip hpop hold, hs.visited⟩
      exact ih hskip hP hdest h
    · rw [hturn] at h
      cases h
      obtain ⟨hlabel, hleast⟩ := hs.queued.pop_label hpop hfresh
      refine ⟨s.labels, left, hs.settling, hP, hdest, .inr ⟨cur.arrival, rfl, hself ▸ hlabel, ?_⟩⟩
      exact fun w b hw hb ↦ hleast w b ((hs.visited w).mpr hw) hb
    · rw [hturn] at h
      obtain ⟨hlabel, hleast⟩ := hs.queued.pop_label hpop hfresh
      refine ih (hs.settle hpop hfresh) ?_ ?_ h
      · exact hsettle hs.settling hP ((hs.visited _).mp hfresh) hlabel
          (fun w b hw hb ↦ hleast w b ((hs.visited w).mpr hw) hb)
          (Search.relaxed_expand p sizeBytes cur (s.visit cur queue))
      · rw [Function.update_of_ne (Ne.symm hne)]
        exact hdest

end Zenith.Cgr
