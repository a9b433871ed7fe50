import Zenith.Data.BinaryHeap

/-!
# Loops over a priority queue

A loop takes the least event out of a heap, handles it, and puts in the events that this causes. An
agenda is what such a loop does to its queue, whatever the events mean. Nothing is lost and nothing
is made up: the events taken out and those left over are the ones at the start and the ones caused.
Where no event causes an earlier one, events are taken out in order.
-/

namespace Zenith.EventLoop

open BinaryHeap

variable {α κ : Type} [LinearOrder κ] {key : α → κ}

/-- Each event of the trace, taken from the queue in turn, with the events it causes. -/
inductive Agenda (key : α → κ) : List α → List (α × List α) → List α → Prop
  | nil (q : List α) : Agenda key q [] q
  | cons {q queue q' caused : List α} {a : α} {trace : List (α × List α)}
      (hpop : pop key q = some (a, queue))
      (htail : Agenda key (caused.foldl (push key) queue) trace q') :
      Agenda key q ((a, caused) :: trace) q'

theorem foldl_push_perm (key : α → κ) (queue caused : List α) :
    (caused.foldl (push key) queue).Perm (queue ++ caused) := by
  induction caused generalizing queue with
  | nil => rw [List.foldl_nil, List.append_nil]
  | cons a caused ih =>
    calc
      (caused.foldl (push key) (push key queue a)).Perm (push key queue a ++ caused) := ih _
      List.Perm _ (a :: queue ++ caused) := (push_perm queue a).append_right caused
      List.Perm _ (queue ++ a :: caused) := List.perm_middle.symm

theorem isHeap_foldl_push {queue : List α} (h : IsHeap key queue) (caused : List α) :
    IsHeap key (caused.foldl (push key) queue) := by
  induction caused generalizing queue with
  | nil => exact h
  | cons a caused ih => exact ih (isHeap_push h a)

namespace Agenda

variable {q q' : List α} {trace : List (α × List α)}

/-- Nothing is lost and nothing is made up. -/
theorem perm (h : Agenda key q trace q') :
    (trace.map Prod.fst ++ q').Perm (q ++ trace.flatMap Prod.snd) := by
  induction h with
  | nil q => rw [List.map_nil, List.nil_append, List.flatMap_nil, List.append_nil]
  | @cons q queue q' caused a trace hpop _ ih =>
    rw [List.map_cons, List.flatMap_cons]
    calc
      (a :: (trace.map Prod.fst ++ q')).Perm
          (a :: (caused.foldl (push key) queue ++ trace.flatMap Prod.snd)) := ih.cons a
      List.Perm _ (a :: (queue ++ caused ++ trace.flatMap Prod.snd)) :=
        ((foldl_push_perm key queue caused).append_right _).cons a
      List.Perm _ (a :: queue ++ (caused ++ trace.flatMap Prod.snd)) := by
        rw [List.append_assoc]
        rfl
      List.Perm _ (q ++ (caused ++ trace.flatMap Prod.snd)) :=
        (pop_perm hpop).symm.append_right _

/-- What all events at hand have, and what an event that has it hands on to those it causes, all
events to come have. -/
theorem forall_of_caused {E : α → Prop} (h : Agenda key q trace q') (hq : ∀ a ∈ q, E a)
    (hcaused : ∀ turn ∈ trace, E turn.1 → ∀ b ∈ turn.2, E b) :
    ∀ b ∈ trace.map Prod.fst ++ q', E b := by
  induction h with
  | nil q => exact hq
  | @cons q queue q' caused a trace hpop _ ih =>
    have ha : E a := hq a ((pop_perm hpop).mem_iff.mpr List.mem_cons_self)
    intro b hb
    rw [List.map_cons, List.cons_append, List.mem_cons] at hb
    rcases hb with rfl | hb
    · exact ha
    refine ih (fun c hc ↦ ?_) (fun turn hturn ↦ hcaused turn (List.mem_cons_of_mem _ hturn)) b hb
    rw [(foldl_push_perm key queue caused).mem_iff, List.mem_append] at hc
    rcases hc with hold | hnew
    · exact hq c ((pop_perm hpop).mem_iff.mpr (List.mem_cons_of_mem a hold))
    · exact hcaused _ List.mem_cons_self ha c hnew

/-- Events are taken out in order where none causes an earlier one. -/
theorem pairwise_le (h : Agenda key q trace q') (hq : IsHeap key q)
    (hcaused : ∀ turn ∈ trace, ∀ b ∈ turn.2, key turn.1 ≤ key b) :
    (trace.map Prod.fst).Pairwise fun a b ↦ key a ≤ key b := by
  induction h with
  | nil q => exact .nil
  | @cons q queue q' caused a trace hpop htail ih =>
    have hlater : ∀ turn ∈ trace, ∀ b ∈ turn.2, key turn.1 ≤ key b :=
      fun turn hturn ↦ hcaused turn (List.mem_cons_of_mem _ hturn)
    rw [List.map_cons, List.pairwise_cons]
    refine ⟨fun b hb ↦ ?_, ih (isHeap_foldl_push (isHeap_pop hq hpop) _) hlater⟩
    apply htail.forall_of_caused (E := fun b ↦ key a ≤ key b) _
      (fun turn hturn hle c hc ↦ hle.trans (hlater turn hturn c hc)) b (List.mem_append_left _ hb)
    intro c hc
    rw [(foldl_push_perm key queue caused).mem_iff, List.mem_append] at hc
    rcases hc with hold | hnew
    · exact pop_min hq hpop ((pop_perm hpop).mem_iff.mpr (List.mem_cons_of_mem a hold))
    · exact hcaused _ List.mem_cons_self c hnew

end Agenda

end Zenith.EventLoop
