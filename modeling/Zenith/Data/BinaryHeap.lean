import Mathlib

/-!
# Binary heaps in a list

The sift-up and sift-down loops of an array heap that is ordered by a key. A position outside the
list counts as key `⊤`, so that heap order needs no side conditions on indices. `pop_min` and the two
permutation results are what a priority queue is used for; the layout itself, which decides between
equal keys, is part of the definitions.
-/

namespace Zenith.BinaryHeap

variable {α κ : Type} [LinearOrder κ] (key : α → κ)

/-- Exchange two entries. -/
def swap (q : List α) (i j : ℕ) : List α :=
  match q[i]?, q[j]? with
  | some a, some b => (q.set i b).set j a
  | _, _ => q

/-- Entry `i` is strictly before entry `j`. -/
def less (q : List α) (i j : ℕ) : Bool :=
  match q[i]?, q[j]? with
  | some a, some b => key a < key b
  | _, _ => false

/-- Sift up; `j` itself is fuel enough, since a parent has a smaller index. -/
def up : ℕ → List α → ℕ → List α
  | 0, q, _ => q
  | fuel + 1, q, j =>
    let i := (j - 1) / 2
    if i = j ∨ ¬less key q j i then q else up fuel (swap q i j) i

/-- The smaller child of `i` among the first `n` entries, where there is a left one. -/
def smallerChild (q : List α) (i n : ℕ) : ℕ :=
  if 2 * i + 2 < n ∧ less key q (2 * i + 2) (2 * i + 1) then 2 * i + 2 else 2 * i + 1

/-- Sift down within the first `n` entries. -/
def down : ℕ → List α → ℕ → ℕ → List α
  | 0, q, _, _ => q
  | fuel + 1, q, i, n =>
    if n ≤ 2 * i + 1 then q
    else
      let j := smallerChild key q i n
      if less key q j i then down fuel (swap q i j) j n else q

def push (q : List α) (a : α) : List α := up key q.length (q ++ [a]) q.length

def pop (q : List α) : Option (α × List α) :=
  let n := q.length - 1
  let q := down key n (swap q 0 n) 0 n
  q.getLast?.map fun a ↦ (a, q.dropLast)

/-! ## Entries -/

/-- The key at a position, and `⊤` past the end. -/
def keyAt (q : List α) (i : ℕ) : WithTop κ := (q[i]?.map fun a ↦ (key a : WithTop κ)).getD ⊤

omit [LinearOrder κ] in
theorem keyAt_of_getElem? {q : List α} {i : ℕ} {a : α} (h : q[i]? = some a) :
    keyAt key q i = key a := by
  rw [keyAt, h]
  rfl

theorem less_iff {q : List α} {i j : ℕ} (hj : j < q.length) :
    less key q i j = true ↔ keyAt key q i < keyAt key q j := by
  have hb : q[j]? = some q[j] := List.getElem?_eq_getElem hj
  rw [less, keyAt_of_getElem? key hb, hb]
  cases ha : q[i]? with
  | none =>
    have htop : keyAt key q i = ⊤ := by
      rw [keyAt, ha]
      rfl
    simp [htop]
  | some a =>
    rw [keyAt_of_getElem? key ha]
    simp

@[simp] theorem length_swap (q : List α) (i j : ℕ) : (swap q i j).length = q.length := by
  unfold swap
  split <;> simp

theorem swap_perm (q : List α) (i j : ℕ) : (swap q i j).Perm q := by
  unfold swap
  split
  · next a b ha hb =>
    obtain ⟨hi, rfl⟩ := List.getElem?_eq_some_iff.mp ha
    obtain ⟨hj, rfl⟩ := List.getElem?_eq_some_iff.mp hb
    exact List.set_set_perm hi hj
  · exact .refl q

theorem getElem?_swap {q : List α} {i j : ℕ} (hi : i < q.length) (hj : j < q.length) (k : ℕ) :
    (swap q i j)[k]? = if k = i then q[j]? else if k = j then q[i]? else q[k]? := by
  have ha : q[i]? = some q[i] := List.getElem?_eq_getElem hi
  have hb : q[j]? = some q[j] := List.getElem?_eq_getElem hj
  simp only [swap, ha, hb, List.getElem?_set, List.length_set]
  by_cases hkj : j = k
  · subst hkj
    by_cases hki : j = i
    · subst hki
      simp [hj]
    · simp [hki, hj]
  · by_cases hki : i = k
    · subst hki
      simp [hkj, hi]
    · simp [hkj, hki, Ne.symm hkj, Ne.symm hki]

omit [LinearOrder κ] in
theorem keyAt_swap {q : List α} {i j : ℕ} (hi : i < q.length) (hj : j < q.length) (k : ℕ) :
    keyAt key (swap q i j) k =
      if k = i then keyAt key q j else if k = j then keyAt key q i else keyAt key q k := by
  rw [keyAt, getElem?_swap hi hj]
  split_ifs <;> rfl

omit [LinearOrder κ] in
theorem keyAt_append {key : α → κ} {q : List α} {c : ℕ} (hc : c < q.length) {a : α} :
    keyAt key (q ++ [a]) c = keyAt key q c := by
  rw [keyAt, List.getElem?_append_left hc, keyAt]

/-! ## Heap order -/

/-- No entry among the first `n` is before its parent. -/
def HeapBelow (n : ℕ) (q : List α) : Prop :=
  ∀ c, 0 < c → c < n → keyAt key q ((c - 1) / 2) ≤ keyAt key q c

/-- The order of a heap. -/
def IsHeap (q : List α) : Prop := HeapBelow key q.length q

/-- Heap order but for the entry `j`, which may be too small for its parent. -/
structure UpTo (q : List α) (j : ℕ) : Prop where
  other : ∀ c, 0 < c → c < q.length → c ≠ j → keyAt key q ((c - 1) / 2) ≤ keyAt key q c
  children : ∀ c, 0 < c → c < q.length → (c - 1) / 2 = j → 0 < j →
    keyAt key q ((j - 1) / 2) ≤ keyAt key q c

/-- Heap order below `n` but for the children of `i`, which may be too small for it. -/
structure DownFrom (q : List α) (i n : ℕ) : Prop where
  other : ∀ c, 0 < c → c < n → (c - 1) / 2 ≠ i → keyAt key q ((c - 1) / 2) ≤ keyAt key q c
  grandparent : ∀ c, 0 < c → c < n → (c - 1) / 2 = i → 0 < i →
    keyAt key q ((i - 1) / 2) ≤ keyAt key q c

variable {key}

theorem HeapBelow.root_le {n : ℕ} {q : List α} (h : HeapBelow key n q) {c : ℕ} (hc : c < n) :
    keyAt key q 0 ≤ keyAt key q c := by
  induction c using Nat.strongRecOn with
  | _ c ih =>
    rcases Nat.eq_zero_or_pos c with rfl | hpos
    · exact le_rfl
    · calc
        keyAt key q 0 ≤ keyAt key q ((c - 1) / 2) := ih _ (by omega) (by omega)
        _ ≤ keyAt key q c := h c hpos hc

theorem UpTo.swap {q : List α} {j : ℕ} (hj : j < q.length) (hpos : 0 < j)
    (hlt : keyAt key q j < keyAt key q ((j - 1) / 2)) (h : UpTo key q j) :
    UpTo key (BinaryHeap.swap q ((j - 1) / 2) j) ((j - 1) / 2) := by
  have hi : (j - 1) / 2 < q.length := by omega
  constructor
  · intro c hc hclen hne
    rw [length_swap] at hclen
    rw [keyAt_swap key hi hj, keyAt_swap key hi hj]
    by_cases hcj : c = j
    · subst hcj
      rw [if_pos rfl, if_neg (by omega), if_pos rfl]
      exact hlt.le
    · by_cases hparent : (c - 1) / 2 = (j - 1) / 2
      · rw [if_pos hparent, if_neg hne, if_neg hcj]
        calc
          keyAt key q j ≤ keyAt key q ((j - 1) / 2) := hlt.le
          _ ≤ keyAt key q c := hparent ▸ h.other c hc hclen hcj
      · by_cases hchild : (c - 1) / 2 = j
        · rw [if_neg hparent, if_pos hchild, if_neg hne, if_neg hcj]
          exact h.children c hc hclen hchild hpos
        · rw [if_neg hparent, if_neg hchild, if_neg hne, if_neg hcj]
          exact h.other c hc hclen hcj
  · intro c hc hclen hparent hipos
    rw [length_swap] at hclen
    rw [keyAt_swap key hi hj, keyAt_swap key hi hj, if_neg (by omega), if_neg (by omega)]
    have hgrand := h.other ((j - 1) / 2) hipos hi (by omega)
    by_cases hcj : c = j
    · rw [if_neg (by omega), if_pos hcj]
      exact hgrand
    · rw [if_neg (by omega), if_neg hcj]
      calc
        keyAt key q (((j - 1) / 2 - 1) / 2) ≤ keyAt key q ((j - 1) / 2) := hgrand
        _ ≤ keyAt key q c := hparent ▸ h.other c hc hclen hcj

theorem UpTo.isHeap_up {fuel : ℕ} {q : List α} {j : ℕ} (hj : j < q.length) (hfuel : j ≤ fuel)
    (h : UpTo key q j) : IsHeap key (up key fuel q j) := by
  have done (hle : 0 < j → keyAt key q ((j - 1) / 2) ≤ keyAt key q j) : IsHeap key q := by
    intro c hc hclen
    by_cases hcj : c = j
    · subst hcj
      exact hle hc
    · exact h.other c hc hclen hcj
  induction fuel generalizing q j with
  | zero => exact done fun hpos ↦ absurd hpos (by omega)
  | succ fuel ih =>
    unfold up
    dsimp only
    split_ifs with hstop
    · apply done
      intro hpos
      rcases hstop with hroot | hnot
      · omega
      · rw [less_iff key (by omega)] at hnot
        exact not_lt.mp hnot
    · push Not at hstop
      obtain ⟨hne, hless⟩ := hstop
      have hlt := (less_iff key (show (j - 1) / 2 < q.length by omega)).mp hless
      have hswap := h.swap hj (by omega) hlt
      refine ih (by rw [length_swap]; omega) (by omega) hswap fun hle ↦ ?_
      intro c hc hclen
      by_cases hci : c = (j - 1) / 2
      · subst hci
        exact hle hc
      · exact hswap.other c hc hclen hci

theorem isHeap_push {q : List α} (h : IsHeap key q) (a : α) : IsHeap key (push key q a) := by
  refine UpTo.isHeap_up (by simp) le_rfl ⟨?_, ?_⟩
  · intro c hc hclen hne
    have hold : c < q.length := by
      simp only [List.length_append, List.length_singleton] at hclen
      omega
    rw [keyAt_append hold, keyAt_append (by omega)]
    exact h c hc hold
  · intro c hc hclen hparent _
    simp only [List.length_append, List.length_singleton] at hclen
    omega

theorem smallerChild_le {q : List α} {i n : ℕ} (hn : n ≤ q.length) {c : ℕ} (hc : 0 < c)
    (hcn : c < n) (hparent : (c - 1) / 2 = i) :
    keyAt key q (smallerChild key q i n) ≤ keyAt key q c := by
  have hchild : c = 2 * i + 1 ∨ c = 2 * i + 2 := by omega
  unfold smallerChild
  split_ifs with hright
  · have hlt := (less_iff key (by omega)).mp hright.2
    rcases hchild with rfl | rfl
    · exact hlt.le
    · exact le_rfl
  · rcases hchild with rfl | rfl
    · exact le_rfl
    · rw [not_and, less_iff key (by omega)] at hright
      exact not_lt.mp (hright hcn)

theorem smallerChild_cases (key : α → κ) (q : List α) (i n : ℕ) :
    smallerChild key q i n = 2 * i + 1 ∨
      smallerChild key q i n = 2 * i + 2 ∧ 2 * i + 2 < n := by
  unfold smallerChild
  split_ifs with hright
  · exact .inr ⟨rfl, hright.1⟩
  · exact .inl rfl

theorem DownFrom.swap {q : List α} {i j n : ℕ} (hn : n ≤ q.length) (hjn : j < n) (hj : 0 < j)
    (hparent : (j - 1) / 2 = i) (hlt : keyAt key q j < keyAt key q i)
    (hmin : ∀ c, 0 < c → c < n → (c - 1) / 2 = i → keyAt key q j ≤ keyAt key q c)
    (h : DownFrom key q i n) :
    DownFrom key (BinaryHeap.swap q i j) j n := by
  have hi : i < q.length := by omega
  have hjlen : j < q.length := by omega
  constructor
  · intro c hc hcn hne
    rw [keyAt_swap key hi hjlen, keyAt_swap key hi hjlen]
    by_cases hcj : c = j
    · subst hcj
      rw [if_pos hparent, if_neg (by omega), if_pos rfl]
      exact hlt.le
    · by_cases hci : c = i
      · subst hci
        rw [if_neg (by omega), if_neg hne, if_pos rfl]
        exact h.grandparent j hj hjn hparent hc
      · by_cases hci' : (c - 1) / 2 = i
        · rw [if_pos hci', if_neg hci, if_neg hcj]
          exact hmin c hc hcn hci'
        · rw [if_neg hci', if_neg hne, if_neg hci, if_neg hcj]
          exact h.other c hc hcn hci'
  · intro c hc hcn hcj _
    rw [keyAt_swap key hi hjlen, keyAt_swap key hi hjlen, if_pos hparent, if_neg (by omega),
      if_neg (by omega)]
    exact hcj ▸ h.other c hc hcn (by omega)

theorem DownFrom.heapBelow_down {fuel : ℕ} {q : List α} {i n : ℕ} (hn : n ≤ q.length)
    (hfuel : n ≤ i + fuel) (h : DownFrom key q i n) :
    HeapBelow key n (down key fuel q i n) := by
  have done (hle : ∀ c, 0 < c → c < n → (c - 1) / 2 = i → keyAt key q i ≤ keyAt key q c) :
      HeapBelow key n q := by
    intro c hc hcn
    by_cases hci : (c - 1) / 2 = i
    · rw [hci]
      exact hle c hc hcn hci
    · exact h.other c hc hcn hci
  induction fuel generalizing q i with
  | zero => exact done fun c hc hcn hci ↦ absurd hcn (by omega)
  | succ fuel ih =>
    unfold down
    dsimp only
    split_ifs with hleaf hless
    · exact done fun c hc hcn hci ↦ absurd hcn (by omega)
    · have hcases := smallerChild_cases key q i n
      have hjn : smallerChild key q i n < n := by omega
      have hlt := (less_iff key (show i < q.length by omega)).mp hless
      have hswap := h.swap hn hjn (by omega) (by omega) hlt
        fun c hc hcn hci ↦ smallerChild_le hn hc hcn hci
      refine ih (by rw [length_swap]; exact hn) (by omega) hswap fun hle c hc hcn ↦ ?_
      by_cases hcj : (c - 1) / 2 = smallerChild key q i n
      · rw [hcj]
        exact hle c hc hcn hcj
      · exact hswap.other c hc hcn hcj
    · rw [less_iff key (by omega)] at hless
      apply done
      intro c hc hcn hci
      calc
        keyAt key q i ≤ keyAt key q (smallerChild key q i n) := not_lt.mp hless
        _ ≤ keyAt key q c := smallerChild_le hn hc hcn hci

/-! ## The queue operations -/

theorem up_perm (key : α → κ) (fuel : ℕ) (q : List α) (j : ℕ) : (up key fuel q j).Perm q := by
  induction fuel generalizing q j with
  | zero => exact .refl q
  | succ fuel ih =>
    unfold up
    dsimp only
    split_ifs
    · exact .refl q
    · exact (ih _ _).trans (swap_perm q _ _)

theorem down_perm (key : α → κ) (fuel : ℕ) (q : List α) (i n : ℕ) : (down key fuel q i n).Perm q := by
  induction fuel generalizing q i with
  | zero => exact .refl q
  | succ fuel ih =>
    unfold down
    dsimp only
    split_ifs
    · exact .refl q
    · exact (ih _ _).trans (swap_perm q _ _)
    · exact .refl q

theorem getElem?_down {n k : ℕ} (hk : n ≤ k) (fuel : ℕ) {q : List α} (hn : n ≤ q.length)
    (i : ℕ) : (down key fuel q i n)[k]? = q[k]? := by
  induction fuel generalizing q i with
  | zero => rfl
  | succ fuel ih =>
    unfold down
    dsimp only
    split_ifs with hleaf
    · rfl
    · have hcases := smallerChild_cases key q i n
      rw [ih (by rw [length_swap]; exact hn), getElem?_swap (by omega) (by omega),
        if_neg (by omega), if_neg (by omega)]
    · rfl

theorem push_perm (q : List α) (a : α) : (push key q a).Perm (a :: q) := by
  calc
    (push key q a).Perm (q ++ [a]) := up_perm key _ _ _
    List.Perm _ (a :: q) := List.perm_append_singleton a q

@[simp] theorem mem_push {q : List α} {a b : α} : b ∈ push key q a ↔ b = a ∨ b ∈ q := by
  rw [(push_perm q a).mem_iff, List.mem_cons]

@[simp] theorem length_push (q : List α) (a : α) : (push key q a).length = q.length + 1 :=
  (push_perm q a).length_eq

/-- The list that `pop` splits into its last entry and the others. -/
theorem pop_eq_some {q q' : List α} {a : α} (h : pop key q = some (a, q')) :
    down key (q.length - 1) (swap q 0 (q.length - 1)) 0 (q.length - 1) = q' ++ [a] := by
  obtain ⟨b, hlast, hpair⟩ := Option.map_eq_some_iff.mp h
  cases hpair
  obtain ⟨init, hinit⟩ := List.getLast?_eq_some_iff.mp hlast
  rw [hinit, List.dropLast_concat]

theorem pop_perm {q q' : List α} {a : α} (h : pop key q = some (a, q')) : q.Perm (a :: q') := by
  calc
    q.Perm _ := ((down_perm key _ _ _ _).trans (swap_perm q _ _)).symm
    List.Perm _ (q' ++ [a]) := .of_eq (pop_eq_some h)
    List.Perm _ (a :: q') := List.perm_append_singleton a q'

@[simp] theorem pop_eq_none {q : List α} : pop key q = none ↔ q = [] := by
  have hlen := ((down_perm key (q.length - 1) (swap q 0 (q.length - 1)) 0
    (q.length - 1)).trans (swap_perm q _ _)).length_eq
  unfold pop
  dsimp only
  rw [Option.map_eq_none_iff, List.getLast?_eq_none_iff, ← List.length_eq_zero_iff, hlen,
    List.length_eq_zero_iff]

theorem pop_length {q q' : List α} {a : α} (h : pop key q = some (a, q')) :
    q.length = q'.length + 1 := (pop_perm h).length_eq

theorem pop_root {q q' : List α} {a : α} (h : pop key q = some (a, q')) : q[0]? = some a := by
  have hlen := pop_length h
  have hlast := congrArg (fun l ↦ l[q.length - 1]?) (pop_eq_some h)
  rw [show q.length - 1 = q'.length by omega] at hlast
  simp only [List.getElem?_concat_length] at hlast
  rw [getElem?_down le_rfl _ (by simp; omega), getElem?_swap (by omega) (by omega)] at hlast
  rw [← hlast]
  by_cases hone : q'.length = 0
  · rw [if_pos hone, hone]
  · rw [if_neg hone, if_pos rfl]

theorem pop_min {q q' : List α} {a : α} (hq : IsHeap key q) (h : pop key q = some (a, q'))
    {b : α} (hb : b ∈ q) : key a ≤ key b := by
  obtain ⟨c, hc⟩ := List.getElem?_of_mem hb
  have hlt : c < q.length := (List.getElem?_eq_some_iff.mp hc).1
  have hle := HeapBelow.root_le hq hlt
  rw [keyAt_of_getElem? key (pop_root h), keyAt_of_getElem? key hc] at hle
  exact WithTop.coe_le_coe.mp hle

theorem isHeap_pop {q q' : List α} {a : α} (hq : IsHeap key q) (h : pop key q = some (a, q')) :
    IsHeap key q' := by
  have hlen := pop_length h
  set n := q.length - 1 with hn
  have hdown : DownFrom key (swap q 0 n) 0 n := by
    constructor
    · intro c hc hcn hne
      rw [keyAt_swap key (by omega) (by omega), keyAt_swap key (by omega) (by omega),
        if_neg hne, if_neg (by omega), if_neg (by omega), if_neg (by omega)]
      exact hq c hc (by omega)
    · intro c hc hcn hci hzero
      exact absurd hzero (lt_irrefl 0)
  have hheap := hdown.heapBelow_down (by simp; omega) (show n ≤ 0 + n by omega)
  rw [pop_eq_some h] at hheap
  intro c hc hclen
  have hle := hheap c hc (by omega)
  rwa [keyAt_append (by omega), keyAt_append (by omega)] at hle

theorem isHeap_nil : IsHeap key ([] : List α) := fun _ _ h ↦ absurd h (by simp)

end Zenith.BinaryHeap
