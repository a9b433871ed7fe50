import Mathlib

/-!
# Block codes on streams

A stream is cut into blocks, each block is encoded as a word, and the words are put together again. A
code that corrects `t` errors in a word corrects `t` errors in every word of a stream, also if the
receiver gets the stream with fewer than a word of surplus at its end.
-/

namespace Zenith.BlockCode

/-! ## Cutting a stream -/

section Chunks

variable {α : Type*} {n : ℕ}

/-- The stream in pieces of `n`; the last one may be shorter. -/
def chunks (n : ℕ) (xs : List α) : List (List α) :=
  (List.range ((xs.length + n - 1) / n)).map fun i ↦ (xs.drop (n * i)).take n

theorem chunks_append (hn : 0 < n) {block : List α} (hblock : block.length = n) (rest : List α) :
    chunks n (block ++ rest) = block :: chunks n rest := by
  have hcount : ((block ++ rest).length + n - 1) / n = (rest.length + n - 1) / n + 1 := by
    rw [List.length_append, hblock, ← Nat.add_div_right _ hn]
    congr 1
    omega
  have hfirst : (List.drop (n * 0) (block ++ rest)).take n = block := by
    rw [Nat.mul_zero, List.drop_zero, List.take_left' hblock]
  have hnext (i : ℕ) : List.drop (n * (i + 1)) (block ++ rest) = rest.drop (n * i) := by
    rw [Nat.mul_succ, Nat.add_comm, ← List.drop_drop, List.drop_left' hblock]
  unfold chunks
  rw [hcount, List.range_succ_eq_map, List.map_cons, List.map_map, hfirst]
  congr 1
  apply List.map_congr_left
  intro i _
  rw [Function.comp_apply, hnext]

@[simp] theorem chunks_nil (hn : 0 < n) : chunks n ([] : List α) = [] := by
  have hcount : (0 + n - 1) / n = 0 := Nat.div_eq_of_lt (by omega)
  rw [chunks, List.length_nil, hcount]
  rfl

theorem chunks_flatten (hn : 0 < n) {blocks : List (List α)} (h : ∀ b ∈ blocks, b.length = n) :
    chunks n blocks.flatten = blocks := by
  induction blocks with
  | nil => exact chunks_nil hn
  | cons b blocks ih =>
    rw [List.flatten_cons, chunks_append hn (h b (by simp)),
      ih fun b' hb' ↦ h b' (List.mem_cons_of_mem _ hb')]

/-- A stream without a whole block has none among its pieces. -/
theorem filter_chunks_of_length_lt {xs : List α} (h : xs.length < n) :
    (chunks n xs).filter (·.length = n) = [] := by
  rw [List.filter_eq_nil_iff]
  intro piece hpiece
  obtain ⟨i, -, rfl⟩ := List.mem_map.mp hpiece
  rw [decide_eq_true_iff, List.length_take, List.length_drop]
  omega

/-- A stream of whole blocks. -/
theorem exists_blocks {xs : List α} {count : ℕ} (h : xs.length = n * count) :
    ∃ blocks : List (List α), (∀ b ∈ blocks, b.length = n) ∧ blocks.flatten = xs := by
  induction count generalizing xs with
  | zero => exact ⟨[], by simp, by simpa [eq_comm] using h⟩
  | succ count ih =>
    rw [Nat.mul_succ] at h
    have htake : (xs.take n).length = n := by
      rw [List.length_take]
      omega
    have hdrop : (xs.drop n).length = n * count := by
      rw [List.length_drop]
      omega
    obtain ⟨blocks, hblocks, hflatten⟩ := ih hdrop
    refine ⟨xs.take n :: blocks, ?_, by rw [List.flatten_cons, hflatten, List.take_append_drop]⟩
    intro b hb
    rcases List.mem_cons.mp hb with rfl | hb
    · exact htake
    · exact hblocks b hb

end Chunks

/-! ## Errors -/

section Errors

variable {β : Type*} [DecidableEq β] {n : ℕ}

/-- The number of places of word `i` in which the received stream differs from the sent one. -/
def errors (n : ℕ) (sent received : List β) (i : ℕ) : ℕ :=
  ((Finset.range n).filter fun j ↦ received[n * i + j]? ≠ sent[n * i + j]?).card

theorem errors_append_zero {word word' : List β} (h : word.length = n) (h' : word'.length = n)
    (rest rest' : List β) :
    errors n (word ++ rest) (word' ++ rest') 0 = errors n word word' 0 := by
  unfold errors
  congr 1
  apply Finset.filter_congr
  intro j hj
  have hlt := Finset.mem_range.mp hj
  rw [Nat.mul_zero, Nat.zero_add, List.getElem?_append_left (by omega),
    List.getElem?_append_left (by omega)]

theorem errors_append_succ {word word' : List β} (h : word.length = n) (h' : word'.length = n)
    (rest rest' : List β) (i : ℕ) :
    errors n (word ++ rest) (word' ++ rest') (i + 1) = errors n rest rest' i := by
  have hplace (j : ℕ) : n * (i + 1) + j - n = n * i + j := by
    rw [Nat.mul_succ]
    omega
  have hpast (j : ℕ) : n ≤ n * (i + 1) + j := by
    rw [Nat.mul_succ]
    omega
  unfold errors
  congr 1
  apply Finset.filter_congr
  intro j _
  rw [List.getElem?_append_right (h.trans_le (hpast j)),
    List.getElem?_append_right (h'.trans_le (hpast j)), h, h', hplace]

theorem errors_append_right {sent : List β} {i : ℕ} (h : n * (i + 1) ≤ sent.length)
    (surplus : List β) : errors n sent (sent ++ surplus) i = 0 := by
  unfold errors
  rw [Finset.card_eq_zero, Finset.filter_eq_empty_iff]
  intro j hj
  have hlt := Finset.mem_range.mp hj
  rw [Nat.mul_succ] at h
  rw [not_not, List.getElem?_append_left (by omega)]

/-- A word with at most one wrong bit is the sent one but for a flip. -/
theorem eq_or_flip {sent received : List Bool} (hsent : sent.length = n)
    (hreceived : received.length = n) (h : errors n sent received 0 ≤ 1) :
    received = sent ∨ ∃ j < n, received = sent.modify j (!·) := by
  have hplace (j : ℕ) (hj : j < n) (hne : received[j]? ≠ sent[j]?) :
      j ∈ (Finset.range n).filter fun j ↦ received[n * 0 + j]? ≠ sent[n * 0 + j]? := by
    rw [Finset.mem_filter, Nat.mul_zero, Nat.zero_add, Finset.mem_range]
    exact ⟨hj, hne⟩
  by_cases hsame : ∀ j < n, received[j]? = sent[j]?
  · left
    apply List.ext_getElem? fun j ↦ ?_
    by_cases hj : j < n
    · exact hsame j hj
    · rw [List.getElem?_eq_none (by omega), List.getElem?_eq_none (by omega)]
  · push Not at hsame
    obtain ⟨j, hj, hne⟩ := hsame
    refine .inr ⟨j, hj, List.ext_getElem? fun j' ↦ ?_⟩
    rw [List.getElem?_modify]
    by_cases hj' : j' < n
    · by_cases heq : j = j'
      · -- the two bits differ, so that one is the negation of the other
        subst heq
        rw [List.getElem?_eq_getElem (hreceived ▸ hj), List.getElem?_eq_getElem (hsent ▸ hj)] at hne ⊢
        simpa [Bool.eq_not_iff] using hne
      · simp only [if_neg heq, id_map']
        by_contra hne'
        have honly := Finset.card_le_one.mp h j (hplace j hj hne) j' (hplace j' hj' (by simpa using hne'))
        exact heq honly
    · rw [List.getElem?_eq_none (by omega), List.getElem?_eq_none (by omega)]
      simp

end Errors

/-! ## Codes -/

section Code

variable {α β : Type*} [DecidableEq β] {k n t : ℕ} {encode : List α → List β}
  {decode : List β → List α}

/-- Blocks of `k` symbols are recovered from words of `n` with at most `t` errors. -/
structure Corrects (k n t : ℕ) (encode : List α → List β) (decode : List β → List α) : Prop where
  length : ∀ {block}, block.length = k → (encode block).length = n
  decode : ∀ {block word}, block.length = k → word.length = n →
    errors n (encode block) word 0 ≤ t → decode word = block

theorem Corrects.decode_stream (h : Corrects k n t encode decode) (hn : 0 < n)
    {blocks : List (List α)} (hblocks : ∀ b ∈ blocks, b.length = k) {received : List β}
    (hlow : (blocks.flatMap encode).length ≤ received.length)
    (hhigh : received.length < (blocks.flatMap encode).length + n)
    (herrors : ∀ i < blocks.length, errors n (blocks.flatMap encode) received i ≤ t) :
    ((chunks n received).filter (·.length = n)).flatMap decode = blocks.flatten := by
  induction blocks generalizing received with
  | nil =>
    have hshort : received.length < n := by simpa using hhigh
    rw [filter_chunks_of_length_lt hshort]
    rfl
  | cons b blocks ih =>
    have hb : b.length = k := hblocks b (by simp)
    have hword : (encode b).length = n := h.length hb
    rw [List.flatMap_cons, List.length_append, hword] at hlow hhigh
    rw [List.flatMap_cons] at herrors
    -- the first word of the stream and the rest of it
    have htake : (received.take n).length = n := by
      rw [List.length_take]
      omega
    rw [← List.take_append_drop n received] at herrors ⊢
    have hfirst : decode (received.take n) = b := by
      apply h.decode hb htake
      rw [← errors_append_zero hword htake (blocks.flatMap encode) (received.drop n)]
      exact herrors 0 (by simp)
    have hrest : ((chunks n (received.drop n)).filter (·.length = n)).flatMap decode =
        blocks.flatten := by
      apply ih fun b' hb' ↦ hblocks b' (List.mem_cons_of_mem _ hb')
      · rw [List.length_drop]
        omega
      · rw [List.length_drop]
        omega
      · intro i hi
        rw [← errors_append_succ hword htake]
        exact herrors (i + 1) (by simpa using hi)
    rw [chunks_append hn htake, List.filter_cons_of_pos (by simpa using htake), List.flatMap_cons,
      hfirst, hrest, List.flatten_cons]

end Code

end Zenith.BlockCode
