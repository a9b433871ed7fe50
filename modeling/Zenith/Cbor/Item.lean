import Zenith.Data.BigEndian

/-!
# The syntax of RFC 8949 data items

A data item is a head (an initial byte and the argument bytes it announces) followed by its content:
raw bytes for a definite-length string, nested items for an array, a map, a tag or an
indefinite-length container, and a break code when the length is indefinite.

`Item.Skeleton` is what any reader that follows heads and breaks agrees on; it leaves open where a
break may stand for an item and which heads may be indefinite. `Item.WellFormed` adds the rules of
the RFC. `Item.bytes_append_inj` says that skeletons are self-delimiting: a byte string starts
with at most one of them.
-/

namespace Zenith.Cbor

/-- The initial byte of an item and the argument bytes that follow it. -/
structure Head where
  initial : UInt8
  argument : List UInt8

namespace Head

/-- The high three bits of the initial byte. -/
def major (h : Head) : UInt8 := h.initial >>> 5

/-- The additional information: the low five bits of the initial byte. -/
def info (h : Head) : UInt8 := h.initial &&& 0x1f

/-- How many argument bytes the additional information announces; 28 to 30 are reserved. -/
def argumentWidth (info : UInt8) : Option ℕ :=
  if info < 24 then some 0
  else if info = 24 then some 1
  else if info = 25 then some 2
  else if info = 26 then some 4
  else if info = 27 then some 8
  else if info = 31 then some 0
  else none

def Valid (h : Head) : Prop := argumentWidth h.info = some h.argument.length

/-- Additional information 31: a length left open, or the break code. -/
def Indefinite (h : Head) : Prop := h.info = 31

instance (h : Head) : Decidable h.Indefinite := inferInstanceAs (Decidable (h.info = 31))

/-- The argument: a number below 24 in the initial byte itself, a larger one in the bytes after it. -/
def count (h : Head) : ℕ :=
  if h.info < 24 then h.info.toNat else BigEndian.decode h.argument

def bytes (h : Head) : List UInt8 := h.initial :: h.argument

/-- Length of the raw content, present on definite-length strings only. -/
def contentLength (h : Head) : ℕ :=
  if (h.major = 2 ∨ h.major = 3) ∧ ¬h.Indefinite then h.count else 0

/-- How many items are nested directly below the head; `none` means up to a break. -/
def childCount (h : Head) : Option ℕ :=
  if h.major = 2 ∨ h.major = 3 then if h.Indefinite then none else some 0
  else if h.major = 4 then if h.Indefinite then none else some h.count
  else if h.major = 5 then if h.Indefinite then none else some (2 * h.count)
  else if h.major = 6 then some 1
  else some 0

/-- Whether a break may close the content after `n` nested items: in a map only before a key. -/
def ClosesAt (h : Head) (n : ℕ) : Prop := h.major = 5 → n % 2 = 0

@[simp] theorem length_bytes (h : Head) : h.bytes.length = 1 + h.argument.length := by
  simp [bytes, Nat.add_comm]

theorem bytes_append_inj {h h' : Head} (hv : h.Valid) (hv' : h'.Valid) {t t' : List UInt8}
    (heq : h.bytes ++ t = h'.bytes ++ t') : h = h' ∧ t = t' := by
  obtain ⟨initial, argument⟩ := h
  obtain ⟨initial', argument'⟩ := h'
  simp only [bytes, List.cons_append, List.cons.injEq] at heq
  obtain ⟨rfl, heq⟩ := heq
  have hlen : argument.length = argument'.length := by
    simpa [Valid, info] using hv.symm.trans hv'
  obtain ⟨rfl, rfl⟩ := List.append_inj heq hlen
  exact ⟨rfl, rfl⟩

theorem length_argument_le {h : Head} (hv : h.Valid) : h.argument.length ≤ 8 := by
  unfold Valid argumentWidth at hv
  split_ifs at hv <;> simp at hv <;> omega

theorem count_lt {h : Head} (hv : h.Valid) : h.count < 2 ^ 64 := by
  unfold count
  split
  · have := h.info.toNat_lt
    omega
  · calc
      BigEndian.decode h.argument < 256 ^ h.argument.length := BigEndian.decode_lt _
      _ ≤ 256 ^ 8 := Nat.pow_le_pow_right (by norm_num) (length_argument_le hv)
      _ = 2 ^ 64 := by norm_num

end Head

/-- One data item: its head, the raw content of a definite-length string, and the nested items. -/
inductive Item
  | node (head : Head) (content : List UInt8) (children : List Item)

namespace Item

def head : Item → Head
  | node head _ _ => head

/-- The break code, read as an item. -/
def IsBreak (s : Item) : Prop := s.head.initial = 0xff

instance (s : Item) : Decidable s.IsBreak :=
  inferInstanceAs (Decidable (s.head.initial = 0xff))

/-- Induction over items, with the hypothesis for every nested item. -/
@[induction_eliminator]
theorem induction {motive : Item → Prop}
    (node : ∀ head content children, (∀ c ∈ children, motive c) →
      motive (node head content children)) (s : Item) : motive s :=
  @Item.rec motive (fun children ↦ ∀ c ∈ children, motive c)
    (fun head content children ih ↦ node head content children ih)
    (fun _ h ↦ absurd h List.not_mem_nil)
    (fun _ _ ihc ihcs c' h ↦ by
      rcases List.mem_cons.mp h with rfl | h
      · exact ihc
      · exact ihcs c' h) s

mutual

/-- The bytes of an item. -/
def bytes : Item → List UInt8
  | node head content children =>
    head.bytes ++ content ++ bytesList children ++
      (if head.childCount = none then [0xff] else [])

def bytesList : List Item → List UInt8
  | [] => []
  | c :: cs => bytes c ++ bytesList cs

end

@[simp] theorem bytesList_nil : bytesList [] = [] := by simp [bytesList]

@[simp] theorem bytesList_cons (c : Item) (cs : List Item) :
    bytesList (c :: cs) = c.bytes ++ bytesList cs := by simp [bytesList]

@[simp] theorem bytesList_append (cs cs' : List Item) :
    bytesList (cs ++ cs') = bytesList cs ++ bytesList cs' := by
  induction cs with
  | nil => simp
  | cons c cs ih => simp [ih]

theorem bytes_eq_cons (s : Item) : ∃ rest, s.bytes = s.head.initial :: rest := by
  obtain ⟨head, content, children⟩ := s
  simp [bytes, Item.head, Head.bytes]

theorem length_bytes_pos (s : Item) : 0 < s.bytes.length := by
  obtain ⟨rest, h⟩ := s.bytes_eq_cons
  simp [h]

/-- `rule` holds at every node of an item. -/
inductive All (rule : Head → List UInt8 → List Item → Prop) : Item → Prop
  | intro {head : Head} {content : List UInt8} {children : List Item}
      (here : rule head content children) (nested : ∀ c ∈ children, All rule c) :
      All rule (.node head content children)

theorem All.rule_holds {rule : Head → List UInt8 → List Item → Prop} {head : Head}
    {content : List UInt8} {children : List Item} (h : All rule (.node head content children)) :
    rule head content children := by
  cases h with
  | intro here nested => exact here

theorem All.of_mem {rule : Head → List UInt8 → List Item → Prop} {head : Head}
    {content : List UInt8} {children : List Item} (h : All rule (.node head content children)) :
    ∀ c ∈ children, All rule c := by
  cases h with
  | intro here nested => exact nested

/-- Heads, lengths, counts and breaks agree at one node. Nothing is said yet about what a break or
an indefinite length may be attached to. -/
structure SkeletonRule (head : Head) (content : List UInt8) (children : List Item) : Prop where
  valid : head.Valid
  length_content : content.length = head.contentLength
  length_children : ∀ n, head.childCount = some n → children.length = n
  closes : head.ClosesAt children.length
  open_before : head.childCount = none → ∀ i c, children[i]? = some c → head.ClosesAt i → ¬c.IsBreak

def Skeleton (s : Item) : Prop := s.All SkeletonRule

/-- Nested items of a fixed number are determined by the bytes. -/
theorem bytesList_append_inj_of_length {cs : List Item}
    (ih : ∀ c ∈ cs, c.Skeleton → ∀ s t t', Skeleton s → c.bytes ++ t = s.bytes ++ t' →
      c = s ∧ t = t')
    (hcs : ∀ c ∈ cs, c.Skeleton) {cs' : List Item} (hcs' : ∀ c ∈ cs', c.Skeleton)
    (hlen : cs.length = cs'.length) {t t' : List UInt8}
    (heq : bytesList cs ++ t = bytesList cs' ++ t') : cs = cs' ∧ t = t' := by
  induction cs generalizing cs' with
  | nil =>
    obtain rfl : cs' = [] := List.length_eq_zero_iff.mp hlen.symm
    simpa using heq
  | cons c cs ihcs =>
    obtain ⟨c', cs', rfl⟩ : ∃ c' l, cs' = c' :: l := List.exists_cons_of_length_eq_add_one hlen.symm
    simp only [bytesList_cons, List.append_assoc] at heq
    obtain ⟨rfl, hrest⟩ := ih c (by simp) (hcs c (by simp)) c' _ _ (hcs' c' (by simp)) heq
    obtain ⟨rfl, ht⟩ := ihcs (fun d hd ↦ ih d (by simp [hd])) (fun d hd ↦ hcs d (by simp [hd]))
      (fun d hd ↦ hcs' d (by simp [hd])) (by simpa using hlen) hrest
    exact ⟨rfl, ht⟩

/-- Nested items up to a break are determined by the bytes. The position `k` of the first one
decides whether a break there would have closed the content. -/
theorem bytesList_append_inj_of_break (closes : ℕ → Prop) (k : ℕ) {cs : List Item}
    (ih : ∀ c ∈ cs, c.Skeleton → ∀ s t t', Skeleton s → c.bytes ++ t = s.bytes ++ t' →
      c = s ∧ t = t')
    (hcs : ∀ c ∈ cs, c.Skeleton) (hend : closes (k + cs.length))
    (hopen : ∀ i c, cs[i]? = some c → closes (k + i) → ¬c.IsBreak)
    {cs' : List Item} (hcs' : ∀ c ∈ cs', c.Skeleton) (hend' : closes (k + cs'.length))
    (hopen' : ∀ i c, cs'[i]? = some c → closes (k + i) → ¬c.IsBreak) {t t' : List UInt8}
    (heq : bytesList cs ++ 0xff :: t = bytesList cs' ++ 0xff :: t') : cs = cs' ∧ t = t' := by
  have first_not_break {c : Item} {u v : List UInt8} (hc : ¬c.IsBreak)
      (h : 0xff :: u = c.bytes ++ v) : False := by
    obtain ⟨rest, hbytes⟩ := c.bytes_eq_cons
    rw [hbytes, List.cons_append, List.cons.injEq] at h
    exact hc h.1.symm
  induction cs generalizing k cs' with
  | nil =>
    cases cs' with
    | nil => simpa using heq
    | cons c' cs' =>
      simp only [bytesList_nil, List.nil_append, bytesList_cons, List.append_assoc] at heq
      exact (first_not_break (hopen' 0 c' rfl hend) heq).elim
  | cons c cs ihcs =>
    cases cs' with
    | nil =>
      simp only [bytesList_nil, List.nil_append, bytesList_cons, List.append_assoc] at heq
      exact (first_not_break (hopen 0 c rfl hend') heq.symm).elim
    | cons c' cs' =>
      simp only [bytesList_cons, List.append_assoc] at heq
      obtain ⟨rfl, hrest⟩ := ih c (by simp) (hcs c (by simp)) c' _ _ (hcs' c' (by simp)) heq
      have hshift (i : ℕ) : k + 1 + i = k + (i + 1) := by omega
      obtain ⟨rfl, ht⟩ := ihcs (k + 1) (fun d hd ↦ ih d (by simp [hd]))
        (fun d hd ↦ hcs d (by simp [hd])) (by simpa [hshift] using hend)
        (fun i d hd hclose ↦ hopen (i + 1) d (by simpa using hd) (hshift i ▸ hclose))
        (fun d hd ↦ hcs' d (by simp [hd])) (by simpa [hshift] using hend')
        (fun i d hd hclose ↦ hopen' (i + 1) d (by simpa using hd) (hshift i ▸ hclose)) hrest
      exact ⟨rfl, ht⟩

/-- Items are self-delimiting: no byte string starts with two different skeletons. -/
theorem bytes_append_inj {s s' : Item} (hs : s.Skeleton) (hs' : s'.Skeleton) {t t' : List UInt8}
    (heq : s.bytes ++ t = s'.bytes ++ t') : s = s' ∧ t = t' := by
  induction s generalizing s' t t' with
  | node head content children ih =>
    obtain ⟨head', content', children'⟩ := s'
    obtain ⟨valid, hcontent, hcount, hcloses, hopen⟩ := hs.rule_holds
    obtain ⟨valid', hcontent', hcount', hcloses', hopen'⟩ := hs'.rule_holds
    have hchildren := hs.of_mem
    have hchildren' := hs'.of_mem
    simp only [bytes, List.append_assoc] at heq
    obtain ⟨rfl, hafter⟩ := Head.bytes_append_inj valid valid' heq
    obtain ⟨rfl, hbody⟩ := List.append_inj hafter (hcontent.trans hcontent'.symm)
    have ihc : ∀ c ∈ children, c.Skeleton → ∀ s t t', Skeleton s → c.bytes ++ t = s.bytes ++ t' →
        c = s ∧ t = t' := fun c hc hsk s u v hs h ↦ ih c hc hsk hs h
    cases hkind : head.childCount with
    | none =>
      simp only [hkind, if_true, List.singleton_append] at hbody
      obtain ⟨rfl, rfl⟩ := bytesList_append_inj_of_break head.ClosesAt 0 ihc
        hchildren (by simpa using hcloses) (by simpa using hopen hkind)
        hchildren' (by simpa using hcloses') (by simpa using hopen' hkind) hbody
      exact ⟨rfl, rfl⟩
    | some n =>
      simp only [hkind, reduceCtorEq, if_false, List.nil_append] at hbody
      have hlen : children.length = children'.length := by
        calc
          children.length = n := hcount n hkind
          _ = children'.length := (hcount' n hkind).symm
      obtain ⟨rfl, rfl⟩ := bytesList_append_inj_of_length ihc hchildren hchildren' hlen hbody
      exact ⟨rfl, rfl⟩

/-- What RFC 8949 asks of one node beyond the skeleton: an indefinite length only on strings, arrays
and maps (a break, which is additional information 31 on major type 7, is no item), chunks that are
definite-length strings of the same type, no two-byte spelling of a simple value below 32. -/
structure StrictRule (head : Head) (_content : List UInt8) (children : List Item) : Prop where
  indefinite : head.Indefinite →
    head.major = 2 ∨ head.major = 3 ∨ head.major = 4 ∨ head.major = 5
  chunks : head.major = 2 ∨ head.major = 3 →
    ∀ c ∈ children, c.head.major = head.major ∧ ¬c.head.Indefinite
  simple : head.major = 7 → head.info = 24 → 32 ≤ head.count

/-- The well-formed data items of RFC 8949. -/
def WellFormed (s : Item) : Prop := s.Skeleton ∧ s.All StrictRule

theorem IsBreak.major {s : Item} (h : s.IsBreak) : s.head.major = 7 := by
  rw [Head.major, show s.head.initial = 0xff from h]
  decide

theorem IsBreak.indefinite {s : Item} (h : s.IsBreak) : s.head.Indefinite := by
  rw [Head.Indefinite, Head.info, show s.head.initial = 0xff from h]
  decide

theorem WellFormed.not_isBreak {s : Item} (hs : s.WellFormed) : ¬s.IsBreak := by
  intro hbreak
  obtain ⟨head, content, children⟩ := s
  have hstrict := hs.2.rule_holds.indefinite hbreak.indefinite
  have hmajor : head.major = 7 := hbreak.major
  rw [hmajor] at hstrict
  exact absurd hstrict (by decide)

/-- A byte string that is exactly one well-formed data item. -/
def IsDataItem (data : List UInt8) : Prop := ∃ s : Item, s.WellFormed ∧ s.bytes = data

end Item

end Zenith.Cbor
