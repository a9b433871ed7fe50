import Mathlib

/-!
# Earliest arrival over edges that depend on time

An edge answers a departure time with an arrival time or refuses it; whoever departs earlier is
not later. A search labels nodes with arrival times and settles one node after the other: it fixes
the time at which the node is left and relaxes all its edges there. `Settling` is what holds for
every order of settling, `Greedy` what least labels first adds where no edge arrives before it
departs. The parents need not form a tree in general; a loop among them takes a closed journey that
comes back before it left.
-/

namespace Zenith.EarliestArrival

structure TimedGraph (V E τ : Type) [LinearOrder τ] where
  edges : Set E
  source : E → V
  target : E → V
  arrive : E → τ → Option τ
  /-- Overtaking is impossible. -/
  fifo : ∀ {e : E} {t t' a' : τ}, t ≤ t' → arrive e t' = some a' → ∃ a ≤ a', arrive e t = some a

variable {V E τ : Type} [LinearOrder τ]

namespace TimedGraph

variable (G : TimedGraph V E τ)

/-- The edges that lead from one node and time to another, each taken as soon as possible. -/
inductive Journey : V → τ → List E → V → τ → Prop
  | nil (u : V) (t : τ) : Journey u t [] u t
  | cons {u v : V} {t b a : τ} {e : E} {es : List E} (hmem : e ∈ G.edges) (hsource : G.source e = u)
      (harrive : G.arrive e t = some b) (htail : Journey (G.target e) b es v a) :
      Journey u t (e :: es) v a

/-- No edge arrives before it departs. -/
def Causal : Prop := ∀ ⦃e : E⦄, e ∈ G.edges → ∀ ⦃t a : τ⦄, G.arrive e t = some a → t ≤ a

def leaving (v : V) : Set E := {e ∈ G.edges | G.source e = v}

/-- Whoever starts at `s` at `t₀` can come to the start of a closed journey that does not touch `s`
and is back before it left. -/
def TimeTravel (s : V) (t₀ : τ) : Prop :=
  ∃ (w : V) (t a : τ) (es fs : List E), G.Journey s t₀ fs w t ∧ G.Journey w t es w a ∧ a < t ∧
    ∀ e ∈ es, G.target e ≠ s

variable {G}

theorem Journey.append {u v w : V} {t b a : τ} {es fs : List E} (h : G.Journey u t es v b)
    (h' : G.Journey v b fs w a) : G.Journey u t (es ++ fs) w a := by
  induction h with
  | nil => exact h'
  | cons hmem hsource harrive _ ih => exact .cons hmem hsource harrive (ih h')

theorem Journey.snoc {u : V} {t b a : τ} {es : List E} {e : E}
    (h : G.Journey u t es (G.source e) b) (hmem : e ∈ G.edges) (harrive : G.arrive e b = some a) :
    G.Journey u t (es ++ [e]) (G.target e) a :=
  h.append (.cons hmem rfl harrive (.nil _ _))

/-- Whoever starts the same edges earlier is not later at their end. -/
theorem Journey.fifo {u v : V} {t t' a' : τ} {es : List E} (h : G.Journey u t' es v a')
    (hle : t ≤ t') : ∃ a ≤ a', G.Journey u t es v a := by
  induction h generalizing t with
  | nil u t' => exact ⟨t, hle, .nil u t⟩
  | cons hmem hsource harrive _ ih =>
    obtain ⟨b, hb, hedge⟩ := G.fifo hle harrive
    obtain ⟨a, ha, htail⟩ := ih hb
    exact ⟨a, ha, .cons hmem hsource hedge htail⟩

theorem Journey.le {u v : V} {t a : τ} {es : List E} (hcausal : G.Causal)
    (h : G.Journey u t es v a) : t ≤ a := by
  induction h with
  | nil => exact le_rfl
  | @cons u v t b a e es hmem _ harrive _ ih =>
    calc
      t ≤ b := hcausal hmem harrive
      _ ≤ a := ih

theorem Causal.not_timeTravel (hcausal : G.Causal) (s : V) (t₀ : τ) : ¬G.TimeTravel s t₀ := by
  intro ⟨w, t, a, es, _, _, hjourney, hlt, _⟩
  exact absurd (hjourney.le hcausal) (not_le.mpr hlt)

end TimedGraph

/-! ## Labels and parents -/

/-- The earliest arrival known at each node and the edge that gave it. -/
structure Labels (V E τ : Type) where
  label : V → Option τ
  parent : V → Option E

/-- What relaxing the edges of `F` at time `t` does, in whichever order. -/
structure Relaxed (G : TimedGraph V E τ) (F : Set E) (t : τ) (L L' : Labels V E τ) : Prop where
  le : ∀ e ∈ F, ∀ a, G.arrive e t = some a → ∃ b ≤ a, L'.label (G.target e) = some b
  cases : ∀ w, (L'.label w = L.label w ∧ L'.parent w = L.parent w) ∨
    ∃ e ∈ F, ∃ a, G.target e = w ∧ G.arrive e t = some a ∧
      L'.label w = some a ∧ L'.parent w = some e ∧ ∀ b, L.label w = some b → a < b

namespace Relaxed

variable {G : TimedGraph V E τ} {F F' : Set E} {t : τ} {L L' L'' : Labels V E τ}

theorem label_mono (h : Relaxed G F t L L') {w : V} {b : τ} (hb : L.label w = some b) :
    ∃ b' ≤ b, L'.label w = some b' := by
  rcases h.cases w with ⟨hlabel, -⟩ | ⟨e, -, a, -, -, hlabel, -, hlt⟩
  · exact ⟨b, le_rfl, hlabel.trans hb⟩
  · exact ⟨a, (hlt b hb).le, hlabel⟩

theorem lower (h : Relaxed G F t L L') {w : V} {a : τ} (hw : ∃ b ≤ a, L.label w = some b) :
    ∃ b ≤ a, L'.label w = some b := by
  obtain ⟨b, hb, hold⟩ := hw
  obtain ⟨b', hb', hnew⟩ := h.label_mono hold
  exact ⟨b', hb'.trans hb, hnew⟩

/-- An improvement is not earlier than `t`, so that it changes no label up to `t`. -/
theorem label_eq (h : Relaxed G F t L L') (hcausal : G.Causal) (hF : F ⊆ G.edges) {w : V} {a : τ}
    (hw : L.label w = some a) (hle : a ≤ t) : L'.label w = some a := by
  rcases h.cases w with ⟨hsame, -⟩ | ⟨e, he, b, -, harrive, -, -, hlt⟩
  · exact hsame.trans hw
  · have hearlier : b < t := by
      calc
        b < a := hlt a hw
        _ ≤ t := hle
    exact absurd hearlier (not_lt.mpr (hcausal (hF he) harrive))

theorem old_or_le (h : Relaxed G F t L L') (hcausal : G.Causal) (hF : F ⊆ G.edges) {w : V} {a : τ}
    (hw : L'.label w = some a) : L.label w = some a ∨ t ≤ a := by
  rcases h.cases w with ⟨hsame, -⟩ | ⟨e, he, b, -, harrive, hb, -, -⟩
  · exact .inl (hsame.symm.trans hw)
  · cases hb.symm.trans hw
    exact .inr (hcausal (hF he) harrive)

theorem refl (L : Labels V E τ) : Relaxed G ∅ t L L where
  le := fun e he ↦ absurd he (Set.notMem_empty e)
  cases := fun _ ↦ .inl ⟨rfl, rfl⟩

theorem comp (h : Relaxed G F t L L') (h' : Relaxed G F' t L' L'') :
    Relaxed G (F ∪ F') t L L'' := by
  constructor
  · intro e he a harrive
    rcases he with hF | hF'
    · exact h'.lower (h.le e hF a harrive)
    · exact h'.le e hF' a harrive
  · intro w
    rcases h'.cases w with ⟨hlabel, hparent⟩ | ⟨e, he, a, htarget, harrive, hlabel, hparent, hlt⟩
    · rcases h.cases w with ⟨hlabel', hparent'⟩ | ⟨e, he, a, htarget, harrive, hlabel', hparent', hlt⟩
      · exact .inl ⟨hlabel.trans hlabel', hparent.trans hparent'⟩
      · exact .inr ⟨e, .inl he, a, htarget, harrive, hlabel.trans hlabel', hparent.trans hparent', hlt⟩
    · refine .inr ⟨e, .inr he, a, htarget, harrive, hlabel, hparent, fun b hb ↦ ?_⟩
      obtain ⟨b', hb', hmono⟩ := h.label_mono hb
      calc
        a < b' := hlt b' hmono
        _ ≤ b := hb'

end Relaxed

/-- The edges from `w` to `v` that following parents back from `v` meets; it stops at `s`. -/
inductive Path (G : TimedGraph V E τ) (parent : V → Option E) (s : V) : V → V → List E → Prop
  | nil {w : V} : Path G parent s w w []
  | snoc {w v : V} {e : E} {es : List E} (hne : v ≠ s) (hparent : parent v = some e)
      (hinit : Path G parent s w (G.source e) es) : Path G parent s w v (es ++ [e])

namespace Path

variable {G : TimedGraph V E τ} {parent : V → Option E} {s v : V} {es es' : List E}

theorem unique (h : Path G parent s s v es) (h' : Path G parent s s v es') : es = es' := by
  induction h generalizing es' with
  | nil =>
    cases h' with
    | nil => rfl
    | snoc hne _ _ => exact absurd rfl hne
  | snoc hne hparent _ ih =>
    cases h' with
    | nil => exact absurd rfl hne
    | snoc _ hparent' hinit' =>
      cases hparent.symm.trans hparent'
      rw [ih hinit']

theorem exists_shorter (htarget : ∀ v e, parent v = some e → G.target e = v)
    (h : Path G parent s s v es) {w : V} (hw : w ∈ s :: es.map G.target) :
    ∃ fs, Path G parent s s w fs ∧ fs.length ≤ es.length := by
  induction h with
  | nil =>
    rw [List.map_nil, List.mem_singleton] at hw
    subst hw
    exact ⟨[], .nil, le_rfl⟩
  | @snoc v e es hne hparent hinit ih =>
    rw [List.map_append, List.map_singleton, ← List.cons_append, List.mem_append] at hw
    rcases hw with hold | hlast
    · obtain ⟨fs, hfs, hlen⟩ := ih hold
      exact ⟨fs, hfs, by simp; omega⟩
    · rw [List.mem_singleton, htarget v e hparent] at hlast
      subst hlast
      exact ⟨es ++ [e], .snoc hne hparent hinit, le_rfl⟩

/-- Following parents to `s` meets no node twice. -/
theorem nodup (htarget : ∀ v e, parent v = some e → G.target e = v)
    (h : Path G parent s s v es) : (s :: es.map G.target).Nodup := by
  induction h with
  | nil => simp
  | @snoc v e es hne hparent hinit ih =>
    rw [List.map_append, List.map_singleton, ← List.cons_append, htarget v e hparent]
    refine List.nodup_append.mpr ⟨ih, List.nodup_singleton v, fun x hx y hy hxy ↦ ?_⟩
    rw [List.mem_singleton] at hy
    subst hxy
    subst hy
    obtain ⟨fs, hfs, hlen⟩ := hinit.exists_shorter htarget hx
    have hsame := hfs.unique (.snoc hne hparent hinit)
    rw [hsame, List.length_append, List.length_singleton] at hlen
    omega

/-- After a change of the parents a path is as it was, or a node on it has changed. -/
theorem unchanged_or {r : V} (parent' : V → Option E) (h : Path G parent s r v es) :
    Path G parent' s r v es ∨
      ∃ w fs, w ≠ s ∧ parent' w ≠ parent w ∧ Path G parent s w v fs := by
  induction h with
  | nil => exact .inl .nil
  | @snoc v e es hne hparent _ ih =>
    by_cases hchanged : parent' v = parent v
    · rcases ih with hsame | ⟨w, fs, hw, hdiff, hrest⟩
      · exact .inl (.snoc hne (hchanged.trans hparent) hsame)
      · exact .inr ⟨w, _, hw, hdiff, .snoc hne hparent hrest⟩
    · exact .inr ⟨v, [], hne, hchanged, .nil⟩

end Path

/-! ## Settling in any order -/

/-- `left v` is the time at which `v` was settled. -/
structure Settling (G : TimedGraph V E τ) (s : V) (t₀ : τ) (L : Labels V E τ)
    (left : V → Option τ) : Prop where
  source_first : left s = none → L.label s = some t₀ ∧ ∀ v, left v = none
  reached : ∀ v t, left v = some t → ∃ es, G.Journey s t₀ es v t
  parent_label : ∀ v e, L.parent v = some e → e ∈ G.edges ∧ G.target e = v ∧
    ∃ t a, left (G.source e) = some t ∧ G.arrive e t = some a ∧ L.label v = some a
  label_parent : ∀ v a, L.label v = some a → v = s ∨ ∃ e, L.parent v = some e
  settled_label : ∀ v t, left v = some t → ∃ a ≤ t, L.label v = some a
  relaxed : ∀ v t, left v = some t → ∀ e ∈ G.edges, G.source e = v → ∀ a, G.arrive e t = some a →
    ∃ b ≤ a, L.label (G.target e) = some b

namespace Settling

variable {G : TimedGraph V E τ} {s : V} {t₀ : τ} {L L' : Labels V E τ} {left : V → Option τ}

theorem start [DecidableEq V] (t₀ : τ) :
    Settling G s t₀ ⟨fun v ↦ if v = s then some t₀ else none, fun _ ↦ none⟩ fun _ ↦ none where
  source_first := fun _ ↦ ⟨if_pos rfl, fun _ ↦ rfl⟩
  reached := fun v t h ↦ by cases h
  parent_label := fun v e h ↦ by cases h
  label_parent := fun v a h ↦ by
    dsimp only at h
    split_ifs at h with hv
    exact .inl hv
  settled_label := fun v t h ↦ by cases h
  relaxed := fun v t h ↦ by cases h

/-- The label of a node not yet settled is the end of a journey. -/
theorem exists_journey {v : V} {t : τ} (h : Settling G s t₀ L left) (hfresh : left v = none)
    (hlabel : L.label v = some t) : ∃ es, G.Journey s t₀ es v t := by
  rcases h.label_parent v t hlabel with rfl | ⟨e, he⟩
  · cases (h.source_first hfresh).1.symm.trans hlabel
    exact ⟨[], .nil v t₀⟩
  · obtain ⟨hmem, rfl, u, a, hleft, harrive, hlabel'⟩ := h.parent_label v e he
    cases hlabel'.symm.trans hlabel
    obtain ⟨es, hes⟩ := h.reached _ u hleft
    exact ⟨es ++ [e], hes.snoc hmem harrive⟩

/-- The first node to be settled is the source. -/
theorem eq_source {v : V} {t : τ} (h : Settling G s t₀ L left) (hlabel : L.label v = some t)
    (hsource : left s = none) : v = s := by
  rcases h.label_parent v t hlabel with hself | ⟨e, he⟩
  · exact hself
  · obtain ⟨-, -, u, -, hleft, -, -⟩ := h.parent_label v e he
    rw [(h.source_first hsource).2] at hleft
    cases hleft

variable [DecidableEq V]

omit [LinearOrder τ] in
/-- Whichever node has a time after `v` was given the time `t` is `v` or had it before. -/
theorem update_eq_some {left : V → Option τ} {v w : V} {t u : τ}
    (h : Function.update left v (some t) w = some u) :
    (w = v ∧ u = t) ∨ (w ≠ v ∧ left w = some u) := by
  by_cases hwv : w = v
  · subst hwv
    rw [Function.update_self] at h
    exact .inl ⟨rfl, (Option.some.inj h).symm⟩
  · rw [Function.update_of_ne hwv] at h
    exact .inr ⟨hwv, h⟩

/-- Settling one more node: `L` are the labels before its edges are relaxed, `L'` those after. -/
theorem settle {v : V} {t : τ} (h : Settling G s t₀ L left) (hfresh : left v = none)
    (hlabel : L.label v = some t) (hrelaxed : Relaxed G (G.leaving v) t L L') :
    Settling G s t₀ L' (Function.update left v (some t)) where
  source_first := by
    intro hsource
    by_cases hsv : s = v
    · rw [hsv, Function.update_self] at hsource
      cases hsource
    · rw [Function.update_of_ne hsv] at hsource
      exact absurd (h.eq_source hlabel hsource).symm hsv
  reached := by
    intro w u hw
    rcases update_eq_some hw with ⟨rfl, rfl⟩ | ⟨-, hold⟩
    · exact h.exists_journey hfresh hlabel
    · exact h.reached w u hold
  parent_label := by
    intro w e hparent
    rcases hrelaxed.cases w with
      ⟨hsame, hsame'⟩ | ⟨f, ⟨hmem, hsource⟩, a, htarget, harrive, hnew, hf, -⟩
    · rw [hsame'] at hparent
      obtain ⟨hmem, htarget, u, a, hleft, harrive, hold⟩ := h.parent_label w e hparent
      refine ⟨hmem, htarget, u, a, ?_, harrive, hsame.trans hold⟩
      rw [Function.update_of_ne, hleft]
      rintro hv
      rw [hv, hfresh] at hleft
      cases hleft
    · cases hf.symm.trans hparent
      refine ⟨hmem, htarget, t, a, ?_, harrive, hnew⟩
      rw [hsource, Function.update_self]
  label_parent := by
    intro w a hw
    rcases hrelaxed.cases w with ⟨hsame, hsame'⟩ | ⟨f, -, -, -, -, -, hf, -⟩
    · rw [hsame']
      exact h.label_parent w a (hsame.symm.trans hw)
    · exact .inr ⟨f, hf⟩
  settled_label := by
    intro w u hw
    apply hrelaxed.lower
    rcases update_eq_some hw with ⟨rfl, rfl⟩ | ⟨-, hold⟩
    · exact ⟨u, le_rfl, hlabel⟩
    · exact h.settled_label w u hold
  relaxed := by
    intro w u hw e hmem hsource a harrive
    rcases update_eq_some hw with ⟨rfl, rfl⟩ | ⟨-, hold⟩
    · exact hrelaxed.le e ⟨hmem, hsource⟩ a harrive
    · exact hrelaxed.lower (h.relaxed w u hold e hmem hsource a harrive)

omit [DecidableEq V] in
/-- A path of parents is a journey that departs when its first node was left. -/
theorem journey_of_path {w v : V} {es : List E} {u : τ} (h : Settling G s t₀ L left)
    (hpath : Path G L.parent s w v es) (hw : left w = some u) :
    (w = v ∧ es = []) ∨ ∃ a b, L.label v = some b ∧ a ≤ b ∧ G.Journey w u es v a := by
  induction hpath with
  | nil => exact .inl ⟨rfl, rfl⟩
  | snoc _ hparent _ ih =>
    obtain ⟨hmem, rfl, t, b, hleft, harrive, hlabel⟩ := h.parent_label _ _ hparent
    right
    rcases ih with ⟨rfl, rfl⟩ | ⟨a, c, hc, hac, hjourney⟩
    · cases hw.symm.trans hleft
      exact ⟨b, b, hlabel, le_rfl, .snoc (.nil _ _) hmem harrive⟩
    · obtain ⟨c', hct, hc'⟩ := h.settled_label _ _ hleft
      cases hc.symm.trans hc'
      obtain ⟨a', ha', hedge⟩ := G.fifo (hac.trans hct) harrive
      exact ⟨a', b, hlabel, ha', hjourney.snoc hmem hedge⟩

omit [DecidableEq V] in
theorem left_of_path {w v : V} {es : List E} (h : Settling G s t₀ L left)
    (hpath : Path G L.parent s w v es) : w = v ∨ ∃ u, left w = some u := by
  induction hpath with
  | nil => exact .inl rfl
  | snoc _ hparent _ ih =>
    right
    obtain ⟨-, -, t, -, hleft, -, -⟩ := h.parent_label _ _ hparent
    rcases ih with rfl | hw
    · exact ⟨t, hleft⟩
    · exact hw

omit [DecidableEq V] in
theorem target_ne_of_path {w v : V} {es : List E} (h : Settling G s t₀ L left)
    (hpath : Path G L.parent s w v es) : ∀ e ∈ es, G.target e ≠ s := by
  induction hpath with
  | nil => exact fun e he ↦ absurd he List.not_mem_nil
  | snoc hne hparent _ ih =>
    intro f hf
    rcases List.mem_append.mp hf with hinit | hlast
    · exact ih f hinit
    · rw [List.mem_singleton.mp hlast, (h.parent_label _ _ hparent).2.1]
      exact hne

omit [DecidableEq V] in
/-- Only a closed journey back in time makes a node the descendant of one that it improves. -/
theorem timeTravel_of_improved_ancestor {v w : V} {t : τ} {es : List E}
    (h : Settling G s t₀ L left) (hfresh : left v = none) (hlabel : L.label v = some t)
    (hrelaxed : Relaxed G (G.leaving v) t L L') (hpath : Path G L.parent s w v es) (hne : w ≠ s)
    (hchanged : L'.parent w ≠ L.parent w) : G.TimeTravel s t₀ := by
  rcases hrelaxed.cases w with ⟨-, hsame⟩ | ⟨e, ⟨hmem, hsource⟩, a, htarget, harrive, -, -, hlt⟩
  · exact absurd hsame hchanged
  subst hsource
  -- the loop departs when `w` was settled, or now where `w` is the node being settled
  rcases h.left_of_path hpath with hself | ⟨u, hu⟩
  · subst hself
    have hloop := TimedGraph.Journey.snoc (.nil (G.source e) t) hmem harrive
    rw [htarget] at hloop
    obtain ⟨fs, hreach⟩ := h.exists_journey hfresh hlabel
    refine ⟨_, t, a, _, fs, hreach, hloop, hlt t hlabel, fun f hf ↦ ?_⟩
    rw [List.mem_singleton.mp hf, htarget]
    exact hne
  · rcases h.journey_of_path hpath hu with ⟨hself, -⟩ | ⟨c, c', hc', hcc, hjourney⟩
    · rw [hself, hfresh] at hu
      cases hu
    · cases hc'.symm.trans hlabel
      obtain ⟨a', ha', hedge⟩ := G.fifo hcc harrive
      obtain ⟨b, hbu, hb⟩ := h.settled_label w u hu
      have hloop := hjourney.snoc hmem hedge
      rw [htarget] at hloop
      obtain ⟨fs, hreach⟩ := h.reached w u hu
      have hback : a' < u := by
        calc
          a' ≤ a := ha'
          _ < b := hlt b hb
          _ ≤ u := hbu
      refine ⟨w, u, a', _, fs, hreach, hloop, hback, fun f hf ↦ ?_⟩
      rcases List.mem_append.mp hf with hinit | hlast
      · exact h.target_ne_of_path hpath f hinit
      · rw [List.mem_singleton.mp hlast, htarget]
        exact hne

omit [DecidableEq V] in
/-- Without journeys back in time the parents stay a tree that is rooted at `s`. -/
theorem exists_path_relaxed {v : V} {t : τ} (h : Settling G s t₀ L left) (hfresh : left v = none)
    (hlabel : L.label v = some t) (hrelaxed : Relaxed G (G.leaving v) t L L')
    (htime : ¬G.TimeTravel s t₀)
    (htree : ∀ w a, L.label w = some a → ∃ es, Path G L.parent s s w es) (w : V) (a : τ)
    (hw : L'.label w = some a) : ∃ es, Path G L'.parent s s w es := by
  have hv : ∃ es, Path G L'.parent s s v es := by
    obtain ⟨es, hes⟩ := htree v t hlabel
    rcases hes.unchanged_or L'.parent with hsame | ⟨x, fs, hne, hdiff, hrest⟩
    · exact ⟨es, hsame⟩
    · exact absurd (h.timeTravel_of_improved_ancestor hfresh hlabel hrelaxed hrest hne hdiff) htime
  have himproved {x : V} {e : E} (hne : x ≠ s) (hsource : G.source e = v)
      (hparent : L'.parent x = some e) : ∃ es, Path G L'.parent s s x es := by
    obtain ⟨es, hes⟩ := hv
    exact ⟨es ++ [e], .snoc hne hparent (hsource.symm ▸ hes)⟩
  have hold {x : V} {es : List E} (hpath : Path G L.parent s s x es) :
      ∃ es', Path G L'.parent s s x es' := by
    induction hpath with
    | nil => exact ⟨[], .nil⟩
    | @snoc x e es hne hparent _ ih =>
      rcases hrelaxed.cases x with ⟨-, hsame⟩ | ⟨f, ⟨-, hsource⟩, b, -, -, -, hf, -⟩
      · obtain ⟨es', hes'⟩ := ih
        exact ⟨es' ++ [e], .snoc hne (hsame.trans hparent) hes'⟩
      · exact himproved hne hsource hf
  by_cases hws : w = s
  · exact ⟨[], hws ▸ .nil⟩
  · rcases hrelaxed.cases w with ⟨hsame, -⟩ | ⟨f, ⟨-, hsource⟩, b, -, -, -, hf, -⟩
    · obtain ⟨es, hes⟩ := htree w a (hsame.symm.trans hw)
      exact hold hes
    · exact himproved hws hsource hf

end Settling

/-! ## Settling the least label first -/

structure Greedy (s : V) (t₀ : τ) (L : Labels V E τ) (left : V → Option τ) : Prop where
  label_source : L.label s = some t₀
  start_le : ∀ v a, L.label v = some a → t₀ ≤ a
  settled_label : ∀ v t, left v = some t → L.label v = some t
  ordered : ∀ v t, left v = some t → ∀ w a, left w = none → L.label w = some a → t ≤ a

namespace Greedy

variable {G : TimedGraph V E τ} {s : V} {t₀ : τ} {L L' : Labels V E τ} {left : V → Option τ}

variable [DecidableEq V]

theorem start (s : V) (t₀ : τ) :
    Greedy (E := E) s t₀ ⟨fun v ↦ if v = s then some t₀ else none, fun _ ↦ none⟩
      fun _ ↦ none where
  label_source := if_pos rfl
  start_le := fun v a h ↦ by
    dsimp only at h
    split_ifs at h with hv
    cases h
    exact le_rfl
  settled_label := fun v t h ↦ by cases h
  ordered := fun v t h ↦ by cases h

theorem settle {v : V} {t : τ} (hcausal : G.Causal) (h : Greedy s t₀ L left)
    (hfresh : left v = none) (hlabel : L.label v = some t)
    (hleast : ∀ w a, left w = none → L.label w = some a → t ≤ a)
    (hrelaxed : Relaxed G (G.leaving v) t L L') :
    Greedy s t₀ L' (Function.update left v (some t)) where
  label_source := hrelaxed.label_eq hcausal (Set.sep_subset _ _) h.label_source
    (h.start_le v t hlabel)
  start_le := by
    intro w a hw
    rcases hrelaxed.old_or_le hcausal (Set.sep_subset _ _) hw with hold | hle
    · exact h.start_le w a hold
    · calc
        t₀ ≤ t := h.start_le v t hlabel
        _ ≤ a := hle
  settled_label := by
    intro w u hw
    rcases Settling.update_eq_some hw with ⟨rfl, rfl⟩ | ⟨-, hold⟩
    · exact hrelaxed.label_eq hcausal (Set.sep_subset _ _) hlabel le_rfl
    · exact hrelaxed.label_eq hcausal (Set.sep_subset _ _) (h.settled_label w u hold)
        (h.ordered w u hold v t hfresh hlabel)
  ordered := by
    intro w u hw x a hx hxlabel
    have hxv : x ≠ v := by
      rintro rfl
      rw [Function.update_self] at hx
      cases hx
    rw [Function.update_of_ne hxv] at hx
    have hta : t ≤ a := by
      rcases hrelaxed.old_or_le hcausal (Set.sep_subset _ _) hxlabel with hold | hle
      · exact hleast x a hx hold
      · exact hle
    rcases Settling.update_eq_some hw with ⟨rfl, rfl⟩ | ⟨-, hold⟩
    · exact hta
    · calc
        u ≤ t := h.ordered w u hold v t hfresh hlabel
        _ ≤ a := hta

omit [DecidableEq V] in
/-- A path of parents from `s` is a journey that arrives exactly at the label. -/
theorem journey_of_path {v : V} {es : List E} {a : τ} (hgreedy : Greedy s t₀ L left)
    (h : Settling G s t₀ L left) (hpath : Path G L.parent s s v es) (hv : L.label v = some a) :
    G.Journey s t₀ es v a := by
  induction hpath generalizing a with
  | nil =>
    cases hgreedy.label_source.symm.trans hv
    exact .nil s t₀
  | snoc _ hparent _ ih =>
    obtain ⟨hmem, rfl, t, b, hleft, harrive, hlabel⟩ := h.parent_label _ _ hparent
    cases hlabel.symm.trans hv
    exact (ih (hgreedy.settled_label _ _ hleft)).snoc hmem harrive

omit [DecidableEq V] in
/-- A journey from a settled node ends at a settled node, or some label not yet settled is as
early as its end. -/
theorem settled_or_le {x w : V} {t u a : τ} {es : List E} (hcausal : G.Causal)
    (hgreedy : Greedy s t₀ L left) (h : Settling G s t₀ L left) (hjourney : G.Journey x t es w a)
    (hx : left x = some u) (hu : u ≤ t) :
    (∃ u' ≤ a, left w = some u') ∨ ∃ y b, left y = none ∧ L.label y = some b ∧ b ≤ a := by
  induction hjourney generalizing u with
  | nil x t => exact .inl ⟨u, hu, hx⟩
  | @cons x w t b a e es hmem hsource harrive htail ih =>
    obtain ⟨b', hb', hedge⟩ := G.fifo hu harrive
    obtain ⟨c, hc, hlabel⟩ := h.relaxed x u hx e hmem hsource b' hedge
    have hcb : c ≤ b := by
      calc
        c ≤ b' := hc
        _ ≤ b := hb'
    cases hleft : left (G.target e) with
    | none =>
      right
      refine ⟨G.target e, c, hleft, hlabel, ?_⟩
      calc
        c ≤ b := hcb
        _ ≤ a := htail.le hcausal
    | some c' =>
      cases (hgreedy.settled_label _ _ hleft).symm.trans hlabel
      exact ih hleft hcb

omit [DecidableEq V] in
/-- The least label not yet settled is the earliest arrival there. -/
theorem le_of_journey {v : V} {t a : τ} {es : List E} (hcausal : G.Causal)
    (hgreedy : Greedy s t₀ L left) (h : Settling G s t₀ L left) (hfresh : left v = none)
    (hleast : ∀ w b, left w = none → L.label w = some b → t ≤ b)
    (hjourney : G.Journey s t₀ es v a) : t ≤ a := by
  cases hs : left s with
  | none =>
    calc
      t ≤ t₀ := hleast s t₀ hs hgreedy.label_source
      _ ≤ a := hjourney.le hcausal
  | some u =>
    cases (hgreedy.settled_label s u hs).symm.trans hgreedy.label_source
    rcases hgreedy.settled_or_le hcausal h hjourney hs le_rfl with ⟨u', -, hv⟩ | ⟨y, b, hy, hb, hba⟩
    · rw [hfresh] at hv
      cases hv
    · calc
        t ≤ b := hleast y b hy hb
        _ ≤ a := hba

omit [DecidableEq V] in
/-- Once every label is settled, every journey from `s` ends at a settled node. -/
theorem settled_of_journey {v : V} {a : τ} {es : List E} (hcausal : G.Causal)
    (hgreedy : Greedy s t₀ L left) (h : Settling G s t₀ L left)
    (hall : ∀ w b, L.label w = some b → left w ≠ none) (hjourney : G.Journey s t₀ es v a) :
    left v ≠ none := by
  obtain ⟨u, hs⟩ := Option.ne_none_iff_exists'.mp (hall s t₀ hgreedy.label_source)
  cases (hgreedy.settled_label s u hs).symm.trans hgreedy.label_source
  rcases hgreedy.settled_or_le hcausal h hjourney hs le_rfl with ⟨u', -, hv⟩ | ⟨y, b, hy, hb, -⟩
  · rw [hv]
    exact Option.some_ne_none u'
  · exact absurd hy (hall y b hb)

end Greedy

end Zenith.EarliestArrival
