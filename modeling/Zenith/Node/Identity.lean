import Zenith.Bpv7.Forms
import Zenith.Node.Node

/-!
# The identity of a bundle

A bundle ID is put together from text that may itself contain the separator. It tells bundles apart but
for two kinds of pairs: the null endpoint reads like a dtn endpoint with the name `none`, and a fragment
reads like a whole bundle whose source ends in the numbers of the fragment.
-/

namespace Zenith.Bpv7

open Go Cbor

/-! ## Text of endpoints -/

/-- One is the null endpoint and the other a dtn endpoint with the same text. -/
def EndpointID.NullTwin (e e' : EndpointID) : Prop :=
  (e = NullEndpoint ∧ e' = DTN (lit "none")) ∨ (e = DTN (lit "none") ∧ e' = NullEndpoint)

theorem string_ipn_inj {node service node' service' : UInt64}
    (h : (IPN node service).string = (IPN node' service').string) :
    IPN node service = IPN node' service' := by
  rw [string_ipn, string_ipn, append_cons_inj (not_mem_decimal (by decide) _)
    (not_mem_decimal (by decide) _)] at h
  have hnode := UInt64.toNat_inj.mp (decimal_injective (List.append_cancel_left h.1))
  have hservice := UInt64.toNat_inj.mp (decimal_injective h.2)
  rw [hnode, hservice]

theorem string_eq_iff {e e' : EndpointID} (he : e.Made) (he' : e'.Made) :
    e.string = e'.string ↔ e = e' ∨ e.NullTwin e' := by
  constructor
  · intro h
    cases he with
    | null =>
      cases he' with
      | null => exact .inl rfl
      | dtn ssp =>
        rw [string_null, string_dtn] at h
        have hssp : lit "none" = ssp := List.append_cancel_left h
        exact .inr (.inl ⟨rfl, congrArg DTN hssp.symm⟩)
      | ipn node service => exact absurd h.symm (string_ipn_ne node service (lit "none"))
    | dtn ssp =>
      cases he' with
      | null =>
        rw [string_null, string_dtn] at h
        have hssp : ssp = lit "none" := List.append_cancel_left h
        exact .inr (.inr ⟨congrArg DTN hssp, rfl⟩)
      | dtn ssp' =>
        have hssp : ssp = ssp' := List.append_cancel_left h
        exact .inl (congrArg DTN hssp)
      | ipn node service => exact absurd h.symm (string_ipn_ne node service ssp)
    | ipn node service =>
      cases he' with
      | null => exact absurd h (string_ipn_ne node service (lit "none"))
      | dtn ssp' => exact absurd h (string_ipn_ne node service ssp')
      | ipn node' service' => exact .inl (string_ipn_inj h)
  · rintro (rfl | ⟨rfl, rfl⟩ | ⟨rfl, rfl⟩)
    · rfl
    · rfl
    · rfl

/-! ## Bundles -/

namespace Bundle

/-- What the ID says besides the source is the same. -/
structure SameStamp (b b' : Bundle) : Prop where
  creationTime : b.primary.creationTime.time = b'.primary.creationTime.time
  sequenceNumber : b.primary.creationTime.sequenceNumber = b'.primary.creationTime.sequenceNumber
  isFragment : b.primary.isFragment = b'.primary.isFragment
  fragmentOffset : b.primary.isFragment = true →
    b.primary.fragmentOffset = b'.primary.fragmentOffset
  totalADULength : b.primary.isFragment = true →
    b.primary.totalADULength = b'.primary.totalADULength

/-- The two are the same bundle, or the same fragment of it. -/
def SameIdentity (b b' : Bundle) : Prop :=
  b.primary.source = b'.primary.source ∧ b.SameStamp b'

/-- `b` is a fragment and `b'` a whole bundle with a source that reads like the source and creation
timestamp of `b`, and with the numbers of the fragment for a creation timestamp. -/
structure FragmentTwin (b b' : Bundle) : Prop where
  fragment : b.primary.isFragment = true
  whole : b'.primary.isFragment = false
  source : b'.primary.source.string = b.primary.source.string ++ lit "|" ++
    decimal b.primary.creationTime.time.toNat ++ lit "|" ++
      decimal b.primary.creationTime.sequenceNumber.toNat
  creationTime : b'.primary.creationTime.time = b.primary.fragmentOffset
  sequenceNumber : b'.primary.creationTime.sequenceNumber = b.primary.totalADULength

/-- Different bundles that the ID does not tell apart. -/
def Confusable (b b' : Bundle) : Prop :=
  (b.primary.source.NullTwin b'.primary.source ∧ b.SameStamp b') ∨ b.FragmentTwin b' ∨
    b'.FragmentTwin b

theorem append_bar (s t : GoString) : s ++ lit "|" ++ t = s ++ 124 :: t := by
  have hbar : lit "|" = [124] := by decide
  rw [hbar, List.append_assoc, List.singleton_append]

/-- Two numbers behind a prefix determine it and each other. -/
theorem numbered_inj {s s' : GoString} {x x' y y' : UInt64} :
    s ++ lit "|" ++ decimal x.toNat ++ lit "|" ++ decimal y.toNat =
      s' ++ lit "|" ++ decimal x'.toNat ++ lit "|" ++ decimal y'.toNat ↔
      s = s' ∧ x = x' ∧ y = y' := by
  have hfree (n : ℕ) : (124 : UInt8) ∉ decimal n := not_mem_decimal (by decide) n
  rw [append_bar, append_bar, append_bar, append_bar, append_cons_inj (hfree _) (hfree _),
    append_cons_inj (hfree _) (hfree _), decimal_injective.eq_iff, decimal_injective.eq_iff,
    UInt64.toNat_inj, UInt64.toNat_inj, and_assoc]

/-- The part of the ID that fragments share with their bundle. -/
theorem id_of_whole {b : Bundle} (h : b.primary.isFragment = false) :
    b.id = b.primary.source.string ++ lit "|" ++ decimal b.primary.creationTime.time.toNat ++
      lit "|" ++ decimal b.primary.creationTime.sequenceNumber.toNat := by
  unfold id
  dsimp only
  rw [h, if_neg Bool.false_ne_true]

theorem id_of_fragment {b : Bundle} (h : b.primary.isFragment = true) :
    b.id = (b.primary.source.string ++ lit "|" ++ decimal b.primary.creationTime.time.toNat ++
      lit "|" ++ decimal b.primary.creationTime.sequenceNumber.toNat) ++ lit "|" ++
      decimal b.primary.fragmentOffset.toNat ++ lit "|" ++
      decimal b.primary.totalADULength.toNat := by
  unfold id
  dsimp only
  rw [h, if_pos rfl]

theorem sameStamp_iff_of_whole {b b' : Bundle} (h : b.primary.isFragment = false)
    (h' : b'.primary.isFragment = false) : b.SameStamp b' ↔
      b.primary.creationTime.time = b'.primary.creationTime.time ∧
        b.primary.creationTime.sequenceNumber = b'.primary.creationTime.sequenceNumber := by
  constructor
  · intro hstamp
    exact ⟨hstamp.creationTime, hstamp.sequenceNumber⟩
  · intro ⟨htime, hnumber⟩
    exact ⟨htime, hnumber, h.trans h'.symm, by simp [h], by simp [h]⟩

theorem sameStamp_iff_of_fragment {b b' : Bundle} (h : b.primary.isFragment = true)
    (h' : b'.primary.isFragment = true) : b.SameStamp b' ↔
      (b.primary.creationTime.time = b'.primary.creationTime.time ∧
        b.primary.creationTime.sequenceNumber = b'.primary.creationTime.sequenceNumber) ∧
      b.primary.fragmentOffset = b'.primary.fragmentOffset ∧
        b.primary.totalADULength = b'.primary.totalADULength := by
  constructor
  · intro hstamp
    exact ⟨⟨hstamp.creationTime, hstamp.sequenceNumber⟩, hstamp.fragmentOffset h,
      hstamp.totalADULength h⟩
  · intro ⟨⟨htime, hnumber⟩, hoffset, htotal⟩
    exact ⟨htime, hnumber, h.trans h'.symm, fun _ ↦ hoffset, fun _ ↦ htotal⟩

theorem not_sameStamp {b b' : Bundle} (h : b.primary.isFragment ≠ b'.primary.isFragment) :
    ¬b.SameStamp b' := fun hstamp ↦ h hstamp.isFragment

/-- The ID of a fragment is that of a whole bundle only where the source of that one reads so. -/
theorem id_eq_iff_fragmentTwin {b b' : Bundle} (h : b.primary.isFragment = true)
    (h' : b'.primary.isFragment = false) : b.id = b'.id ↔ b.FragmentTwin b' := by
  rw [id_of_fragment h, id_of_whole h', numbered_inj]
  constructor
  · intro ⟨hsource, htime, hnumber⟩
    exact ⟨h, h', hsource.symm, htime.symm, hnumber.symm⟩
  · intro htwin
    exact ⟨htwin.source.symm, htwin.creationTime.symm, htwin.sequenceNumber.symm⟩

theorem id_eq_iff {b b' : Bundle} (hb : b.primary.source.Made) (hb' : b'.primary.source.Made) :
    b.id = b'.id ↔ b.SameIdentity b' ∨ b.Confusable b' := by
  have hboth (heq : b.primary.isFragment = b'.primary.isFragment) :
      (b.SameIdentity b' ∨ b.Confusable b') ↔
        b.primary.source.string = b'.primary.source.string ∧ b.SameStamp b' := by
    have hno : ¬b.FragmentTwin b' := fun htwin ↦ by
      rw [htwin.fragment, htwin.whole] at heq
      cases heq
    have hno' : ¬b'.FragmentTwin b := fun htwin ↦ by
      rw [htwin.fragment, htwin.whole] at heq
      cases heq
    unfold SameIdentity Confusable
    rw [string_eq_iff hb hb']
    tauto
  cases h : b.primary.isFragment with
  | false =>
    cases h' : b'.primary.isFragment with
    | false =>
      rw [hboth (h.trans h'.symm), id_of_whole h, id_of_whole h', numbered_inj,
        sameStamp_iff_of_whole h h']
    | true =>
      have hne : ¬b.SameStamp b' := not_sameStamp (by simp [h, h'])
      have hno : ¬b.FragmentTwin b' := fun htwin ↦ by
        cases h.symm.trans htwin.fragment
      rw [eq_comm, id_eq_iff_fragmentTwin h' h]
      unfold SameIdentity Confusable
      tauto
  | true =>
    cases h' : b'.primary.isFragment with
    | false =>
      have hne : ¬b.SameStamp b' := not_sameStamp (by simp [h, h'])
      have hno : ¬b'.FragmentTwin b := fun htwin ↦ by
        cases h'.symm.trans htwin.fragment
      rw [id_eq_iff_fragmentTwin h h']
      unfold SameIdentity Confusable
      tauto
    | true =>
      rw [hboth (h.trans h'.symm), id_of_fragment h, id_of_fragment h', numbered_inj, numbered_inj,
        sameStamp_iff_of_fragment h h']
      tauto

theorem SameIdentity.not_confusable {b b' : Bundle} (h : b.SameIdentity b') : ¬b.Confusable b' := by
  obtain ⟨hsource, hstamp⟩ := h
  rintro (⟨htwin, -⟩ | htwin | htwin)
  · rw [hsource] at htwin
    rcases htwin with ⟨hnull, hnone⟩ | ⟨hnone, hnull⟩
    · rw [hnull] at hnone
      cases hnone
    · rw [hnull] at hnone
      cases hnone
  · exact not_sameStamp (by simp [htwin.fragment, htwin.whole]) hstamp
  · exact not_sameStamp (by simp [htwin.fragment, htwin.whole]) hstamp

end Bundle

end Zenith.Bpv7

namespace Zenith.Dtn

open Go Bpv7 Cgr

theorem Node.ingest_eq_duplicate_iff (n : Node) (b : Bundle) (now : Time) :
    (n.ingest b now).1 = .duplicate ↔ n.seen.isSet b.id = true := by
  rcases n.ingest_cases b now with ⟨hseen, h⟩ | ⟨hnew, -, h⟩ | ⟨hnew, -, -, h⟩ | ⟨hnew, -, -, h⟩
  · simp [h, hseen]
  · simp [h, hnew]
  · simp [h, hnew]
  · simp [h, hnew]

/-- For bundles that can be received, equal IDs mean the same identity exactly where the two are not
confusable; where they are, a node takes the second for a duplicate of the first. -/
theorem id_identifies_iff {data data' : List UInt8} {b b' : Bundle}
    (h : unmarshal data = .ok b) (h' : unmarshal data' = .ok b') :
    ((b.id = b'.id ↔ b.SameIdentity b') ↔ ¬b.Confusable b') ∧
    ∀ nodeID plan t t', (((Node.new nodeID plan).ingest b t).2.ingest b' t').1 = .duplicate ∧
      ¬b.SameIdentity b' ↔ b.Confusable b' := by
  have hid := Bundle.id_eq_iff (sound_of_unmarshal h).primary.source
    (sound_of_unmarshal h').primary.source
  have hnot : b.SameIdentity b' → ¬b.Confusable b' := Bundle.SameIdentity.not_confusable
  constructor
  · rw [hid]
    tauto
  · intro nodeID plan t t'
    rw [Node.ingest_eq_duplicate_iff, Node.isSet_ingest_seen, Node.isSet_new_seen, Bool.or_false,
      decide_eq_true_iff, eq_comm, hid]
    constructor
    · intro ⟨hid, hne⟩
      exact hid.resolve_left hne
    · intro hconfusable
      exact ⟨.inr hconfusable, fun hsame ↦ hnot hsame hconfusable⟩

/-- The fragment of two bytes at offset 3 of a bundle from `dtn://a`. -/
def firstFragment : Bundle where
  primary := ⟨7, FlagIsFragment, CRCNone, DTN (lit "//ground-2/inbox"), DTN (lit "//a"),
    NullEndpoint, ⟨1, 2⟩, 14400000, 3, 4⟩
  canonical := [⟨BlockTypePayload, 1, 0, CRCNone, [1, 2]⟩]

/-- A whole bundle from an endpoint with a longer name. -/
def wholeBundle : Bundle where
  primary := ⟨7, 0, CRCNone, DTN (lit "//ground-2/inbox"), DTN (lit "//a|1|2"), NullEndpoint,
    ⟨3, 4⟩, 14400000, 0, 0⟩
  canonical := [⟨BlockTypePayload, 1, 0, CRCNone, [5]⟩]

theorem unmarshal_firstFragment : unmarshal (firstFragment.image ++ []) = .ok firstFragment := by
  have hsound : firstFragment.Sound :=
    ⟨⟨.inl rfl, .dtn _, .dtn _, .null, fun h ↦ absurd h (by decide)⟩, by simp [firstFragment],
      by simp [firstFragment, KnownCRC]⟩
  exact hsound.unmarshal_image (by decide +kernel)

theorem unmarshal_wholeBundle : unmarshal (wholeBundle.image ++ []) = .ok wholeBundle := by
  have hsound : wholeBundle.Sound :=
    ⟨⟨.inl rfl, .dtn _, .dtn _, .null, fun _ ↦ ⟨rfl, rfl⟩⟩, by simp [wholeBundle],
      by simp [wholeBundle, KnownCRC]⟩
  exact hsound.unmarshal_image (by decide +kernel)

theorem id_identifies_iff_fragment :
    ((firstFragment.id = wholeBundle.id ↔ firstFragment.SameIdentity wholeBundle) ↔
      ¬firstFragment.Confusable wholeBundle) ∧
    ∀ nodeID plan t t', (((Node.new nodeID plan).ingest firstFragment t).2.ingest wholeBundle
        t').1 = .duplicate ∧ ¬firstFragment.SameIdentity wholeBundle ↔
      firstFragment.Confusable wholeBundle :=
  id_identifies_iff unmarshal_firstFragment unmarshal_wholeBundle

/-- The two have the same ID. -/
theorem id_not_identifying : ¬∀ (data data' : List UInt8) (b b' : Bundle),
    unmarshal data = .ok b → unmarshal data' = .ok b' → (b.id = b'.id ↔ b.SameIdentity b') := by
  intro hall
  have hsame := (hall _ _ _ _ unmarshal_firstFragment unmarshal_wholeBundle).mp (by decide)
  exact absurd hsame.2.isFragment (by decide)

end Zenith.Dtn
