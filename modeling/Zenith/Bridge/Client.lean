import Zenith.Bridge.Service
import Zenith.Bridge.Stack

/-!
# The client on the ground

A client makes the bundles that deploy models and request inferences, and numbers them. The bundles of
a session are told apart by their IDs, are read back as they were sent, and expire when their lifetime
has elapsed: no duration of Go is long enough to reach the wrapping products in `Expired`.
-/

namespace Zenith.Bridge

open Go Bpv7 Dtn

/-- The errors of `ParseResponse`. -/
inductive ResponseError
  | message (err : MessageError)
  | notResponse (messageType : UInt64)
  deriving DecidableEq, Repr

/-- The format string of an error; its arguments are those of the constructor. -/
def ResponseError.format : ResponseError → String
  | message err => err.format
  | notResponse _ => "spaceaibridge: expected an inference response, got type %d"

def ParseResponsePayload (payload : List UInt8) : Outcome ResponseError InferenceResponse :=
  match decode payload with
  | .error err => .error (.message err)
  | .panic reason => .panic reason
  | .outOfFuel => .outOfFuel
  | .ok (.response resp) => .ok resp
  | .ok msg => .error (.notResponse msg.messageType)

def ParseResponse (b : Bundle) : Outcome ResponseError InferenceResponse :=
  ParseResponsePayload (b.payload.getD [])

theorem parseResponsePayload_eq_ok {payload : List UInt8} {resp : InferenceResponse} :
    ParseResponsePayload payload = .ok resp ↔ decode payload = .ok (.response resp) := by
  unfold ParseResponsePayload
  cases decode payload with
  | ok msg => cases msg <;> simp
  | error err => simp
  | panic reason => simp
  | outOfFuel => simp

structure Client where
  source : EndpointID
  satellite : EndpointID
  Lifetime : Duration
  seq : UInt64
  deriving DecidableEq, Repr

namespace Client

/-- `NewClient`. -/
def newClient (source satellite : EndpointID) : Client := ⟨source, satellite, 0, 0⟩

def lifetime (c : Client) : Duration := if c.Lifetime > 0 then c.Lifetime else DefaultLifetime

def options (c : Client) (createdAt : Time) : Options × Client :=
  let seq := c.seq + 1
  ({ Options.zero with
      lifetime := c.lifetime
      creationTime := DTNTime createdAt
      sequenceNumber := seq }, { c with seq := seq })

variable (clock : UInt64 → Time)

/-- The bundle around a message; `clock` is what `time.Now()` returns when the counter has come to a
number. -/
def messageBundle (c : Client) (msg : Message) (createdAt : Time) :
    Except Cbor.EncodeError Bundle × Client :=
  match encode msg with
  | .error err => (.error err, c)
  | .ok payload =>
    let (opts, c) := c.options createdAt
    (.ok (NewBundle (clock opts.sequenceNumber) c.source c.satellite payload opts), c)

def uploadBundle (c : Client) (up : ModelUpload) (createdAt : Time) :
    Except Cbor.EncodeError Bundle × Client :=
  c.messageBundle clock (.upload up) createdAt

def requestBundle (c : Client) (req : InferenceRequest) (createdAt : Time) :
    Except Cbor.EncodeError Bundle × Client :=
  c.messageBundle clock (.request req) createdAt

/-! ## Sessions -/

/-- A call of the ground station to its client. -/
inductive Call
  | upload (up : ModelUpload) (createdAt : Time)
  | request (req : InferenceRequest) (createdAt : Time)
  deriving DecidableEq, Repr

namespace Call

def message : Call → Message
  | upload up _ => .upload up
  | request req _ => .request req

def createdAt : Call → Time
  | upload _ createdAt => createdAt
  | request _ createdAt => createdAt

end Call

def call (c : Client) : Call → Except Cbor.EncodeError Bundle × Client
  | .upload up createdAt => c.uploadBundle clock up createdAt
  | .request req createdAt => c.requestBundle clock req createdAt

/-- What the calls return in turn, and the client afterwards. -/
def session (c : Client) (calls : List Call) : List (Except Cbor.EncodeError Bundle) × Client :=
  Purge.run (call clock) c calls

/-- How a bundle of the client is made. -/
def sending (c : Client) (seq : UInt64) (createdAt : Time) : Sending where
  now := clock seq
  source := c.source
  destination := c.satellite
  opts := { Options.zero with
    lifetime := c.lifetime
    creationTime := DTNTime createdAt
    sequenceNumber := seq }

/-- The bundle with a sequence number that a call makes. -/
def made (c : Client) (seq : UInt64) (x : Call) : Bundle :=
  (c.sending clock seq x.createdAt).bundle (Cbor.Item.ofValue x.message.value).bytes

theorem call_eq (c : Client) (x : Call) :
    c.call clock x = (.ok (c.made clock (c.seq + 1) x), { c with seq := c.seq + 1 }) := by
  cases x with
  | upload up createdAt =>
    unfold call uploadBundle messageBundle
    dsimp only
    rw [encode_eq]
    rfl
  | request req createdAt =>
    unfold call requestBundle messageBundle
    dsimp only
    rw [encode_eq]
    rfl

/-- The bundles of a session, of which each has the next number. -/
def bundles (c : Client) : UInt64 → List Call → List Bundle
  | _, [] => []
  | seq, x :: calls => c.made clock (seq + 1) x :: bundles c (seq + 1) calls

@[simp] theorem made_withSeq (c : Client) (seq' seq : UInt64) (x : Call) :
    ({ c with seq := seq' } : Client).made clock seq x = c.made clock seq x := rfl

theorem bundles_withSeq (c : Client) (seq' seq : UInt64) (calls : List Call) :
    ({ c with seq := seq' } : Client).bundles clock seq calls = c.bundles clock seq calls := by
  induction calls generalizing seq with
  | nil => rfl
  | cons x calls ih =>
    unfold bundles
    rw [made_withSeq, ih]

theorem session_eq (c : Client) (calls : List Call) :
    c.session clock calls = ((c.bundles clock c.seq calls).map .ok,
      { c with seq := c.seq + UInt64.ofNat calls.length }) := by
  induction calls generalizing c with
  | nil =>
    have hseq : c.seq + UInt64.ofNat 0 = c.seq := UInt64.add_zero _
    unfold session Purge.run bundles
    rw [List.map_nil, List.length_nil, hseq]
  | cons x calls ih =>
    have hseq : c.seq + 1 + UInt64.ofNat calls.length = c.seq + UInt64.ofNat (calls.length + 1) := by
      rw [UInt64.ofNat_add, UInt64.add_assoc, UInt64.add_comm 1]
      rfl
    unfold session at ih ⊢
    unfold Purge.run bundles
    rw [call_eq, ih, bundles_withSeq, List.map_cons, List.length_cons]
    dsimp only
    rw [hseq]

/-! ## What is true of each bundle -/

variable {c : Client} {x : Call} {seq : UInt64}

theorem proper_sending (hsource : c.source.Made) (hsatellite : c.satellite.Made) (createdAt : Time) :
    (c.sending clock seq createdAt).Proper where
  source := hsource
  destination := hsatellite
  reportTo := .inl rfl
  crcType := .inl rfl
  payloadCRCType := .inl rfl

theorem isFragment_made (c : Client) (seq : UInt64) (x : Call) :
    (c.made clock seq x).primary.isFragment = false :=
  show decide (Options.zero.flags &&& FlagIsFragment ≠ 0) = false by decide

theorem marshal_made (c : Client) (seq : UInt64) (x : Call) :
    (c.made clock seq x).marshal = .ok (c.made clock seq x).image :=
  Sending.marshal_bundle (.inl rfl) (.inl rfl) _

/-- The null endpoint to report to has only one CBOR form, so that nothing of the bundle is lost. -/
theorem unmarshal_made (hsource : c.source.Made) (hsatellite : c.satellite.Made)
    (hlen : (c.made clock seq x).image.length < 2 ^ 63) :
    unmarshal (c.made clock seq x).image = .ok (c.made clock seq x) := by
  have hread := (proper_sending clock hsource hsatellite x.createdAt).unmarshal_image hlen
  have hreport : (c.made clock seq x).reportingTo
      (c.made clock seq x).primary.reportTo.reread = c.made clock seq x := rfl
  rwa [show (c.sending clock seq x.createdAt).bundle (Cbor.Item.ofValue x.message.value).bytes =
    c.made clock seq x from rfl, hreport] at hread

theorem carried_made (hlen : (c.made clock seq x).image.length < 2 ^ 63) :
    carried (c.made clock seq x) = .ok x.message := by
  have hpayload : (Cbor.Item.ofValue x.message.value).bytes.length < 2 ^ 63 :=
    (Sending.length_le_image _).trans_lt hlen
  exact decode_encode (encode_eq x.message) hpayload

theorem fitsMillis_ofNat {n : ℕ} (hn : n * 1000000 < 2 ^ 63) :
    Bundle.FitsMillis (UInt64.ofNat n) := by
  have hsmall : (UInt64.ofNat n).toNat = n := by
    rw [UInt64.toNat_ofNat']
    omega
  unfold Bundle.FitsMillis millisecond
  rw [hsmall]
  omega

/-- The whole milliseconds of a duration that is not negative. -/
theorem toNat_tdiv_mul_lt {d : ℤ} (hpos : 0 ≤ d) (hlt : d < 2 ^ 63) :
    (d.tdiv millisecond).toNat * 1000000 < 2 ^ 63 := by
  rw [Int.tdiv_eq_ediv_of_nonneg hpos]
  unfold millisecond
  omega

theorem fitsMillis_DTNTime (t : Time) : Bundle.FitsMillis (DTNTime t) := by
  have hspan : timeSub t dtnEpoch < 2 ^ 63 :=
    (max_le (by norm_num) (min_le_left _ _)).trans_lt (sub_one_lt _)
  unfold DTNTime
  dsimp only
  split_ifs with hneg
  · exact fitsMillis_ofNat (n := 0) (by norm_num)
  · apply fitsMillis_ofNat
    rcases le_or_gt 0 (timeSub t dtnEpoch) with hpos | hbefore
    · exact toNat_tdiv_mul_lt hpos hspan
    · have hzero : (timeSub t dtnEpoch).tdiv millisecond ≤ 0 := by
        rw [← neg_neg (timeSub t dtnEpoch), Int.neg_tdiv, neg_nonpos]
        exact Int.tdiv_nonneg (neg_nonneg.mpr hbefore.le) (by decide)
      rw [Int.toNat_of_nonpos hzero]
      norm_num

theorem lifetime_pos (c : Client) : 0 < c.lifetime := by
  unfold lifetime
  split_ifs with hown
  · exact hown
  · decide

theorem lifetime_lt (hfits : c.Lifetime < 2 ^ 63) : c.lifetime < 2 ^ 63 := by
  unfold lifetime
  split_ifs
  · exact hfits
  · decide

theorem lifetime_made (c : Client) (seq : UInt64) (x : Call) :
    (c.made clock seq x).primary.lifetime = UInt64.ofInt (c.lifetime.tdiv millisecond) := by
  have hne : c.lifetime ≠ 0 := c.lifetime_pos.ne'
  change UInt64.ofInt ((if c.lifetime = 0 then 3600 * second else c.lifetime).tdiv millisecond) = _
  rw [if_neg hne]

theorem toNat_ofInt {n : ℤ} (hnonneg : 0 ≤ n) (hlt : n < 2 ^ 63) : ((UInt64.ofInt n).toNat : ℤ) = n := by
  have hnat : UInt64.ofInt n = UInt64.ofNat n.toNat := by
    unfold UInt64.ofInt
    congr 1
    omega
  rw [hnat, UInt64.toNat_ofNat']
  omega

/-- The lifetime on the wire is that of the client in whole milliseconds. -/
theorem toNat_lifetime_made (hfits : c.Lifetime < 2 ^ 63) :
    ((c.made clock seq x).primary.lifetime.toNat : ℤ) = c.lifetime / millisecond := by
  have hpos := c.lifetime_pos.le
  have hle : c.lifetime / millisecond ≤ c.lifetime := Int.ediv_le_self _ hpos
  rw [lifetime_made, Int.tdiv_eq_ediv_of_nonneg hpos]
  exact toNat_ofInt (Int.ediv_nonneg hpos (by decide)) (hle.trans_lt (lifetime_lt hfits))

theorem fitsMillis_lifetime_made (hfits : c.Lifetime < 2 ^ 63) :
    Bundle.FitsMillis (c.made clock seq x).primary.lifetime := by
  have hlt := lifetime_lt hfits
  have hdiv := Int.ediv_mul_le c.lifetime (show millisecond ≠ 0 by decide)
  rw [Bundle.FitsMillis, toNat_lifetime_made clock hfits]
  exact hdiv.trans_lt hlt

theorem fitsMillis_creationTime_made (c : Client) (seq : UInt64) (x : Call) :
    Bundle.FitsMillis (c.made clock seq x).primary.creationTime.time := by
  change Bundle.FitsMillis (if DTNTime x.createdAt = 0 then DTNTime (clock seq) else
    DTNTime x.createdAt)
  split_ifs
  · exact fitsMillis_DTNTime _
  · exact fitsMillis_DTNTime _

/-- What becomes of a call: a bundle to the satellite, which the wire keeps as it is, whose payload is
the message, which was created when the call says (now, if that is before the epoch of DTN) and lives as
long as the client says, and which expires when its lifetime has elapsed and not before. -/
structure Sends (c : Client) (x : Call) (b : Bundle) : Prop where
  source : b.primary.source = c.source
  destination : b.primary.destination = c.satellite
  wire : b.marshal = .ok b.image
  reread : b.image.length < 2 ^ 63 → unmarshal b.image = .ok b ∧ carried b = .ok x.message
  created : b.primary.creationTime.time = if DTNTime x.createdAt = 0 then
    DTNTime (clock b.primary.creationTime.sequenceNumber) else DTNTime x.createdAt
  lifetime : (b.primary.lifetime.toNat : ℤ) = c.lifetime / millisecond
  expires : b.primary.creationTime.time ≠ 0 → ∀ now, b.expired now = true ↔ b.deadline < now

theorem sends_made (hsource : c.source.Made) (hsatellite : c.satellite.Made)
    (hfits : c.Lifetime < 2 ^ 63) (seq : UInt64) (x : Call) : c.Sends clock x (c.made clock seq x) where
  source := rfl
  destination := rfl
  wire := marshal_made clock c seq x
  reread := fun hlen ↦ ⟨unmarshal_made clock hsource hsatellite hlen, carried_made clock hlen⟩
  created := rfl
  lifetime := toNat_lifetime_made clock hfits
  expires := by
    intro hclock now
    rw [Bundle.expired_eq_true_iff hclock, (Bundle.wrappedDeadline_eq_iff _).mpr
      ⟨fitsMillis_creationTime_made clock c seq x, fitsMillis_lifetime_made clock hfits⟩]

theorem forall₂_sends (hsource : c.source.Made) (hsatellite : c.satellite.Made)
    (hfits : c.Lifetime < 2 ^ 63) (seq : UInt64) (calls : List Call) :
    List.Forall₂ (c.Sends clock) calls (c.bundles clock seq calls) := by
  induction calls generalizing seq with
  | nil => exact .nil
  | cons x calls ih => exact .cons (sends_made clock hsource hsatellite hfits _ x) (ih _)

theorem numbered_bundles (c : Client) (seq : UInt64) (calls : List Call) :
    Numbered seq (c.bundles clock seq calls) := by
  induction calls generalizing seq with
  | nil => exact ⟨fun _ hb ↦ absurd hb List.not_mem_nil, rfl⟩
  | cons x calls ih => exact (ih (seq + 1)).cons (isFragment_made clock c _ x) rfl

theorem length_bundles (c : Client) (seq : UInt64) (calls : List Call) :
    (c.bundles clock seq calls).length = calls.length := by
  induction calls generalizing seq with
  | nil => rfl
  | cons x calls ih => exact congrArg (· + 1) (ih (seq + 1))

/-- Every call of a session makes a bundle for its message, and fewer bundles than there are sequence
numbers have different IDs. -/
theorem session_sends (hsource : c.source.Made) (hsatellite : c.satellite.Made)
    (hfits : c.Lifetime < 2 ^ 63) (calls : List Call) :
    ∃ bs : List Bundle, (c.session clock calls).1 = bs.map .ok ∧ List.Forall₂ (c.Sends clock) calls bs ∧
      (calls.length ≤ 2 ^ 64 → (bs.map Bundle.id).Nodup) := by
  refine ⟨c.bundles clock c.seq calls, ?_, forall₂_sends clock hsource hsatellite hfits _ calls, ?_⟩
  · rw [session_eq]
  · intro hlen
    apply (numbered_bundles clock c c.seq calls).nodup
    rwa [length_bundles]

/-- A ground station with an upload and a request for it. -/
def groundClient : Client := newClient (DTN (lit "//ground-1/space-ai")) (DTN (lit "//sat-eo/space-ai"))

def groundCalls : List Call :=
  [.upload ⟨lit "eo-stats", lit "scene-stats", [200]⟩ (1767225600 * second),
    .request ⟨lit "req-1", lit "eo-stats", lit "scene-42"⟩ (1767226200 * second)]

theorem session_sends_groundCalls : ∃ bs : List Bundle,
    (groundClient.session (fun _ ↦ 0) groundCalls).1 = bs.map .ok ∧
      List.Forall₂ (groundClient.Sends fun _ ↦ 0) groundCalls bs ∧ (bs.map Bundle.id).Nodup := by
  obtain ⟨bs, hbs, hsends, hnodup⟩ := session_sends (c := groundClient) (fun _ ↦ 0) (.dtn _) (.dtn _)
    (by decide) groundCalls
  exact ⟨bs, hbs, hsends, hnodup (by decide)⟩

end Client

end Zenith.Bridge
