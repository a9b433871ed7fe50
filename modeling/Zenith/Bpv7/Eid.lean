import Zenith.Cbor.RoundTrip

/-!
# Endpoint identifiers

The dtn and ipn schemes: text form, node identity and the two-element CBOR array. `EndpointID.Made`
are the values that the constructors and `ParseEID` build, the only ones on which the two forms are
meant to be inverse to each other.
-/

namespace Zenith.Bpv7

open Go Cbor

/-- The two failures of `strconv.ParseUint` in base ten. -/
inductive NumError
  | syntaxError
  | rangeError
  deriving DecidableEq, Repr

/-- The errors of package `bundle`. -/
inductive BundleError
  | emptyDTN (uri : GoString)
  | ipnShape (uri : GoString)
  | ipnNodeText (uri : GoString) (err : NumError)
  | ipnServiceText (uri : GoString) (err : NumError)
  | schemeText (uri : GoString)
  | negative (x : Int64)
  | notUnsigned (goType : String)
  | eidShape (goType : String)
  | eidScheme (err : BundleError)
  | dtnSSP (goType : String)
  | ipnPair
  | ipnNode (err : BundleError)
  | ipnService (err : BundleError)
  | unsupportedScheme (scheme : UInt64)
  | unknownCRCType (crcType : UInt64)
  | encode (err : EncodeError)
  | decode (err : DecodeError)
  | fewBlocks
  | primaryNotArray
  | canonicalNotArray
  | primaryFields (count : ℕ)
  | creationTimestamp
  | missingFragment
  | primaryMissingCRC
  | primaryCRCType
  | canonicalFields (count : ℕ)
  | canonicalData
  | canonicalMissingCRC
  | canonicalCRCType
  | primaryBlock (err : BundleError)
  | canonicalBlock (number : UInt64) (err : BundleError)
  | crcNotBytes
  | crcLength (got want : ℕ)
  | crcMismatch
  deriving DecidableEq, Repr

/-- The format string of an error; its arguments are those of the constructor. -/
def BundleError.format : BundleError → String
  | emptyDTN _ => "bundle: empty dtn ssp in %q"
  | ipnShape _ => "bundle: ipn eid %q must be node.service"
  | ipnNodeText _ _ => "bundle: ipn node in %q: %w"
  | ipnServiceText _ _ => "bundle: ipn service in %q: %w"
  | schemeText _ => "bundle: unsupported eid scheme in %q"
  | negative _ => "bundle: negative value %d where unsigned expected"
  | notUnsigned _ => "bundle: expected unsigned integer, got %T"
  | eidShape _ => "bundle: eid must be a 2-element array, got %T"
  | eidScheme _ => "bundle: eid scheme: %w"
  | dtnSSP _ => "bundle: dtn eid ssp must be text, got %T"
  | ipnPair => "bundle: ipn eid ssp must be a 2-element array"
  | ipnNode _ => "bundle: ipn node: %w"
  | ipnService _ => "bundle: ipn service: %w"
  | unsupportedScheme _ => "bundle: unsupported eid scheme %d"
  | unknownCRCType _ => "bundle: unknown CRC type %d"
  | encode _ => "%w"
  | decode _ => "bundle: decode: %w"
  | fewBlocks => "bundle: expected an array of at least 2 blocks"
  | primaryNotArray => "bundle: primary block is not an array"
  | canonicalNotArray => "bundle: canonical block is not an array"
  | primaryFields _ => "bundle: primary block has %d fields, need at least 8"
  | creationTimestamp => "bundle: creation timestamp must be a 2-element array"
  | missingFragment => "bundle: fragmented primary block missing offset/length"
  | primaryMissingCRC => "bundle: primary block missing CRC field"
  | primaryCRCType => "bundle: primary block CRC must be a byte string"
  | canonicalFields _ => "bundle: canonical block has %d fields, need at least 5"
  | canonicalData => "bundle: canonical block data must be a byte string"
  | canonicalMissingCRC => "bundle: canonical block missing CRC field"
  | canonicalCRCType => "bundle: canonical block CRC must be a byte string"
  | primaryBlock _ => "bundle: primary block: %w"
  | canonicalBlock _ _ => "bundle: canonical block %d: %w"
  | crcNotBytes => "crc field is not bytes"
  | crcLength _ _ => "crc length mismatch: got %d want %d"
  | crcMismatch => "crc mismatch"

def asUint64 (v : Value) : Except BundleError UInt64 :=
  match v with
  | .uint64 x => .ok x
  | .int64 x => if x < 0 then .error (.negative x) else .ok x.toUInt64
  | v => .error (.notUnsigned v.goType)

/-! ## The identifiers -/

def SchemeDTN : UInt64 := 1
def SchemeIPN : UInt64 := 2

structure EndpointID where
  scheme : UInt64
  ssp : GoString
  isNull : Bool
  node : UInt64
  service : UInt64
  deriving DecidableEq, Repr

/-- `EndpointID{}`. -/
def EndpointID.zero : EndpointID := ⟨0, [], false, 0, 0⟩

def NullEndpoint : EndpointID := { EndpointID.zero with scheme := SchemeDTN, isNull := true }

def DTN (ssp : GoString) : EndpointID := { EndpointID.zero with scheme := SchemeDTN, ssp }

def IPN (node service : UInt64) : EndpointID :=
  { EndpointID.zero with scheme := SchemeIPN, node, service }

/-! ## Text -/

/-- `strings.TrimPrefix`. -/
def trimPrefix (s start : GoString) : GoString :=
  if start.isPrefixOf s then s.drop start.length else s

/-- The loop of `strconv.ParseUint(s, 10, 64)`; `n` is the number read so far. -/
def parseDigits : ℕ → GoString → Except NumError UInt64
  | n, [] => .ok (UInt64.ofNat n)
  | n, c :: rest =>
    if 48 ≤ c ∧ c ≤ 57 then
      let n1 := n * 10 + (c.toNat - 48)
      if 2 ^ 64 ≤ n1 then .error .rangeError else parseDigits n1 rest
    else .error .syntaxError

/-- `strconv.ParseUint(s, 10, 64)`. -/
def parseUint (s : GoString) : Except NumError UInt64 :=
  if s = [] then .error .syntaxError else parseDigits 0 s

/-- `strings.SplitN(s, ".", 2)`, with the rest absent when there is no dot. -/
def splitDot (s : GoString) : GoString × Option GoString :=
  match s.dropWhile (· ≠ 46) with
  | [] => (s, none)
  | _ :: rest => (s.takeWhile (· ≠ 46), some rest)

def ParseEID (uri : GoString) : Except BundleError EndpointID :=
  if uri = lit "dtn:none" then .ok NullEndpoint
  else if (lit "dtn:").isPrefixOf uri then
    let ssp := trimPrefix uri (lit "dtn:")
    if ssp = [] then .error (.emptyDTN uri)
    else .ok { EndpointID.zero with scheme := SchemeDTN, ssp }
  else if (lit "ipn:").isPrefixOf uri then
    match splitDot (trimPrefix uri (lit "ipn:")) with
    | (_, none) => .error (.ipnShape uri)
    | (first, some second) =>
      match parseUint first with
      | .error err => .error (.ipnNodeText uri err)
      | .ok node =>
        match parseUint second with
        | .error err => .error (.ipnServiceText uri err)
        | .ok service => .ok { EndpointID.zero with scheme := SchemeIPN, node, service }
  else .error (.schemeText uri)

namespace EndpointID

/-- `String`. -/
def string (e : EndpointID) : GoString :=
  if e.scheme = SchemeDTN then
    if e.isNull then lit "dtn:none" else lit "dtn:" ++ e.ssp
  else if e.scheme = SchemeIPN then
    lit "ipn:" ++ decimal e.node.toNat ++ lit "." ++ decimal e.service.toNat
  else lit "unknown-scheme-" ++ decimal e.scheme.toNat

/-- `NodeID`: the endpoint without its service. -/
def nodeID (e : EndpointID) : GoString :=
  if e.scheme = SchemeDTN then
    if e.isNull then lit "dtn:none"
    else lit "dtn://" ++ (trimPrefix e.ssp (lit "//")).takeWhile (· ≠ 47)
  else if e.scheme = SchemeIPN then lit "ipn:" ++ decimal e.node.toNat
  else e.string

/-- What the constructors build. -/
inductive Made : EndpointID → Prop
  | null : Made NullEndpoint
  | dtn (ssp : GoString) : Made (DTN ssp)
  | ipn (node service : UInt64) : Made (IPN node service)

end EndpointID

/-- `ParseEID` builds nothing that the constructors do not build. -/
theorem made_of_parseEID {uri : GoString} {e : EndpointID} (h : ParseEID uri = .ok e) : e.Made := by
  unfold ParseEID at h
  dsimp only at h
  split_ifs at h
  · rw [← Except.ok.inj h]
    exact .null
  · rw [← Except.ok.inj h]
    exact .dtn _
  · split at h
    · simp at h
    · split at h
      · simp at h
      · split at h
        · simp at h
        · rw [← Except.ok.inj h]
          exact .ipn _ _

/-! ## CBOR -/

namespace EndpointID

def toCBOR (e : EndpointID) : List Value :=
  if e.scheme = SchemeDTN then
    if e.isNull then [.uint64 SchemeDTN, .uint64 0] else [.uint64 SchemeDTN, .text e.ssp]
  else if e.scheme = SchemeIPN then
    [.uint64 SchemeIPN, .array [.uint64 e.node, .uint64 e.service]]
  else [.uint64 e.scheme, .text e.ssp]

end EndpointID

/-- The dtn branch: a zero in any integer form is the null endpoint. -/
def dtnFromCBOR (ssp : Value) : Except BundleError EndpointID :=
  match asUint64 ssp with
  | .ok 0 => .ok NullEndpoint
  | _ =>
    match ssp with
    | .text ssp => .ok { EndpointID.zero with scheme := SchemeDTN, ssp }
    | ssp => .error (.dtnSSP ssp.goType)

def ipnFromCBOR (ssp : Value) : Except BundleError EndpointID :=
  match ssp with
  | .array [first, second] =>
    match asUint64 first with
    | .error err => .error (.ipnNode err)
    | .ok node =>
      match asUint64 second with
      | .error err => .error (.ipnService err)
      | .ok service => .ok { EndpointID.zero with scheme := SchemeIPN, node, service }
  | _ => .error .ipnPair

def eidFromCBOR (v : Value) : Except BundleError EndpointID :=
  match v with
  | .array [first, ssp] =>
    match asUint64 first with
    | .error err => .error (.eidScheme err)
    | .ok scheme =>
      if scheme = SchemeDTN then dtnFromCBOR ssp
      else if scheme = SchemeIPN then ipnFromCBOR ssp
      else .error (.unsupportedScheme scheme)
  | v => .error (.eidShape v.goType)

/-- The CBOR form of what the constructors build is read back. -/
theorem EndpointID.Made.eidFromCBOR_toCBOR {e : EndpointID} (h : e.Made) :
    eidFromCBOR (.array e.toCBOR) = .ok e := by
  cases h with
  | null => rfl
  | dtn ssp => rfl
  | ipn node service => rfl

theorem dtnFromCBOR_eq_ok {ssp : Value} {e : EndpointID} : dtnFromCBOR ssp = .ok e ↔
    (asUint64 ssp = .ok 0 ∧ e = NullEndpoint) ∨ ∃ text, ssp = .text text ∧ e = DTN text := by
  unfold dtnFromCBOR
  constructor
  · intro h
    split at h
    · next hzero => exact .inl ⟨hzero, (Except.ok.inj h).symm⟩
    · split at h
      · next text _ => exact .inr ⟨text, rfl, (Except.ok.inj h).symm⟩
      · simp at h
  · rintro (⟨hzero, rfl⟩ | ⟨text, rfl, rfl⟩)
    · simp [hzero]
    · rfl

theorem ipnFromCBOR_eq_ok {ssp : Value} {e : EndpointID} : ipnFromCBOR ssp = .ok e ↔
    ∃ first second node service, ssp = .array [first, second] ∧ asUint64 first = .ok node ∧
      asUint64 second = .ok service ∧ e = IPN node service := by
  unfold ipnFromCBOR
  constructor
  · intro h
    split at h
    · next first second =>
      split at h
      · simp at h
      · next node hnode =>
        split at h
        · simp at h
        · next service hservice =>
          exact ⟨first, second, node, service, rfl, hnode, hservice, (Except.ok.inj h).symm⟩
    · simp at h
  · rintro ⟨first, second, node, service, rfl, hnode, hservice, rfl⟩
    simp [hnode, hservice, IPN]

/-- What is read of an endpoint: a pair, of which the first item selects the form of the second. -/
theorem eidFromCBOR_eq_branch {v : Value} {e : EndpointID} : eidFromCBOR v = .ok e ↔
    ∃ first ssp, v = .array [first, ssp] ∧
      ((asUint64 first = .ok SchemeDTN ∧ dtnFromCBOR ssp = .ok e) ∨
        (asUint64 first = .ok SchemeIPN ∧ ipnFromCBOR ssp = .ok e)) := by
  unfold eidFromCBOR
  constructor
  · intro h
    split at h
    · next first ssp =>
      split at h
      · simp at h
      · next scheme hscheme =>
        split_ifs at h with hdtn hipn
        · exact ⟨first, ssp, rfl, .inl ⟨hdtn ▸ hscheme, h⟩⟩
        · exact ⟨first, ssp, rfl, .inr ⟨hipn ▸ hscheme, h⟩⟩
    · simp at h
  · rintro ⟨first, ssp, rfl, ⟨hscheme, hdtn⟩ | ⟨hscheme, hipn⟩⟩
    · simpa [hscheme] using hdtn
    · simpa [hscheme, SchemeDTN, SchemeIPN] using hipn

theorem made_of_eidFromCBOR {v : Value} {e : EndpointID} (h : eidFromCBOR v = .ok e) : e.Made := by
  obtain ⟨first, ssp, -, ⟨-, hdtn⟩ | ⟨-, hipn⟩⟩ := eidFromCBOR_eq_branch.mp h
  · rcases dtnFromCBOR_eq_ok.mp hdtn with ⟨-, rfl⟩ | ⟨text, -, rfl⟩
    · exact .null
    · exact .dtn text
  · obtain ⟨_, _, node, service, -, -, -, rfl⟩ := ipnFromCBOR_eq_ok.mp hipn
    exact .ipn node service

end Zenith.Bpv7
