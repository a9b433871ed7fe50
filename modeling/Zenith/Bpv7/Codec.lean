import Zenith.Bpv7.Block

/-!
# The wire format of a bundle

`Marshal` and `Unmarshal` as the source has them: blocks are lists of values that package `cbor`
encodes and decodes, and the CRC of a block is computed over the encoding of its fields.
-/

namespace Zenith.Bpv7

open Go Cbor

/-! ## Serialization -/

/-- The CRC bytes of a block whose CRC field is zeroed. -/
def crcBytes (crcType : UInt64) (zeroed : List UInt8) : List UInt8 :=
  if crcType = CRC16 then putUint16 (crc16X25 zeroed)
  else if crcType = CRC32 then putUint32 (crc32c zeroed)
  else []

def cborMarshal (v : Value) : Except BundleError (List UInt8) :=
  match marshal v with
  | .error err => .error (.encode err)
  | .ok bs => .ok bs

def appendCRC (fields : List Value) (crcType : UInt64) : Except BundleError (List Value) := do
  let n ← crcLen crcType
  if n = 0 then .ok fields
  else
    let zeroed ← cborMarshal (.array (fields ++ [.bytes (List.replicate n 0)]))
    .ok (fields ++ [.bytes (crcBytes crcType zeroed)])

/-- The fields of a canonical block before its CRC. -/
def CanonicalBlock.plainFields (c : CanonicalBlock) : List Value :=
  [.uint64 c.type, .uint64 c.number, .uint64 c.flags, .uint64 c.crcType, .bytes c.data]

def canonicalFields (c : CanonicalBlock) : Except BundleError (List Value) :=
  appendCRC c.plainFields c.crcType

/-- The offset and length of a fragment. -/
def PrimaryBlock.fragmentFields (p : PrimaryBlock) : List Value :=
  if p.isFragment then [.uint64 p.fragmentOffset, .uint64 p.totalADULength] else []

/-- The fields of a primary block before its CRC. -/
def PrimaryBlock.plainFields (p : PrimaryBlock) : List Value :=
  [.uint64 p.version, .uint64 p.flags, .uint64 p.crcType, .array p.destination.toCBOR,
    .array p.source.toCBOR, .array p.reportTo.toCBOR,
    .array [.uint64 p.creationTime.time, .uint64 p.creationTime.sequenceNumber],
    .uint64 p.lifetime] ++ p.fragmentFields

def primaryFields (p : PrimaryBlock) : Except BundleError (List Value) :=
  appendCRC p.plainFields p.crcType

/-- The loop of `Marshal` over the canonical blocks. -/
def canonicalElems : List CanonicalBlock → Except BundleError (List Value)
  | [] => .ok []
  | c :: rest => do
    let fields ← canonicalFields c
    let elems ← canonicalElems rest
    .ok (.array fields :: elems)

/-- `Marshal`. -/
def Bundle.marshal (b : Bundle) : Except BundleError (List UInt8) := do
  let fields ← primaryFields b.primary
  let elems ← canonicalElems b.canonical
  cborMarshal (.indefArray (.array fields :: elems))

/-! ## Parsing -/

def verifyCRC (fields : List Value) (got : List UInt8) : Except BundleError Unit :=
  match fields.getLast? with
  | some (.bytes want) =>
    if want.length ≠ got.length then .error (.crcLength got.length want.length)
    else if want = got then .ok ()
    else .error .crcMismatch
  | _ => .error .crcNotBytes

def verifyPrimaryCRC (p : PrimaryBlock) (got : List UInt8) : Except BundleError Unit := do
  let fields ← primaryFields p
  match verifyCRC fields got with
  | .error err => .error (.primaryBlock err)
  | .ok () => .ok ()

/-- The offset and length of a fragment, and the fields after them. -/
def parseFragment (p : PrimaryBlock) (rest : List Value) :
    Except BundleError (PrimaryBlock × List Value) :=
  if p.isFragment then
    match rest with
    | first :: second :: rest => do
      let fragmentOffset ← asUint64 first
      let totalADULength ← asUint64 second
      .ok ({ p with fragmentOffset, totalADULength }, rest)
    | _ => .error .missingFragment
  else .ok (p, rest)

def checkPrimaryCRC (p : PrimaryBlock) (rest : List Value) : Except BundleError Unit :=
  if p.crcType ≠ CRCNone then
    match rest with
    | [] => .error .primaryMissingCRC
    | .bytes crcVal :: _ => verifyPrimaryCRC p crcVal
    | _ => .error .primaryCRCType
  else .ok ()

def parseTimestamp (v : Value) : Except BundleError CreationTimestamp :=
  match v with
  | .array [first, second] => do
    let time ← asUint64 first
    let sequenceNumber ← asUint64 second
    .ok { time, sequenceNumber }
  | _ => .error .creationTimestamp

def parsePrimary (arr : List Value) : Except BundleError PrimaryBlock :=
  match arr with
  | version :: flags :: crcType :: destination :: source :: reportTo :: timestamp :: lifetime ::
      rest => do
    let version ← asUint64 version
    let flags ← asUint64 flags
    let crcType ← asUint64 crcType
    let destination ← eidFromCBOR destination
    let source ← eidFromCBOR source
    let reportTo ← eidFromCBOR reportTo
    let creationTime ← parseTimestamp timestamp
    let lifetime ← asUint64 lifetime
    let (p, rest) ← parseFragment
      ⟨version, flags, crcType, destination, source, reportTo, creationTime, lifetime, 0, 0⟩ rest
    checkPrimaryCRC p rest
    .ok p
  | arr => .error (.primaryFields arr.length)

def checkCanonicalCRC (c : CanonicalBlock) (rest : List Value) : Except BundleError Unit :=
  if c.crcType ≠ CRCNone then
    match rest with
    | [] => .error .canonicalMissingCRC
    | .bytes crcVal :: _ => do
      let fields ← canonicalFields c
      match verifyCRC fields crcVal with
      | .error err => .error (.canonicalBlock c.number err)
      | .ok () => .ok ()
    | _ => .error .canonicalCRCType
  else .ok ()

def parseCanonical (arr : List Value) : Except BundleError CanonicalBlock :=
  match arr with
  | type :: number :: flags :: crcType :: data :: rest => do
    let type ← asUint64 type
    let number ← asUint64 number
    let flags ← asUint64 flags
    let crcType ← asUint64 crcType
    match data with
    | .bytes data => do
      let c : CanonicalBlock := { type, number, flags, crcType, data }
      checkCanonicalCRC c rest
      .ok c
    | _ => .error .canonicalData
  | arr => .error (.canonicalFields arr.length)

/-- The loop of `Unmarshal` over the canonical blocks. -/
def parseCanonicals : List Value → Except BundleError (List CanonicalBlock)
  | [] => .ok []
  | .array arr :: raws => do
    let c ← parseCanonical arr
    let rest ← parseCanonicals raws
    .ok (c :: rest)
  | _ :: _ => .error .canonicalNotArray

/-- What `Unmarshal` does with the decoded value. -/
def parseBundle (v : Value) : Except BundleError Bundle :=
  match v with
  | .array (first :: second :: raws) =>
    match first with
    | .array primaryArr => do
      let primary ← parsePrimary primaryArr
      let canonical ← parseCanonicals (second :: raws)
      .ok { primary, canonical }
    | _ => .error .primaryNotArray
  | _ => .error .fewBlocks

/-- `Unmarshal`; a panic of the decoder is nowhere recovered. -/
def unmarshal (data : List UInt8) : Outcome BundleError Bundle :=
  match (Cbor.unmarshal data).1 with
  | .error err => .error (.decode err)
  | .panic reason => .panic reason
  | .outOfFuel => .outOfFuel
  | .ok v =>
    match parseBundle v with
    | .error err => .error err
    | .ok b => .ok b

end Zenith.Bpv7
