import Zenith.Go.Runtime

/-!
# Go values that the codec encodes and decodes

An `interface{}` of package `cbor`, one constructor for each dynamic type that its code tells apart.
A `float64` is its bit pattern. A `map[interface{}]interface{}` is the list of its entries in some
order, which Go leaves open: `Value.Reordered` relates two presentations of the same maps.
-/

namespace Zenith.Cbor

open Go

/-- A Go value held in an `interface{}`. -/
inductive Value
  | null
  | bool (x : Bool)
  | uint (x : UInt64)
  | uint8 (x : UInt8)
  | uint16 (x : UInt16)
  | uint32 (x : UInt32)
  | uint64 (x : UInt64)
  | int (x : Int64)
  | int8 (x : Int8)
  | int16 (x : Int16)
  | int32 (x : Int32)
  | int64 (x : Int64)
  | float64 (bits : UInt64)
  | bytes (data : List UInt8)
  | text (data : GoString)
  | array (items : List Value)
  | indefArray (items : List Value)
  | map (entries : List (Value × Value))
  | tag (number : UInt64) (content : Value)
  | breakMarker

namespace Value

/-- Induction over values, with the hypothesis for every nested one. -/
@[induction_eliminator]
theorem induction {motive : Value → Prop}
    (null : motive .null) (bool : ∀ x, motive (.bool x))
    (uint : ∀ x, motive (.uint x)) (uint8 : ∀ x, motive (.uint8 x))
    (uint16 : ∀ x, motive (.uint16 x)) (uint32 : ∀ x, motive (.uint32 x))
    (uint64 : ∀ x, motive (.uint64 x)) (int : ∀ x, motive (.int x))
    (int8 : ∀ x, motive (.int8 x)) (int16 : ∀ x, motive (.int16 x))
    (int32 : ∀ x, motive (.int32 x)) (int64 : ∀ x, motive (.int64 x))
    (float64 : ∀ bits, motive (.float64 bits)) (bytes : ∀ data, motive (.bytes data))
    (text : ∀ data, motive (.text data))
    (array : ∀ items, (∀ v ∈ items, motive v) → motive (.array items))
    (indefArray : ∀ items, (∀ v ∈ items, motive v) → motive (.indefArray items))
    (map : ∀ entries, (∀ e ∈ entries, motive e.1 ∧ motive e.2) → motive (.map entries))
    (tag : ∀ number content, motive content → motive (.tag number content))
    (breakMarker : motive .breakMarker) (v : Value) : motive v :=
  @Value.rec motive (fun items ↦ ∀ v ∈ items, motive v)
    (fun entries ↦ ∀ e ∈ entries, motive e.1 ∧ motive e.2) (fun e ↦ motive e.1 ∧ motive e.2)
    null bool uint uint8 uint16 uint32 uint64 int int8 int16 int32 int64 float64 bytes text
    (fun items ih ↦ array items ih) (fun items ih ↦ indefArray items ih)
    (fun entries ih ↦ map entries ih) (fun number content ih ↦ tag number content ih) breakMarker
    (fun _ h ↦ absurd h List.not_mem_nil)
    (fun _ _ ihv ihvs _ h ↦ (List.mem_cons.mp h).elim (fun he ↦ he ▸ ihv) (ihvs _))
    (fun _ h ↦ absurd h List.not_mem_nil)
    (fun _ _ ihe ihes _ h ↦ (List.mem_cons.mp h).elim (fun he ↦ he ▸ ihe) (ihes _))
    (fun _ _ ihk ihv ↦ ⟨ihk, ihv⟩) v

/-- The dynamic type as `%T` prints it. -/
def goType : Value → String
  | null => "<nil>"
  | bool _ => "bool"
  | uint _ => "uint"
  | uint8 _ => "uint8"
  | uint16 _ => "uint16"
  | uint32 _ => "uint32"
  | uint64 _ => "uint64"
  | int _ => "int"
  | int8 _ => "int8"
  | int16 _ => "int16"
  | int32 _ => "int32"
  | int64 _ => "int64"
  | float64 _ => "float64"
  | bytes _ => "[]uint8"
  | text _ => "string"
  | array _ => "[]interface {}"
  | indefArray _ => "cbor.IndefArray"
  | map _ => "map[interface {}]interface {}"
  | tag _ _ => "cbor.Tag"
  | breakMarker => "cbor.breakMarker"

/-! ## Values as map keys -/

/-- Whether Go can hash the value; slices and maps, and a struct that holds one, it cannot. -/
def hashable : Value → Bool
  | bytes _ => false
  | array _ => false
  | indefArray _ => false
  | map _ => false
  | tag _ content => hashable content
  | _ => true

/-- `==` on the bits of two `float64`: NaN differs from itself and both zeros agree. -/
def floatEq (a b : UInt64) : Bool :=
  let isNaN (x : UInt64) := 0x7ff0000000000000 < x &&& 0x7fffffffffffffff
  let isZero (x : UInt64) := x &&& 0x7fffffffffffffff = 0
  ¬isNaN a ∧ ¬isNaN b ∧ (a = b ∨ isZero a ∧ isZero b)

/-- `==` on two interface values that both can be hashed. -/
def keyEq : Value → Value → Bool
  | null, null => true
  | bool a, bool b => a == b
  | uint a, uint b => a == b
  | uint8 a, uint8 b => a == b
  | uint16 a, uint16 b => a == b
  | uint32 a, uint32 b => a == b
  | uint64 a, uint64 b => a == b
  | int a, int b => a == b
  | int8 a, int8 b => a == b
  | int16 a, int16 b => a == b
  | int32 a, int32 b => a == b
  | int64 a, int64 b => a == b
  | float64 a, float64 b => floatEq a b
  | text a, text b => a == b
  | tag m a, tag n b => m == n && keyEq a b
  | breakMarker, breakMarker => true
  | _, _ => false

/-- The entries after `out[key] = value`: an equal key is overwritten where it stands. -/
def upsert (entries : List (Value × Value)) (key value : Value) : List (Value × Value) :=
  match entries with
  | [] => [(key, value)]
  | e :: rest => if keyEq e.1 key then (key, value) :: rest else e :: upsert rest key value

/-! ## The order of map entries -/

/-- The same Go value with the entries of its maps presented in another order. -/
inductive Reordered : Value → Value → Prop
  | refl (v : Value) : Reordered v v
  | trans {u v w : Value} : Reordered u v → Reordered v w → Reordered u w
  | entries {es es' : List (Value × Value)} : es.Perm es' → Reordered (.map es) (.map es')
  | entry {k v v' : Value} (before after : List (Value × Value)) : Reordered v v' →
      Reordered (.map (before ++ (k, v) :: after)) (.map (before ++ (k, v') :: after))
  | item {v v' : Value} (before after : List Value) : Reordered v v' →
      Reordered (.array (before ++ v :: after)) (.array (before ++ v' :: after))
  | indefItem {v v' : Value} (before after : List Value) : Reordered v v' →
      Reordered (.indefArray (before ++ v :: after)) (.indefArray (before ++ v' :: after))
  | content {v v' : Value} (number : UInt64) : Reordered v v' →
      Reordered (.tag number v) (.tag number v')

end Value

end Zenith.Cbor
