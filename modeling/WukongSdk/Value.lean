import Mathlib

/-!
# JSON values

`serde_json::Value` as the client sees it. An object is the list of its fields
in key order, as the default sorted map iterates them. Numbers keep the three
shapes of the library: a non-negative integer, a negative integer, and a double
kept by its bits, which no accessor below can read as an integer.
-/
namespace WukongSdk

inductive Number where
  | posInt (n : UInt64)
  | negInt (n : Int64)
  | float (bits : UInt64)
  deriving DecidableEq, Repr

inductive Value where
  | null
  | bool (b : Bool)
  | number (n : Number)
  | string (s : String)
  | array (items : List Value)
  | object (fields : List (String × Value))
  deriving Repr

namespace Number

/-- `as_i64`: a non-negative integer is one only below `2 ^ 63`. -/
def asI64 : Number → Option Int64
  | posInt n => if n.toNat < 2 ^ 63 then some (Int64.ofNat n.toNat) else none
  | negInt n => some n
  | float _ => none

def asU64 : Number → Option UInt64
  | posInt n => some n
  | _ => none

end Number

/-- Fields of an object, in key order. -/
abbrev Fields := List (String × Value)

namespace Fields

/-- Removing a key gives its value and the remaining map. -/
def remove (fields : Fields) (key : String) : Option Value × Fields :=
  (fields.lookup key, fields.filter fun f => f.1 ≠ key)

/-- Map insertion: the key keeps its place, or takes the one of its order. -/
def insert (key : String) (value : Value) : Fields → Fields
  | [] => [(key, value)]
  | f :: rest =>
      if f.1 = key then (key, value) :: rest
      else if key < f.1 then (key, value) :: f :: rest
      else f :: insert key value rest

/-- `entry(key).or_insert(value)`: an existing value wins. -/
def orInsert (key : String) (value : Value) (fields : Fields) : Fields :=
  if (fields.lookup key).isSome then fields else insert key value fields

end Fields

namespace Value

/-- `Value::get` with a string index: `None` on anything but an object. -/
def get : Value → String → Option Value
  | object fields, key => fields.lookup key
  | _, _ => none

def asStr : Value → Option String
  | string s => some s
  | _ => none

def asI64 : Value → Option Int64
  | number n => n.asI64
  | _ => none

def asU64 : Value → Option UInt64
  | number n => n.asU64
  | _ => none

def isObject : Value → Bool
  | object _ => true
  | _ => false

def isArray : Value → Bool
  | array _ => true
  | _ => false

/-- The string member of an object, as `get(key).and_then(Value::as_str)`. -/
def strField (v : Value) (key : String) : Option String := (v.get key).bind asStr

end Value

end WukongSdk
