import SourceAtlas.Ascending
import SourceAtlas.Decimal.Binary64
/-!
# JSON values

A number is a whole number where it is written as one and fits into 64 bits, and
a double otherwise. The fields of an object are ascending by key and every key
occurs once; `Json.ofFields` keeps the last value of a key.

`record?` is the reading of records that all messages share: an object names the
fields, an array lists them in their order, and what is missing is for the
caller to judge.
-/

namespace SourceAtlas

namespace Json

inductive Number where
  | int (n : Int)
  | float (x : Binary64)
  deriving DecidableEq, Inhabited, Repr

/-- Whole numbers stay whole from the least signed to the greatest unsigned
64-bit word. -/
def Number.fits (n : Int) : Bool :=
  -(UInt64.size / 2 : Int) ≤ n && n < UInt64.size

end Json

inductive Json where
  | null
  | bool (b : Bool)
  | number (n : Json.Number)
  | string (s : String)
  | array (items : List Json)
  | object (fields : List (String × Json))
  deriving Inhabited, Repr

namespace Json

def int (n : Int) : Json := .number (.int n)

def nat (n : Nat) : Json := .number (.int n)

/-- An optional value; nothing is null. -/
def ofOption {α : Type} (f : α → Json) : Option α → Json
  | none => .null
  | some a => f a

def isNull : Json → Bool
  | .null => true
  | _ => false

/-- The object with the given fields, the last value of each key. -/
def ofFields (fields : List (String × Json)) : Json :=
  .object (fields.foldl (fun acc f => Ascending.put f.1 f.2 acc) [])

def field? (key : String) : Json → Option Json
  | .object fields => fields.lookup key
  | _ => none

/-- The fields of a record with the given field names, each one absent where it
is missing. An array gives them in order and may end early, but not be longer. -/
def record? (names : List String) : Json → Option (List (Option Json))
  | .object fields => some (names.map fun name => fields.lookup name)
  | .array items =>
      if items.length ≤ names.length then
        some (items.map some ++ List.replicate (names.length - items.length) none)
      else none
  | _ => none

/-! ## Reading values of a known type -/

def string? : Json → Option String
  | .string s => some s
  | _ => none

def int? : Json → Option Int
  | .number (.int n) => some n
  | _ => none

/-- A whole number from zero up to below a bound. -/
def natBelow? (bound : Nat) (v : Json) : Option Nat :=
  match v.int? with
  | some n => if 0 ≤ n ∧ n < bound then some n.toNat else none
  | none => none

/-- A 32-bit word. -/
def word32? (v : Json) : Option UInt32 :=
  (v.natBelow? UInt32.size).map UInt32.ofNat

def byte? (v : Json) : Option UInt8 :=
  (v.natBelow? UInt8.size).map UInt8.ofNat

@[simp] theorem natBelow?_nat {bound n : Nat} (h : n < bound) :
    (nat n).natBelow? bound = some n := by
  have : (n : Int) < bound := by omega
  simp [natBelow?, int?, nat, this]

@[simp] theorem word32?_nat (w : UInt32) : (nat w.toNat).word32? = some w := by
  simp [word32?, natBelow?_nat w.toNat_lt]

@[simp] theorem byte?_nat (b : UInt8) : (nat b.toNat).byte? = some b := by
  simp [byte?, natBelow?_nat b.toNat_lt]

/-- An unsigned 64-bit word. -/
def word64? (v : Json) : Option Nat :=
  v.natBelow? UInt64.size

def items? : Json → Option (List Json)
  | .array items => some items
  | _ => none

def list? {α : Type} (read : Json → Option α) (v : Json) : Option (List α) :=
  v.items?.bind fun items => items.mapM read

/-- An optional value: null and a missing one are nothing, and any other value
has to be readable. -/
def optional? {α : Type} (read : Json → Option α) : Option Json → Option (Option α)
  | none => some none
  | some .null => some none
  | some v => (read v).map some

end Json

end SourceAtlas
