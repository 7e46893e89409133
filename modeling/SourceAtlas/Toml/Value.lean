/-!
# Values of a TOML document

Settings are texts, whole numbers, truth values, arrays and tables. The value of a
decimal number or of a date is not kept, since no setting has one; it is only told
apart from everything else.

A table has its entries in the order they were written, and a key may occur in it
more than once: what that means is for the reader of the table to say. `record?`
is the reading that all settings share, and it takes no key twice.
-/

namespace SourceAtlas

namespace Toml

inductive Value where
  | text (s : String)
  | integer (n : Int)
  | boolean (b : Bool)
  | decimal
  | date
  | array (items : List Value)
  /-- A table; `growing` holds for one that dotted keys made, which other dotted keys
  may add to. -/
  | table (growing : Bool) (entries : List (String × Value))
  deriving Inhabited

namespace Value

def text? : Value → Option String
  | .text s => some s
  | _ => none

def boolean? : Value → Option Bool
  | .boolean b => some b
  | _ => none

def nat? : Value → Option Nat
  | .integer n => if 0 ≤ n then some n.toNat else none
  | _ => none

def texts? : Value → Option (List String)
  | .array items => items.mapM text?
  | _ => none

/-- The only value under a key: `none` when the key occurs twice, and nothing inside
when it does not occur. -/
def unique? (key : String) (entries : List (String × Value)) : Option (Option Value) :=
  match entries.filter fun entry => entry.1 == key with
  | [] => some none
  | [entry] => some (some entry.2)
  | _ => none

/-- The fields of a record with the given field names, each one absent where it is
missing. An array gives them in order and may end early, but not be longer. A date
is a record with a field of its own, and so without any of these. -/
def record? (names : List String) : Value → Option (List (Option Value))
  | .table _ entries => names.mapM fun name => unique? name entries
  | .array items =>
      if items.length ≤ names.length then
        some (items.map some ++ List.replicate (names.length - items.length) none)
      else none
  | .date => some (names.map fun _ => none)
  | _ => none

/-- Reads a field that stands for a value of its own when it is missing. -/
def orElse? {α : Type} (read : Value → Option α) (missing : α) : Option Value → Option α
  | none => some missing
  | some v => read v

end Value

end Toml

end SourceAtlas
