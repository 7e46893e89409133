/-!
# Regular expressions over octets

An expression is matched by the expressions that are left of it after each octet:
`Regex.step` gives them, without repetitions, and a word matches when one of those
left at its end matches the empty word. The expressions that can be left are parts
of the one started from, so there are never many of them.
-/

namespace SourceAtlas

inductive Regex where
  | empty
  | octet (outside : Bool) (ranges : List (UInt8 × UInt8))
  | seq (first second : Regex)
  | either (first second : Regex)
  | star (inner : Regex)
  deriving DecidableEq, Inhabited, Repr

namespace Regex

def any : Regex := .octet true []

def only (b : UInt8) : Regex := .octet false [(b, b)]

def except (b : UInt8) : Regex := .octet true [(b, b)]

def ofList : List Regex → Regex
  | [] => .empty
  | [r] => r
  | r :: rs => .seq r (ofList rs)

def word (bytes : List UInt8) : Regex :=
  ofList (bytes.map only)

def nullable : Regex → Bool
  | .empty | .star _ => true
  | .octet _ _ => false
  | .seq r s => r.nullable && s.nullable
  | .either r s => r.nullable || s.nullable

/-- One expression after another, where the empty word first adds nothing. -/
def followedBy (r s : Regex) : Regex :=
  match r with
  | .empty => s
  | r => .seq r s

/-- What is left of an expression after an octet: a word matches one of these when
the octet and the word match the expression. -/
def step (b : UInt8) : Regex → List Regex
  | .empty => []
  | .octet outside ranges =>
      if outside != (ranges.any fun r => r.1 ≤ b && b ≤ r.2) then [.empty] else []
  | .seq r s =>
      (step b r).map (fun left => followedBy left s) ++ if r.nullable then step b s else []
  | .either r s => step b r ++ step b s
  | .star r => (step b r).map fun left => followedBy left (.star r)

def stepAll (b : UInt8) (rs : List Regex) : List Regex :=
  (rs.flatMap (step b)).eraseDups

def accepts (r : Regex) (word : List UInt8) : Bool :=
  (word.foldl (fun left b => stepAll b left) [r]).any nullable

end Regex

end SourceAtlas
