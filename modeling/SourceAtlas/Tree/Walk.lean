import SourceAtlas.Tree.Basic
/-!
# Walking an artifact tree

`fold` computes a value for an artifact from the values of its parts, in parts
order. It follows only parts that are younger than the artifact they belong to,
which in a tree that was built by adding artifacts are all of them, so it needs
no bound of its own. The walk that visits parts before the artifact, the search
for the symbol around a range, the measures and the printed forms are all folds.

`contains` climbs the scopes in the same way.
-/

namespace SourceAtlas

namespace Tree

def youngerParts (t : Tree) (id : Nat) : List { p : Nat // id < p ∧ p < t.size } :=
  (t.parts id).filterMap fun p => if h : id < p ∧ p < t.size then some ⟨p, h⟩ else none

/-- The value of an artifact, computed from its number and the values of its
parts. -/
def fold {β : Type} (t : Tree) (f : Nat → List β → β) (id : Nat) : β :=
  f id ((t.youngerParts id).map fun p => fold t f p.val)
termination_by t.size - id
decreasing_by
  exact Nat.sub_lt_sub_left (Nat.lt_trans p.property.1 p.property.2) p.property.1

/-- The artifacts from `id` downward, every part before the artifact it belongs
to. -/
def walk (t : Tree) (id : Nat) : List Nat :=
  t.fold (fun a below => below.flatten ++ [a]) id

/-- Whether `container` is `id` or one of the artifacts around it. -/
def contains (t : Tree) (container id : Nat) : Bool :=
  if container = id then true
  else
    match t.scopeOf? id with
    | some s => if s < id then t.contains container s else false
    | none => false
termination_by id

def fileIds (t : Tree) : List Nat :=
  (t.walk root).filter t.isFile

/-- The symbols of the tree, nested ones before the symbol around them. -/
def symbolIds (t : Tree) : List Nat :=
  (t.walk root).filter t.isSymbol

/-- The first symbol whose declaration contains a range, looking at `id` and
below it with nested symbols first. Artifacts that are no symbols hold none. -/
def symbolAround? (t : Tree) (range : Range) (id : Nat) : Option Nat :=
  t.fold (fun a below =>
    match t.facts? a with
    | none => none
    | some facts =>
        (below.findSome? fun found => found).or
          (if facts.range.contains range then some a else none)) id

/-- The innermost symbol among the parts of an artifact whose declaration
contains a range. -/
def symbolContaining? (t : Tree) (file : Nat) (range : Range) : Option Nat :=
  (t.parts file).findSome? fun part => t.symbolAround? range part

end Tree

end SourceAtlas
