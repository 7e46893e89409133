import SourceAtlas.Failure
import SourceAtlas.Graph.Numbering
import SourceAtlas.Tree.Dependencies
/-!
# Metrics

The measures of an artifact follow from those of its parts. Cycles are looked
for only among the symbols that are parts of one artifact, along the dependencies
within their scope: two such symbols share a component number exactly when each
of them leads to the other.

`measure` is a fold over the tree. A part on a cycle counts with all its lines,
and what lies on cycles inside it is then not counted again; any other part
counts with what lies on cycles below it. Folders and files add up their parts,
and symbols read their balance off their dependencies.

Metrics are computed once in the life of a tree: `computeMetrics` refuses a tree
that has them. `computeMetricsWith` leaves it open how the components were listed
on the way to their numbers.
-/

namespace SourceAtlas

namespace Metrics

/-- The lines of an artifact, none counted as zero. -/
def lines (m : Metrics) : Nat :=
  m.linesOfCode.getD 0

/-- Whether a part lies on a cycle: another part has its component number. -/
def isOnCycle (parts : List Metrics) (m : Metrics) : Bool :=
  match m.componentNumber with
  | none => false
  | some c => 1 < parts.countP fun other => other.componentNumber == some c

/-- The lines of the parts on cycles, together with the lines on cycles inside
the other parts. -/
def linesInCycles (parts : List Metrics) : Nat :=
  total (fun m => if isOnCycle parts m then m.lines else m.linesOfCodeOfPartsInCycles.getD 0)
    parts

end Metrics

namespace Tree

def symbolParts (t : Tree) (id : Nat) : List Nat :=
  (t.parts id).filter t.isSymbol

def dependsInScope (t : Tree) (a b : Nat) : Bool :=
  (t.links a).outgoingInScope.contains b

/-- The dependencies within their scope between some artifacts, by their places. -/
def siblingGraph (t : Tree) (symbols : Array Nat) (i j : Fin symbols.size) : Bool :=
  t.dependsInScope symbols[i] symbols[j]

/-- The component numbers of the symbols among the parts of an artifact: symbols
that depend on others come before them, and what no dependency orders keeps the
order of the parts. -/
def componentNumbers (t : Tree) (choices : Graph.Choices) (id : Nat) : List (Nat × Nat) :=
  let symbols := (t.symbolParts id).toArray
  let numbers := Graph.numbering choices (t.siblingGraph symbols)
  (List.finRange symbols.size).map fun i => (symbols[i], numbers[i])

/-- The component numbers below every artifact, at the place of its number. -/
def componentTable (t : Tree) (choices : Nat → Graph.Choices) : Array (List (Nat × Nat)) :=
  (Array.range t.size).map fun id => t.componentNumbers (choices id) id

/-- The component number of a symbol among the parts of its scope. -/
def componentNumber? (t : Tree) (table : Array (List (Nat × Nat))) (id : Nat) :
    Option Nat :=
  if t.isSymbol id then do
    let scope ← t.scopeOf? id
    let numbers ← table[scope]?
    numbers.lookup id
  else none

/-- The measures of an artifact with the given component number, from those of
its parts. -/
def measureFrom (t : Tree) (number : Option Nat) (id : Nat) (parts : List Metrics) :
    Metrics :=
  let links := t.links id
  let partLines := total Metrics.lines parts
  let own := ((t.get? id).bind Artifact.ownLines).getD partLines
  let symbol := t.isSymbol id
  { linesOfCode := some own
    linesOfCodeOfParts := some partLines
    linesOfCodeOfPartsInCycles := some (Metrics.linesInCycles parts)
    componentNumber := number
    incomingDependenciesInScope := some <|
      if symbol then links.incomingInScope.length
      else total (fun m => m.incomingDependenciesInScope.getD 0) parts
    dependencyDifferenceScope := some <|
      if symbol then (links.outgoingInScope.length : Int) - links.incomingInScope.length
      else balance (fun m => m.dependencyDifferenceScope.getD 0) parts
    dependencyDifferenceExternal := some <|
      if symbol then (links.outgoingExternal.length : Int) - links.incomingExternal.length
      else balance (fun m => m.dependencyDifferenceExternal.getD 0) parts }

def measure (t : Tree) (table : Array (List (Nat × Nat))) (id : Nat) : Metrics :=
  t.fold (fun a parts => t.measureFrom (t.componentNumber? table a) a parts) id

/-- The tree with the measures of every artifact. The components below each
artifact are numbered with choices of their own. -/
def measureAllWith (choices : Nat → Graph.Choices) (t : Tree) : Tree :=
  let table := t.componentTable choices
  { t with
    artifacts := t.artifacts.mapIdx fun id a => { a with metrics := t.measure table id }
    measured := true }

/-- Computes the metrics of a tree that has none yet. -/
def computeMetricsWith (choices : Nat → Graph.Choices) (t : Tree) : Except Failure Tree :=
  if t.measured then .error .alreadyMeasured else .ok (t.measureAllWith choices)

/-- Computes the metrics of a tree that has none yet, with the components as this
library lists them. -/
def computeMetrics (t : Tree) : Except Failure Tree :=
  t.computeMetricsWith fun _ => .standard

end Tree

end SourceAtlas
