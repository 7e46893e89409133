import SourceAtlas.Failure
import SourceAtlas.Server.Basic
import SourceAtlas.Tree.Dependencies
/-!
# Resolving dependencies

Every symbol that is no name space is asked about once: where is it used? Each
place in the answer is looked up in the tree, and the innermost symbol around it
then depends on the symbol that was asked about.

Answers are collected by the number of their query before any dependency is
recorded, so the order in which they arrive makes no difference, and a run that
fails or is cancelled leaves the tree as it was. A query that the server refuses
costs its symbol the dependencies on it and nothing else.
-/

namespace SourceAtlas

namespace Resolve

structure Report where
  queried : Nat
  /-- The name spaces, which are not asked about. -/
  skipped : Nat
  failed : Nat
  scopeEdges : Nat
  externalEdges : Nat
  /-- The places outside every symbol, or around or inside the symbol itself. -/
  dropped : Nat
  deriving DecidableEq, Inhabited, Repr

/-- A question about a symbol: where in which document its name stands. -/
structure Query where
  symbol : Nat
  uri : String
  position : Position
  deriving DecidableEq, Inhabited, Repr

def isSkipped (t : Tree) (id : Nat) : Bool :=
  (t.facts? id).any fun facts => facts.kind.isNamespace

def uriOf? (t : Tree) (file : Nat) : Option String :=
  (t.get? file).bind fun a =>
    match a.content with
    | .file _ uri => some uri
    | _ => none

/-- The question about a symbol, unless it is a name space or belongs to no
file. -/
def query? (t : Tree) (id : Nat) : Option Query :=
  if isSkipped t id then none
  else
    (t.facts? id).bind fun facts =>
      (uriOf? t facts.file).map fun uri => ⟨id, uri, facts.selection.start⟩

/-- The questions about the symbols of a tree, nested symbols first. -/
def queries (t : Tree) : List Query :=
  t.symbolIds.filterMap (query? t)

abbrev Outcome := Except CallError (List Location)

/-- Asks the queries one after another. Once the run is cancelled no further one
is asked. -/
def ask (server : Server) : List Query → Session → Session × List Outcome
  | [], s => (s, [])
  | q :: qs, s =>
      if s.cancelled then
        let (s, outcomes) := ask server qs s
        (s, .error .cancelled :: outcomes)
      else
        let (s, outcome) := s.references server q.uri q.position
        let (s, outcomes) := ask server qs s
        (s, outcome :: outcomes)

/-- Collects outcomes in the order they arrive, each with the number of its query.
A broken connection ends the collection; every other failure leaves its query
without an answer. -/
def collect : List (Nat × Outcome) → Array (Option (List Location)) →
    Except Failure (Array (Option (List Location)))
  | [], answers => .ok answers
  | (n, .ok locations) :: rest, answers => collect rest (answers.setIfInBounds n (some locations))
  | (_, .error (.transport reason)) :: _, _ => .error (.transport reason)
  | (_, .error _) :: rest, answers => collect rest answers

/-- The answers to `count` queries from their outcomes in the order they arrive.
A cancelled run has none. -/
def gather (count : Nat) (cancelled : Bool) (arrivals : List (Nat × Outcome)) :
    Except Failure (Array (Option (List Location))) :=
  match collect arrivals (Array.replicate count none) with
  | .error e => .error e
  | .ok answers => if cancelled then .error .cancelled else .ok answers

/-- The symbol around a place, if the place lies in a file and a symbol of the
tree. -/
def symbolAt? (t : Tree) (l : Location) : Option Nat :=
  (t.fileForUri? l.uri).bind fun file => t.symbolContaining? file l.range

def edge? (t : Tree) (declaring : Nat) (l : Location) : Option EdgeClass :=
  (symbolAt? t l).bind fun referencing => t.classify? referencing declaring

def recordPlace (t : Tree) (declaring : Nat) (l : Location) : Tree :=
  match symbolAt? t l with
  | some referencing => t.addDependency referencing declaring
  | none => t

def Report.count (r : Report) : Option EdgeClass → Report
  | some .inScope => { r with scopeEdges := r.scopeEdges + 1 }
  | some .external => { r with externalEdges := r.externalEdges + 1 }
  | none => { r with dropped := r.dropped + 1 }

def recordPlaces (declaring : Nat) : List Location → Tree × Report → Tree × Report
  | [], state => state
  | l :: ls, (t, r) => recordPlaces declaring ls (recordPlace t declaring l, r.count (edge? t declaring l))

def recordAnswers : List (Query × Option (List Location)) → Tree × Report → Tree × Report
  | [], state => state
  | (_, none) :: rest, (t, r) => recordAnswers rest (t, { r with failed := r.failed + 1 })
  | (q, some locations) :: rest, state => recordAnswers rest (recordPlaces q.symbol locations state)

/-- Outcomes with the numbers of their queries. -/
def numbered (outcomes : List Outcome) : List (Nat × Outcome) :=
  outcomes.zipIdx.map fun (outcome, n) => (n, outcome)

end Resolve

namespace Tree

/-- Records what the outcomes of the queries tell, given in the order they arrive. -/
def resolveWith (t : Tree) (cancelled : Bool) (arrivals : List (Nat × Resolve.Outcome)) :
    Tree × Except Failure Resolve.Report :=
  let queries := Resolve.queries t
  match Resolve.gather queries.length cancelled arrivals with
  | .error e => (t, .error e)
  | .ok answers =>
      let skipped := t.symbolIds.countP (Resolve.isSkipped t)
      let (t, report) := Resolve.recordAnswers (queries.zip answers.toList)
        (t, ⟨queries.length, skipped, 0, 0, 0, 0⟩)
      (t, .ok report)

def resolveDependencies (t : Tree) (server : Server) (s : Session) :
    Session × Tree × Except Failure Resolve.Report :=
  let (s, outcomes) := Resolve.ask server (Resolve.queries t) s
  let (t, result) := t.resolveWith s.cancelled (Resolve.numbered outcomes)
  (s, t, result)

end Tree

end SourceAtlas
