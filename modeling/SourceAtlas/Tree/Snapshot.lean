import SourceAtlas.Tree.Dependencies
/-!
# Snapshots and printed trees

A snapshot is a copy of an artifact and what is below it that stands by itself;
dependencies are given by number. The printed tree has one line for each
artifact, indented by its level. Both can be limited to a number of levels below
the artifact they start from, and both show the same artifacts.
-/

namespace SourceAtlas

structure Snapshot where
  id : Nat
  name : String
  kind : String
  range : Option Range
  metrics : Metrics
  dependsOnInScope : List Nat
  dependsOnExternal : List Nat
  parts : List Snapshot
  deriving Inhabited

namespace Tree

def snapshotOf (a : Artifact) (parts : List Snapshot) : Snapshot where
  id := a.id
  name := a.name
  kind := a.content.label
  range := a.content.facts?.map SymbolFacts.range
  metrics := a.metrics
  dependsOnInScope := a.links.outgoingInScope
  dependsOnExternal := a.links.outgoingExternal
  parts := parts

/-- Copies an artifact and what is at most `depth` levels below it, or
everything below it where no depth is given. -/
def snapshot? (t : Tree) (id : Nat) (depth : Option Nat) : Option Snapshot :=
  t.fold (fun a below depth =>
    (t.get? a).map fun artifact =>
      snapshotOf artifact <|
        match depth with
        | some 0 => []
        | some (d + 1) => below.filterMap fun part => part (some d)
        | none => below.filterMap fun part => part none) id depth

def signed (n : Int) : String :=
  if 0 ≤ n then s!"+{n}" else s!"{n}"

/-- The measures as they stand at the end of a printed line: absent ones and
those that say nothing are left out. -/
def summary (m : Metrics) : String :=
  let lines := match m.linesOfCode with
    | some n => s!" loc={n}"
    | none => ""
  let component := match m.componentNumber with
    | some n => s!" component={n}"
    | none => ""
  let incoming := match m.incomingDependenciesInScope with
    | some n => if 0 < n then s!" incoming={n}" else ""
    | none => ""
  let scope := match m.dependencyDifferenceScope with
    | some n => if n ≠ 0 then s!" scope_diff={signed n}" else ""
    | none => ""
  let external := match m.dependencyDifferenceExternal with
    | some n => if n ≠ 0 then s!" external_diff={signed n}" else ""
    | none => ""
  let cycles := match m.linesOfCodeOfPartsInCycles with
    | some n => if 0 < n then s!" in_cycles={n}" else ""
    | none => ""
  lines ++ component ++ incoming ++ scope ++ external ++ cycles

def renderLine (level : Nat) (a : Artifact) : String :=
  String.ofList (List.replicate (2 * level) ' ') ++ s!"{a.name} [{a.content.label}]"
    ++ summary a.metrics ++ "\n"

/-- The artifacts from `id` down to a depth, each with its level, every artifact
before its parts. -/
def levels (t : Tree) (id : Nat) (depth : Option Nat) : List (Nat × Nat) :=
  t.fold (fun a below level =>
    (level, a) ::
      if depth.any fun limit => limit ≤ level then []
      else below.flatMap fun part => part (level + 1)) id 0

def render (t : Tree) (depth : Option Nat) : String :=
  String.join <| (t.levels root depth).map fun (level, id) =>
    match t.get? id with
    | some a => renderLine level a
    | none => ""

end Tree

end SourceAtlas
