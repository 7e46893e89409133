import SourceAtlas.Tree.Walk
/-!
# Dependencies between symbols

A dependency leads from the symbol that refers to the one that is declared. No
symbol depends on itself, on a symbol inside it or on one around it: there
containment says all there is to say. `classify?` is that rule together with the
class of the dependency, and `addDependency` records it at both ends. A
dependency that is recorded already leaves the tree as it is.
-/

namespace SourceAtlas

namespace Tree

/-- The class of a dependency from one artifact on another, if there can be
one. -/
def classify? (t : Tree) (referencing declaring : Nat) : Option EdgeClass :=
  if !t.isSymbol referencing || !t.isSymbol declaring then none
  else if t.contains referencing declaring || t.contains declaring referencing then none
  else if t.scopeOf? referencing = t.scopeOf? declaring then some .inScope
  else some .external

def link (t : Tree) (k : EdgeClass) (referencing declaring : Nat) : Tree :=
  (t.update declaring fun a => { a with links := a.links.addIncoming k referencing }).update
    referencing fun a => { a with links := a.links.addOutgoing k declaring }

/-- Records that one artifact depends on another, where that is possible. -/
def addDependency (t : Tree) (referencing declaring : Nat) : Tree :=
  match t.classify? referencing declaring with
  | some k => t.link k referencing declaring
  | none => t

theorem addDependency_of_classify?_eq_none {t : Tree} {r d : Nat}
    (h : t.classify? r d = none) : t.addDependency r d = t := by
  simp [addDependency, h]

theorem addDependency_of_classify?_eq_some {t : Tree} {r d : Nat} {k : EdgeClass}
    (h : t.classify? r d = some k) : t.addDependency r d = t.link k r d := by
  simp [addDependency, h]

def edgeCount (t : Tree) (k : EdgeClass) : Nat :=
  total (fun a => (a.links.outgoing k).length) t.artifacts.toList

structure Stats where
  folders : Nat
  files : Nat
  symbols : Nat
  scopeEdges : Nat
  externalEdges : Nat
  deriving DecidableEq, Inhabited, Repr

def stats (t : Tree) : Stats where
  folders := t.artifacts.toList.countP fun a => a.content.isFolder
  files := t.artifacts.toList.countP fun a => a.content.isFile
  symbols := t.artifacts.toList.countP fun a => a.content.isSymbol
  scopeEdges := t.edgeCount .inScope
  externalEdges := t.edgeCount .external

/-- All dependencies of a tree, by the number of the artifact that refers, those
within its scope first. -/
def edges (t : Tree) : List (Nat × Nat × EdgeClass) :=
  t.artifacts.toList.flatMap fun a =>
    (a.links.outgoingInScope.map fun d => (a.id, d, EdgeClass.inScope))
      ++ a.links.outgoingExternal.map fun d => (a.id, d, EdgeClass.external)

end Tree

end SourceAtlas
