import SourceAtlas.Path
import SourceAtlas.Span
import SourceAtlas.SymbolKind
/-!
# Artifacts

An artifact is a folder, a file or a symbol. Artifacts of one tree are numbered
in the order they were added, and everything one of them says about another
(its scope, its parts, its dependencies) is such a number.

Dependencies are kept at both of their ends and in two classes: between parts of
the same scope, and between parts of different ones. Each of the four buckets of
an artifact is ascending, so it holds every number once.
-/

namespace SourceAtlas

inductive EdgeClass where
  /-- Both ends have the same scope. -/
  | inScope
  /-- The ends have different scopes. -/
  | external
  deriving DecidableEq, Inhabited, Repr

def EdgeClass.label : EdgeClass → String
  | .inScope => "scope"
  | .external => "external"

/-- Puts a number into an ascending list that may hold it already. -/
def insertAscending (n : Nat) : List Nat → List Nat
  | [] => [n]
  | m :: ms =>
      if n < m then n :: m :: ms
      else if n = m then m :: ms
      else m :: insertAscending n ms

@[simp] theorem insertAscending_nil (n : Nat) : insertAscending n [] = [n] := rfl

@[simp] theorem mem_insertAscending (n k : Nat) (ms : List Nat) :
    k ∈ insertAscending n ms ↔ k = n ∨ k ∈ ms := by
  induction ms with
  | nil => simp
  | cons m ms ih =>
      simp only [insertAscending]
      split
      · simp
      · split
        · rename_i h
          subst h
          simp
        · simp only [List.mem_cons, ih]
          exact or_left_comm

theorem pairwise_insertAscending (n : Nat) {ms : List Nat} (h : ms.Pairwise (· < ·)) :
    (insertAscending n ms).Pairwise (· < ·) := by
  induction ms with
  | nil => exact List.pairwise_singleton _ _
  | cons m ms ih =>
      obtain ⟨hm, hms⟩ := List.pairwise_cons.mp h
      rw [insertAscending]
      split
      · rename_i hlt
        refine List.pairwise_cons.mpr ⟨?_, h⟩
        intro k hk
        rcases List.mem_cons.mp hk with rfl | hk
        · exact hlt
        · exact Nat.lt_trans hlt (hm k hk)
      · split
        · exact h
        · rename_i hge hne
          refine List.pairwise_cons.mpr ⟨?_, ih hms⟩
          intro k hk
          rcases (mem_insertAscending n k ms).mp hk with rfl | hk
          · omega
          · exact hm k hk

/-- The dependencies of an artifact, by direction and class. An incoming
dependency comes from an artifact that uses this one, an outgoing one leads to an
artifact that this one uses. -/
structure Links where
  incomingInScope : List Nat
  outgoingInScope : List Nat
  incomingExternal : List Nat
  outgoingExternal : List Nat
  deriving DecidableEq, Inhabited, Repr

namespace Links

def empty : Links := ⟨[], [], [], []⟩

def incoming (l : Links) : EdgeClass → List Nat
  | .inScope => l.incomingInScope
  | .external => l.incomingExternal

def outgoing (l : Links) : EdgeClass → List Nat
  | .inScope => l.outgoingInScope
  | .external => l.outgoingExternal

def addIncoming (l : Links) (k : EdgeClass) (id : Nat) : Links :=
  match k with
  | .inScope => { l with incomingInScope := insertAscending id l.incomingInScope }
  | .external => { l with incomingExternal := insertAscending id l.incomingExternal }

def addOutgoing (l : Links) (k : EdgeClass) (id : Nat) : Links :=
  match k with
  | .inScope => { l with outgoingInScope := insertAscending id l.outgoingInScope }
  | .external => { l with outgoingExternal := insertAscending id l.outgoingExternal }

@[simp] theorem incoming_empty (k : EdgeClass) : empty.incoming k = [] := by
  cases k <;> rfl

@[simp] theorem outgoing_empty (k : EdgeClass) : empty.outgoing k = [] := by
  cases k <;> rfl

theorem incoming_addIncoming (l : Links) (k j : EdgeClass) (id : Nat) :
    (l.addIncoming k id).incoming j =
      if j = k then insertAscending id (l.incoming j) else l.incoming j := by
  cases k <;> cases j <;> rfl

@[simp] theorem outgoing_addIncoming (l : Links) (k j : EdgeClass) (id : Nat) :
    (l.addIncoming k id).outgoing j = l.outgoing j := by
  cases k <;> cases j <;> rfl

@[simp] theorem incoming_addOutgoing (l : Links) (k j : EdgeClass) (id : Nat) :
    (l.addOutgoing k id).incoming j = l.incoming j := by
  cases k <;> cases j <;> rfl

theorem outgoing_addOutgoing (l : Links) (k j : EdgeClass) (id : Nat) :
    (l.addOutgoing k id).outgoing j =
      if j = k then insertAscending id (l.outgoing j) else l.outgoing j := by
  cases k <;> cases j <;> rfl

theorem ext_buckets {l m : Links} (hin : ∀ k, l.incoming k = m.incoming k)
    (hout : ∀ k, l.outgoing k = m.outgoing k) : l = m := by
  obtain ⟨li, lo, le, lx⟩ := l
  obtain ⟨mi, mo, me, mx⟩ := m
  obtain rfl : li = mi := hin .inScope
  obtain rfl : lo = mo := hout .inScope
  obtain rfl : le = me := hin .external
  obtain rfl : lx = mx := hout .external
  rfl

def isEmpty (l : Links) : Bool :=
  l.incomingInScope.isEmpty && l.outgoingInScope.isEmpty
    && l.incomingExternal.isEmpty && l.outgoingExternal.isEmpty

end Links

/-- The measures of an artifact. A measure is absent until it is computed; only
symbols ever have a component number. -/
structure Metrics where
  /-- The size of the artifact itself; for a folder the size of its parts. -/
  linesOfCode : Option Nat
  linesOfCodeOfParts : Option Nat
  /-- The size of what lies on a cycle somewhere below the artifact. -/
  linesOfCodeOfPartsInCycles : Option Nat
  componentNumber : Option Nat
  incomingDependenciesInScope : Option Nat
  /-- Outgoing minus incoming dependencies within the scope. -/
  dependencyDifferenceScope : Option Int
  /-- Outgoing minus incoming dependencies across scopes. -/
  dependencyDifferenceExternal : Option Int
  deriving DecidableEq, Inhabited, Repr

def Metrics.absent : Metrics :=
  ⟨.none, .none, .none, .none, .none, .none, .none⟩

/-- What a language server tells about a symbol, and the file it was told for. -/
structure SymbolFacts where
  kind : SymbolKind
  range : Range
  selection : Range
  file : Nat
  deriving DecidableEq, Inhabited, Repr

inductive Content where
  | folder
  | file (path : Path) (uri : String)
  | symbol (facts : SymbolFacts)
  deriving DecidableEq, Inhabited, Repr

namespace Content

def label : Content → String
  | .folder => "Folder"
  | .file _ _ => "File"
  | .symbol facts => facts.kind.label

def facts? : Content → Option SymbolFacts
  | .symbol facts => some facts
  | _ => none

def isSymbol (c : Content) : Bool :=
  c.facts?.isSome

def isFile : Content → Bool
  | .file _ _ => true
  | _ => false

def isFolder : Content → Bool
  | .folder => true
  | _ => false

end Content

structure Artifact where
  id : Nat
  name : String
  content : Content
  code : Option String
  /-- The artifact this one is a part of; absent for the root only. -/
  scope : Option Nat
  parts : List Nat
  metrics : Metrics
  links : Links
  /-- The lines counted when the artifact was added; folders have no count of
  their own. -/
  ownLines : Option Nat
  deriving DecidableEq, Inhabited, Repr

end SourceAtlas
