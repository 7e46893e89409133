import SourceAtlas.Graph.Components
import SourceAtlas.Total
/-!
# Numbering the components of a graph

Components are numbered along a topological order of the graph they form, those
that depend on others first. Where several could come next, the one with the
earliest vertex does.

`condense` makes the graph of the components, in which an edge is counted once
however many edges of the vertices it stands for. `Agenda` is the state of the
numbering: the components that wait for no other one, in the order in which they
will be taken, and for every component how many it still waits for. Taking a
component gives it the next number and releases the components that waited for
it.

`Choices` are what a numbering may do in one way or another: how the components
were listed, and in which order the successors of one are gone through.
-/

namespace SourceAtlas

namespace Graph

/-! ## The graph of the components -/

/-- The edges between components: the successors of each, and of how many each is
a successor. -/
structure Condensation (m : Nat) where
  successors : Vector (List (Fin m)) m
  inDegree : Vector Nat m

namespace Condensation

def empty (m : Nat) : Condensation m :=
  ⟨Vector.replicate m [], Vector.replicate m 0⟩

/-- Enters an edge. One within a component is left out, and so is one that is
there already. -/
def enter {m : Nat} (g : Condensation m) (a b : Fin m) : Condensation m :=
  if a = b ∨ b ∈ g.successors.get a then g
  else
    { successors := g.successors.set a (b :: g.successors.get a) a.isLt
      inDegree := g.inDegree.set b (g.inDegree.get b + 1) b.isLt }

def ofEdges {m : Nat} (edges : List (Fin m × Fin m)) : Condensation m :=
  edges.foldl (fun g e => g.enter e.1 e.2) (empty m)

end Condensation

def edges {n : Nat} (edge : Fin n → Fin n → Bool) : List (Fin n × Fin n) :=
  (List.finRange n).flatMap fun i => ((List.finRange n).filter (edge i)).map fun j => (i, j)

@[simp] theorem mem_edges {n : Nat} (edge : Fin n → Fin n → Bool) (i j : Fin n) :
    (i, j) ∈ edges edge ↔ edge i j = true := by
  simp [edges]

def condense {n m : Nat} (edge : Fin n → Fin n → Bool) (label : Fin n → Fin m) :
    Condensation m :=
  .ofEdges ((edges edge).map fun e => (label e.1, label e.2))

/-! ## The agenda -/

/-- Puts a component among those that are ready, which stand in the order of their
first vertices. -/
def enqueue {m : Nat} (first : Fin m → Nat) (c : Fin m) : List (Fin m) → List (Fin m)
  | [] => [c]
  | d :: ds =>
      if first c < first d ∨ (first c = first d ∧ c < d) then c :: d :: ds
      else d :: enqueue first c ds

@[simp] theorem mem_enqueue {m : Nat} (first : Fin m → Nat) (c b : Fin m) (ds : List (Fin m)) :
    b ∈ enqueue first c ds ↔ b = c ∨ b ∈ ds := by
  induction ds with
  | nil => simp [enqueue]
  | cons d ds ih =>
      simp only [enqueue]
      split
      · simp
      · simp only [List.mem_cons, ih]
        exact or_left_comm

@[simp] theorem length_enqueue {m : Nat} (first : Fin m → Nat) (c : Fin m) (ds : List (Fin m)) :
    (enqueue first c ds).length = ds.length + 1 := by
  induction ds with
  | nil => rfl
  | cons d ds ih =>
      simp only [enqueue]
      split
      · simp
      · simp [ih]

/-- How far a numbering has come. A component that has no number yet stands with
zero. -/
structure Agenda (m : Nat) where
  ready : List (Fin m)
  waits : Vector Nat m
  numbers : Vector Nat m
  next : Nat

namespace Agenda

/-- The beginning: nothing is numbered, and the components that are successors of
none are ready. -/
def start {m : Nat} (g : Condensation m) (first : Fin m → Nat) : Agenda m where
  ready := ((List.finRange m).filter fun c => g.inDegree.get c == 0).foldl
    (fun ready c => enqueue first c ready) []
  waits := g.inDegree
  numbers := Vector.replicate m 0
  next := 0

/-- Lets a component wait for one less. When it waits for none it is ready. -/
def release {m : Nat} (first : Fin m → Nat) (s : Agenda m) (b : Fin m) : Agenda m :=
  match s.waits.get b with
  | 0 => s
  | d + 1 =>
      { s with
        waits := s.waits.set b d b.isLt
        ready := if d = 0 then enqueue first b s.ready else s.ready }

/-- Gives a component the next number, with `rest` ready after it, and releases
its successors. -/
def take {m : Nat} (first : Fin m → Nat) (s : Agenda m) (c : Fin m)
    (rest successors : List (Fin m)) : Agenda m :=
  successors.foldl (release first)
    { s with ready := rest, numbers := s.numbers.set c s.next c.isLt, next := s.next + 1 }

/-- The work an agenda has left: the components that are ready, and the waits that
are open. -/
def load {m : Nat} (s : Agenda m) : Nat :=
  s.ready.length + total (fun d => d) s.waits.toList

theorem load_release_le {m : Nat} (first : Fin m → Nat) (s : Agenda m) (b : Fin m) :
    (s.release first b).load ≤ s.load := by
  rw [release]
  split
  · exact Nat.le_refl _
  · rename_i d hd
    have hb : s.waits.toList[b.val]? = some (d + 1) := by
      simpa [Vector.get] using hd
    have hset := total_set (fun d => d) hb d
    simp only [load, Vector.toList_set]
    split
    · rw [length_enqueue]
      omega
    · omega

theorem load_foldl_release_le {m : Nat} (first : Fin m → Nat) (s : Agenda m)
    (bs : List (Fin m)) : (bs.foldl (release first) s).load ≤ s.load := by
  induction bs generalizing s with
  | nil => exact Nat.le_refl _
  | cons b bs ih => exact Nat.le_trans (ih _) (load_release_le first s b)

theorem load_take_lt {m : Nat} (first : Fin m → Nat) (s : Agenda m) {c : Fin m}
    {rest : List (Fin m)} (h : s.ready = c :: rest) (successors : List (Fin m)) :
    (s.take first c rest successors).load < s.load := by
  refine Nat.lt_of_le_of_lt (load_foldl_release_le first _ successors) ?_
  simp [load, h]

/-- The numbers of the components once nothing is ready any more. -/
def run {m : Nat} (first : Fin m → Nat) (successors : Fin m → List (Fin m)) (s : Agenda m) :
    Vector Nat m :=
  match _ready : s.ready with
  | [] => s.numbers
  | c :: rest => run first successors (s.take first c rest (successors c))
termination_by s.load
decreasing_by exact load_take_lt first s _ready _

end Agenda

/-! ## The numbers of the vertices -/

/-- What a numbering is free to do in its own way: how the components are listed, and
in which order the successors of one are released. -/
structure Choices where
  listing : {n : Nat} → (Fin n → Fin n → Bool) → Listing n
  arrange : {m : Nat} → Fin m → List (Fin m) → List (Fin m)

/-- The components by their first vertices, and successors as they were found. -/
def Choices.standard : Choices where
  listing := components
  arrange _ successors := successors

/-- The number of every vertex: that of its component. -/
def numbering (choices : Choices) {n : Nat} (edge : Fin n → Fin n → Bool) : Vector Nat n :=
  let l := choices.listing edge
  let labels : Vector (Fin l.size) n := Vector.ofFn l.label
  let firsts : Vector Nat l.size := Vector.ofFn l.first
  let g := condense edge labels.get
  let numbers := (Agenda.start g firsts.get).run firsts.get fun c =>
    choices.arrange c (g.successors.get c)
  Vector.ofFn fun i => numbers.get (labels.get i)

end Graph

end SourceAtlas
