/-!
# Components of a finite directed graph

The vertices are the numbers below `n`, in an order that means something to the
caller. `reachability` closes the edges under one vertex after another: after the
step for `k` a pair is related when a path leads from one to the other that
passes only through the vertices taken so far. The relation is tabulated after
every step, so a look-up costs nothing.

Two vertices belong to the same component when they are equal or reach each
other. `components` lists the components by their first vertices. Other ways of
finding them list them otherwise, so a `Listing` is any list of sets of vertices
that leaves no vertex out.
-/

namespace SourceAtlas

namespace Graph

/-- A relation between the numbers below `n`, as a table. -/
abbrev Table (n : Nat) := Vector (Vector Bool n) n

namespace Table

def tabulate {n : Nat} (f : Fin n → Fin n → Bool) : Table n :=
  Vector.ofFn fun i => Vector.ofFn fun j => f i j

def related {n : Nat} (t : Table n) (i j : Fin n) : Bool :=
  t[i][j]

@[simp] theorem related_tabulate {n : Nat} (f : Fin n → Fin n → Bool) (i j : Fin n) :
    (tabulate f).related i j = f i j := by
  simp [tabulate, related]

/-- Relates two vertices that were related, and two that the vertex `k` joins. -/
def through {n : Nat} (t : Table n) (k : Fin n) : Table n :=
  tabulate fun i j => t.related i j || (t.related i k && t.related k j)

end Table

/-- The pairs of vertices with a path from the first to the second, one edge
long at least. -/
def reachability {n : Nat} (edge : Fin n → Fin n → Bool) : Table n :=
  (List.finRange n).foldl Table.through (Table.tabulate edge)

def sameComponent {n : Nat} (reach : Table n) (i j : Fin n) : Bool :=
  i == j || (reach.related i j && reach.related j i)

@[simp] theorem sameComponent_self {n : Nat} (reach : Table n) (i : Fin n) :
    sameComponent reach i i = true := by
  simp [sameComponent]

/-- The members of the component of `i` among some vertices. -/
def taken {n : Nat} (reach : Table n) (i : Fin n) (pending : List (Fin n)) : List (Fin n) :=
  pending.filter fun j => sameComponent reach i j

/-- The vertices among some that are in other components than `i`. -/
def remaining {n : Nat} (reach : Table n) (i : Fin n) (pending : List (Fin n)) : List (Fin n) :=
  pending.filter fun j => !sameComponent reach i j

theorem mem_taken {n : Nat} {reach : Table n} {i j : Fin n} {pending : List (Fin n)} :
    j ∈ taken reach i pending ↔ j ∈ pending ∧ sameComponent reach i j = true := by
  simp [taken]

theorem mem_remaining {n : Nat} {reach : Table n} {i j : Fin n} {pending : List (Fin n)} :
    j ∈ remaining reach i pending ↔ j ∈ pending ∧ sameComponent reach i j = false := by
  simp [remaining]

/-- Taking a component out leaves no more vertices than there were. -/
theorem length_remaining_le {n : Nat} (reach : Table n) (i : Fin n) (pending : List (Fin n)) :
    (remaining reach i pending).length ≤ pending.length :=
  List.length_filter_le _ _

/-- The components of the pending vertices, each at its first vertex. -/
def componentsOf {n : Nat} (reach : Table n) : List (Fin n) → List (List (Fin n))
  | [] => []
  | i :: pending => (i :: taken reach i pending) :: componentsOf reach (remaining reach i pending)
termination_by pending => pending.length
decreasing_by exact Nat.lt_succ_of_le (length_remaining_le reach i pending)

theorem exists_mem_componentsOf {n : Nat} (reach : Table n) {pending : List (Fin n)} {j : Fin n}
    (h : j ∈ pending) : ∃ members ∈ componentsOf reach pending, j ∈ members := by
  fun_induction componentsOf reach pending with
  | case1 => simp at h
  | case2 i pending ih =>
      cases hsame : sameComponent reach i j with
      | true =>
          refine ⟨i :: taken reach i pending, List.mem_cons_self, ?_⟩
          rcases List.mem_cons.mp h with rfl | h
          · exact List.mem_cons_self
          · exact List.mem_cons_of_mem i (mem_taken.mpr ⟨h, hsame⟩)
      | false =>
          rcases List.mem_cons.mp h with rfl | h
          · simp at hsame
          · obtain ⟨members, hmembers, hj⟩ := ih (mem_remaining.mpr ⟨h, hsame⟩)
            exact ⟨members, List.mem_cons_of_mem _ hmembers, hj⟩

/-- The components of a graph as they were found, one after another. Every vertex
is in one of them. -/
structure Listing (n : Nat) where
  components : List (List (Fin n))
  covers : ∀ i, ∃ members ∈ components, i ∈ members

namespace Listing

def size {n : Nat} (l : Listing n) : Nat := l.components.length

def label {n : Nat} (l : Listing n) (i : Fin n) : Fin l.size :=
  ⟨l.components.findIdx fun members => members.contains i,
    List.findIdx_lt_length_of_exists (by simpa using l.covers i)⟩

/-- The earliest vertex of a component, as a number; `n` where there is none. -/
def first {n : Nat} (l : Listing n) (c : Fin l.size) : Nat :=
  (l.components.get c).foldl (fun least i => min least i.val) n

end Listing

def components {n : Nat} (edge : Fin n → Fin n → Bool) : Listing n where
  components := componentsOf (reachability edge) (List.finRange n)
  covers i := exists_mem_componentsOf _ (List.mem_finRange i)

end Graph

end SourceAtlas
