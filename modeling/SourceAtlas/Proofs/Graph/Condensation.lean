import Mathlib.Data.Fintype.Card
import Mathlib.Data.Fintype.Fin
import SourceAtlas.Proofs.Graph.Listing
/-!
# The graph of the components

Entering edges one after another counts each edge between two components once:
the in-degree of a component is the number of its predecessors (`Counted`). One
component leads to another when some edge of vertices does (`leads_condense`), and
where the labels are those of components the graph has no cycles
(`not_transGen_leads`).
-/

namespace SourceAtlas

namespace Graph

open Relation

variable {n m : Nat} {edge : Fin n → Fin n → Bool}

theorem get_ofFn {α : Type} (f : Fin n → α) : (Vector.ofFn f).get = f :=
  funext fun i => Vector.getElem_ofFn i.isLt

theorem get_set {α : Type} (v : Vector α n) (i j : Fin n) (a : α) :
    (v.set i a i.isLt).get j = if i = j then a else v.get j := by
  simp only [Fin.ext_iff]
  exact Vector.getElem_set i.isLt j.isLt

/-! ## The graph of the components -/

namespace Condensation

/-- An edge between two components. -/
def Leads (g : Condensation m) (a b : Fin m) : Prop := b ∈ g.successors.get a

instance (g : Condensation m) : DecidableRel g.Leads :=
  fun a b => inferInstanceAs (Decidable (b ∈ g.successors.get a))

/-- The components with an edge into `b`. -/
def predecessors (g : Condensation m) (b : Fin m) : Finset (Fin m) :=
  Finset.univ.filter fun a => g.Leads a b

@[simp] theorem mem_predecessors {g : Condensation m} {a b : Fin m} :
    a ∈ g.predecessors b ↔ g.Leads a b := by
  simp [predecessors]

/-- Every successor is listed once, and the in-degrees count the predecessors. -/
structure Counted (g : Condensation m) : Prop where
  nodup : ∀ a : Fin m, (g.successors.get a).Nodup
  inDegree : ∀ b : Fin m, g.inDegree.get b = (g.predecessors b).card

theorem leads_enter {g : Condensation m} {a b x y : Fin m} :
    (g.enter a b).Leads x y ↔ g.Leads x y ∨ (x = a ∧ y = b ∧ a ≠ b) := by
  by_cases h : a = b ∨ b ∈ g.successors.get a
  · rw [enter, if_pos h]
    constructor
    · exact .inl
    · rintro (hxy | ⟨rfl, rfl, hne⟩)
      · exact hxy
      · exact h.resolve_left hne
  · rw [enter, if_neg h]
    rw [not_or] at h
    by_cases hx : x = a
    · subst hx
      simp [Leads, get_set, h.1, or_comm]
    · simp [Leads, get_set, Ne.symm hx, hx]

theorem predecessors_enter_self {g : Condensation m} {a b : Fin m} (hne : a ≠ b) :
    (g.enter a b).predecessors b = insert a (g.predecessors b) := by
  ext x
  simp [leads_enter, hne, or_comm]

theorem predecessors_enter_of_ne {g : Condensation m} {a b y : Fin m} (hy : y ≠ b) :
    (g.enter a b).predecessors y = g.predecessors y := by
  ext x
  simp [leads_enter, hy]

theorem Counted.enter {g : Condensation m} (h : g.Counted) (a b : Fin m) :
    (g.enter a b).Counted := by
  by_cases hin : a = b ∨ b ∈ g.successors.get a
  · rwa [Condensation.enter, if_pos hin]
  · constructor
    · intro x
      rw [Condensation.enter, if_neg hin]
      rw [not_or] at hin
      by_cases hx : x = a
      · subst hx
        simpa [get_set] using ⟨hin.2, h.nodup x⟩
      · simpa [get_set, Ne.symm hx] using h.nodup x
    · intro y
      have hnew : a ∉ g.predecessors b := fun hmem => hin (.inr (mem_predecessors.mp hmem))
      by_cases hy : y = b
      · subst hy
        rw [predecessors_enter_self fun heq => hin (.inl heq), Finset.card_insert_of_notMem hnew,
          ← h.inDegree, Condensation.enter, if_neg hin]
        simp [get_set]
      · have : b ≠ y := Ne.symm hy
        rw [predecessors_enter_of_ne hy, ← h.inDegree, Condensation.enter, if_neg hin]
        simp [get_set, this]

theorem counted_empty (m : Nat) : (empty m).Counted := by
  constructor <;> simp [empty, predecessors, Leads, Vector.get]

theorem leads_foldl_enter (es : List (Fin m × Fin m)) (g : Condensation m) (a b : Fin m) :
    (es.foldl (fun g e => g.enter e.1 e.2) g).Leads a b ↔
      g.Leads a b ∨ (a ≠ b ∧ (a, b) ∈ es) := by
  induction es generalizing g with
  | nil => simp
  | cons e es ih =>
      obtain ⟨x, y⟩ := e
      rw [List.foldl_cons, ih, leads_enter, List.mem_cons, Prod.mk.injEq]
      constructor
      · rintro ((hab | ⟨rfl, rfl, hne⟩) | ⟨hne, hab⟩)
        · exact .inl hab
        · exact .inr ⟨hne, .inl ⟨rfl, rfl⟩⟩
        · exact .inr ⟨hne, .inr hab⟩
      · rintro (hab | ⟨hne, ⟨rfl, rfl⟩ | hab⟩)
        · exact .inl (.inl hab)
        · exact .inl (.inr ⟨rfl, rfl, hne⟩)
        · exact .inr ⟨hne, hab⟩

theorem counted_ofEdges (es : List (Fin m × Fin m)) : (ofEdges es).Counted := by
  rw [ofEdges]
  generalize hg : empty m = g
  have h : g.Counted := hg ▸ counted_empty m
  clear hg
  induction es generalizing g with
  | nil => exact h
  | cons e es ih => exact ih _ (h.enter e.1 e.2)

end Condensation

/-- An edge leads from one component to another where an edge of vertices does. -/
theorem leads_condense {label : Fin n → Fin m} {a b : Fin m} :
    (condense edge label).Leads a b ↔
      a ≠ b ∧ ∃ i j, edge i j = true ∧ label i = a ∧ label j = b := by
  have hempty : ¬ (Condensation.empty m).Leads a b := by
    simp [Condensation.Leads, Condensation.empty, Vector.get]
  rw [condense, Condensation.ofEdges, Condensation.leads_foldl_enter, or_iff_right hempty]
  simp [List.mem_map]

/-- Whoever follows the edges between components follows edges of vertices. -/
theorem reflTransGen_of_leads {l : Listing n} (hl : l.IsComponents edge) {a b : Fin l.size}
    (h : ReflTransGen (condense edge l.label).Leads a b) {i j : Fin n} (hi : l.label i = a)
    (hj : l.label j = b) : ReflTransGen (Joins edge) i j := by
  induction h generalizing j with
  | refl =>
      have hsame := hl.label_eq_iff.mp (hi.trans hj.symm)
      exact (sameComponent_iff_reflTransGen.mp hsame).1
  | tail _ hbc ih =>
      obtain ⟨-, x, y, hxy, hx, hy⟩ := leads_condense.mp hbc
      have hsame := hl.label_eq_iff.mp (hy.trans hj.symm)
      exact ((ih hx).tail hxy).trans (sameComponent_iff_reflTransGen.mp hsame).1

/-- The graph of the components has no cycles. -/
theorem not_transGen_leads {l : Listing n} (hl : l.IsComponents edge) (a : Fin l.size) :
    ¬ TransGen (condense edge l.label).Leads a a := by
  intro h
  obtain ⟨c, hac, hca⟩ := TransGen.head'_iff.mp h
  obtain ⟨hne, i, j, hij, hi, hj⟩ := leads_condense.mp hac
  have hji := reflTransGen_of_leads hl hca hj hi
  have hsame : SameComponent (Joins edge) i j :=
    sameComponent_iff_reflTransGen.mpr ⟨.single hij, hji⟩
  exact hne (hi.symm.trans ((hl.label_eq_iff.mpr hsame).trans hj))

end Graph

end SourceAtlas
