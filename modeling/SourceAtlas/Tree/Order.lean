import SourceAtlas.Tree.Walk
/-!
# The order of parts

Parts are shown by component, then those that fewer of their siblings use first,
then by balance within the scope, balance across scopes and size, the greatest
first. A criterion that one of two artifacts has no value for says nothing about
them.

The parts are put in order by inserting one after another, each behind all that
it does not come before. So parts that compare equal keep the order they had,
and parts in order stay as they are.
-/

namespace SourceAtlas

namespace Metrics

/-- Compares two values with the smaller one first; a missing one decides
nothing. -/
def ascending {α : Type} [Ord α] : Option α → Option α → Ordering
  | some a, some b => compare a b
  | _, _ => .eq

/-- Compares two values with the greater one first; a missing one decides
nothing. -/
def descending {α : Type} [Ord α] (a b : Option α) : Ordering :=
  ascending b a

def order (a b : Metrics) : Ordering :=
  (ascending a.componentNumber b.componentNumber).then <|
  (ascending a.incomingDependenciesInScope b.incomingDependenciesInScope).then <|
  (descending a.dependencyDifferenceScope b.dependencyDifferenceScope).then <|
  (descending a.dependencyDifferenceExternal b.dependencyDifferenceExternal).then <|
  descending a.linesOfCode b.linesOfCode

end Metrics

/-- Puts an element into a list given last one first: behind everything from the
front of the reversed list on that it does not come before. -/
def insertLast {α : Type} (cmp : α → α → Ordering) (a : α) : List α → List α
  | [] => [a]
  | b :: bs =>
      match cmp a b with
      | .lt => b :: insertLast cmp a bs
      | _ => a :: b :: bs

@[simp] theorem insertLast_nil {α : Type} (cmp : α → α → Ordering) (a : α) :
    insertLast cmp a [] = [a] := rfl

theorem perm_insertLast {α : Type} (cmp : α → α → Ordering) (a : α) (bs : List α) :
    (insertLast cmp a bs).Perm (a :: bs) := by
  induction bs with
  | nil => exact .refl _
  | cons b bs ih =>
      rw [insertLast]
      split
      · exact (ih.cons b).trans (.swap a b bs)
      · exact .refl _

/-- The elements in order; those that compare equal keep the order they had. -/
def stableSort {α : Type} (cmp : α → α → Ordering) (as : List α) : List α :=
  (as.foldl (fun sorted a => insertLast cmp a sorted) []).reverse

@[simp] theorem stableSort_nil {α : Type} (cmp : α → α → Ordering) :
    stableSort cmp ([] : List α) = [] := rfl

/-- Sorting only rearranges. -/
theorem perm_stableSort {α : Type} (cmp : α → α → Ordering) (as : List α) :
    (stableSort cmp as).Perm as := by
  have hfold : ∀ bs : List α,
      (as.foldl (fun sorted a => insertLast cmp a sorted) bs).Perm (as ++ bs) := by
    induction as with
    | nil => exact fun bs => .refl bs
    | cons a as ih =>
        intro bs
        exact ((ih _).trans ((perm_insertLast cmp a bs).append_left as)).trans
          List.perm_middle
  have h := hfold []
  rw [List.append_nil] at h
  exact (List.reverse_perm _).trans h

/-- An element goes to its place, where the comparison follows a transitive relation.
The list is given last one first. -/
theorem pairwise_insertLast {α : Type} {cmp : α → α → Ordering} {le : α → α → Prop}
    (trans : ∀ a b c, le a b → le b c → le a c) {a : α} {bs : List α}
    (hlt : ∀ b ∈ bs, cmp a b = .lt → le a b) (hge : ∀ b ∈ bs, cmp a b ≠ .lt → le b a)
    (h : bs.Pairwise fun b c => le c b) : (insertLast cmp a bs).Pairwise fun b c => le c b := by
  induction bs with
  | nil => exact List.pairwise_singleton _ _
  | cons b bs ih =>
      obtain ⟨hb, hbs⟩ := List.pairwise_cons.mp h
      rw [insertLast]
      split
      · rename_i hab
        refine List.pairwise_cons.mpr ⟨?_, ih (fun c hc => hlt c (List.mem_cons_of_mem b hc))
          (fun c hc => hge c (List.mem_cons_of_mem b hc)) hbs⟩
        intro c hc
        rcases List.mem_cons.mp ((perm_insertLast cmp a bs).mem_iff.mp hc) with rfl | hc
        · exact hlt b List.mem_cons_self hab
        · exact hb c hc
      · rename_i hab
        have hba : le b a := hge b List.mem_cons_self hab
        refine List.pairwise_cons.mpr ⟨?_, h⟩
        intro c hc
        rcases List.mem_cons.mp hc with rfl | hc
        · exact hba
        · exact trans c b a (hb c hc) hba

/-- Sorting puts elements in order, where the comparison follows a transitive
relation between them. -/
theorem pairwise_stableSort {α : Type} {cmp : α → α → Ordering} {le : α → α → Prop}
    (trans : ∀ a b c, le a b → le b c → le a c) {as : List α}
    (hlt : ∀ a ∈ as, ∀ b ∈ as, cmp a b = .lt → le a b)
    (hge : ∀ a ∈ as, ∀ b ∈ as, cmp a b ≠ .lt → le b a) :
    (stableSort cmp as).Pairwise le := by
  have hfold : ∀ bs cs : List α, (∀ b ∈ bs, b ∈ as) → (∀ c ∈ cs, c ∈ as) →
      (cs.Pairwise fun b c => le c b) →
      (bs.foldl (fun sorted a => insertLast cmp a sorted) cs).Pairwise fun b c => le c b := by
    intro bs
    induction bs with
    | nil => exact fun cs _ _ h => h
    | cons b bs ih =>
        intro cs hbs hcs h
        have hb := hbs b List.mem_cons_self
        refine ih _ (fun c hc => hbs c (List.mem_cons_of_mem b hc)) ?_
          (pairwise_insertLast trans (fun c hc => hlt b hb c (hcs c hc))
            (fun c hc => hge b hb c (hcs c hc)) h)
        intro c hc
        rcases List.mem_cons.mp ((perm_insertLast cmp b cs).mem_iff.mp hc) with rfl | hc
        · exact hb
        · exact hcs c hc
  rw [stableSort, List.pairwise_reverse]
  exact hfold as [] (fun _ h => h) (by simp) .nil

namespace Tree

def order (t : Tree) (a b : Nat) : Ordering :=
  (t.metrics a).order (t.metrics b)

def sort (t : Tree) : Tree :=
  { t with
    artifacts := t.artifacts.map fun a => { a with parts := stableSort t.order a.parts } }

end Tree

end SourceAtlas
