import SourceAtlas.Graph.Numbering
import SourceAtlas.Proofs.Graph.SourceOrder
/-!
# Listings of components

The table of paths is exact: after the step for a vertex it relates two vertices
when a path leads from one to the other through the vertices taken so far
(`related_through`), so in the end it relates those that reach each other
(`related_reachability`).

`Listing.IsComponents` is all that the numbering needs of a listing: its entries
are the components, each vertex in one entry only. The listing by first vertices
has this property (`isComponents_components`).
-/

namespace SourceAtlas

namespace Graph

open Relation

variable {n : Nat} {edge : Fin n → Fin n → Bool}

/-- The edges of a graph as a relation. -/
abbrev Joins (edge : Fin n → Fin n → Bool) (i j : Fin n) : Prop := edge i j = true

/-! ## The table of paths -/

/-- A path that passes only through the vertices `vs` on its way. -/
inductive PathThrough (edge : Fin n → Fin n → Bool) (vs : List (Fin n)) :
    Fin n → Fin n → Prop
  | single {i j : Fin n} : edge i j = true → PathThrough edge vs i j
  | step {i k j : Fin n} : edge i k = true → k ∈ vs → PathThrough edge vs k j →
      PathThrough edge vs i j

namespace PathThrough

theorem mono {vs ws : List (Fin n)} (hsub : ∀ i ∈ vs, i ∈ ws) {i j : Fin n}
    (h : PathThrough edge vs i j) : PathThrough edge ws i j := by
  induction h with
  | single hij => exact .single hij
  | step hik hk _ ih => exact .step hik (hsub _ hk) ih

theorem append {vs : List (Fin n)} {i k j : Fin n} (hik : PathThrough edge vs i k) (hk : k ∈ vs)
    (hkj : PathThrough edge vs k j) : PathThrough edge vs i j := by
  induction hik with
  | single hik => exact .step hik hk hkj
  | step hil hl _ ih => exact .step hil hl (ih hk hkj)

/-- A path through `k` and `vs` avoids `k` or can be cut at `k`. -/
theorem split {k : Fin n} {vs : List (Fin n)} {i j : Fin n}
    (h : PathThrough edge (k :: vs) i j) :
    PathThrough edge vs i j ∨ (PathThrough edge vs i k ∧ PathThrough edge vs k j) := by
  induction h with
  | single hij => exact .inl (.single hij)
  | step hil hl _ ih =>
      rcases List.mem_cons.mp hl with rfl | hl
      · rcases ih with hlj | ⟨-, hlj⟩
        · exact .inr ⟨.single hil, hlj⟩
        · exact .inr ⟨.single hil, hlj⟩
      · rcases ih with hlj | ⟨hlk, hkj⟩
        · exact .inl (.step hil hl hlj)
        · exact .inr ⟨.step hil hl hlk, hkj⟩

theorem transGen {vs : List (Fin n)} {i j : Fin n} (h : PathThrough edge vs i j) :
    TransGen (Joins edge) i j := by
  induction h with
  | single hij => exact .single hij
  | step hik _ _ ih => exact .head hik ih

end PathThrough

theorem pathThrough_finRange_iff {i j : Fin n} :
    PathThrough edge (List.finRange n) i j ↔ TransGen (Joins edge) i j := by
  refine ⟨PathThrough.transGen, fun h => ?_⟩
  induction h with
  | single hij => exact .single hij
  | tail _ hbc ih => exact ih.append (List.mem_finRange _) (.single hbc)

/-- One step of the table: paths may pass through one vertex more. -/
theorem related_through {t : Table n} {vs : List (Fin n)}
    (h : ∀ i j, t.related i j = true ↔ PathThrough edge vs i j) (k i j : Fin n) :
    (t.through k).related i j = true ↔ PathThrough edge (k :: vs) i j := by
  have hsub : ∀ l ∈ vs, l ∈ k :: vs := fun l hl => List.mem_cons_of_mem k hl
  rw [Table.through, Table.related_tabulate, Bool.or_eq_true, Bool.and_eq_true, h, h, h]
  constructor
  · rintro (hij | ⟨hik, hkj⟩)
    · exact hij.mono hsub
    · exact (hik.mono hsub).append List.mem_cons_self (hkj.mono hsub)
  · exact PathThrough.split

theorem related_foldl_through {t : Table n} {vs : List (Fin n)}
    (h : ∀ i j, t.related i j = true ↔ PathThrough edge vs i j) (ks : List (Fin n)) (i j : Fin n) :
    (ks.foldl Table.through t).related i j = true ↔
      PathThrough edge (ks.reverse ++ vs) i j := by
  induction ks generalizing t vs with
  | nil => simpa using h i j
  | cons k ks ih =>
      rw [List.foldl_cons, ih (related_through h k), List.reverse_cons, List.append_assoc,
        List.singleton_append]

/-- The finished table relates the pairs that a path joins. -/
theorem related_reachability (i j : Fin n) :
    (reachability edge).related i j = true ↔ TransGen (Joins edge) i j := by
  have hbase : ∀ i j, (Table.tabulate edge).related i j = true ↔ PathThrough edge [] i j := by
    intro i j
    rw [Table.related_tabulate]
    constructor
    · exact .single
    · rintro (hij | ⟨-, hk, -⟩)
      · exact hij
      · simp at hk
  rw [reachability, related_foldl_through hbase, ← pathThrough_finRange_iff]
  constructor <;> exact PathThrough.mono (by simp)

theorem sameComponent_reachability (i j : Fin n) :
    sameComponent (reachability edge) i j = true ↔ SameComponent (Joins edge) i j := by
  simp [sameComponent, SameComponent, related_reachability]

/-! ## Listings -/

/-- The entries of a listing are the components of a graph, and no vertex is in two
of them. -/
structure Listing.IsComponents (l : Listing n) (edge : Fin n → Fin n → Bool) : Prop where
  disjoint : l.components.Pairwise List.Disjoint
  ne_nil : ∀ members ∈ l.components, members ≠ []
  mem_iff : ∀ members ∈ l.components, ∀ i ∈ members, ∀ j,
    j ∈ members ↔ SameComponent (Joins edge) i j

namespace Listing

variable {l : Listing n}

theorem mem_get_label (l : Listing n) (i : Fin n) : i ∈ l.components.get (l.label i) := by
  have h : (l.components.get (l.label i)).contains i = true :=
    List.findIdx_getElem (w := (l.label i).isLt)
  exact List.contains_iff_mem.mp h

theorem IsComponents.label_eq (h : l.IsComponents edge) {i : Fin n} {c : Fin l.size}
    (hi : i ∈ l.components.get c) : l.label i = c := by
  have hlabel := l.mem_get_label i
  have hdisjoint := List.pairwise_iff_get.mp h.disjoint
  rcases lt_trichotomy (l.label i) c with hlt | heq | hgt
  · exact absurd hi (hdisjoint _ _ hlt hlabel)
  · exact heq
  · exact absurd hlabel (hdisjoint _ _ hgt hi)

theorem IsComponents.label_eq_iff (h : l.IsComponents edge) {i j : Fin n} :
    l.label i = l.label j ↔ SameComponent (Joins edge) i j := by
  rw [← h.mem_iff _ (List.get_mem _ _) i (l.mem_get_label i)]
  constructor
  · intro heq
    exact heq ▸ l.mem_get_label j
  · intro hj
    exact (h.label_eq hj).symm

theorem foldl_min_le (members : List (Fin n)) (least : Nat) :
    members.foldl (fun least i => min least i.val) least ≤ least ∧
      ∀ i ∈ members, members.foldl (fun least i => min least i.val) least ≤ i.val := by
  induction members generalizing least with
  | nil => simp
  | cons i members ih =>
      obtain ⟨hleast, hmembers⟩ := ih (min least i.val)
      refine ⟨hleast.trans (min_le_left _ _), ?_⟩
      intro j hj
      rcases List.mem_cons.mp hj with rfl | hj
      · exact hleast.trans (min_le_right _ _)
      · exact hmembers j hj

theorem foldl_min_mem (members : List (Fin n)) (least : Nat) :
    members.foldl (fun least i => min least i.val) least = least ∨
      ∃ i ∈ members, members.foldl (fun least i => min least i.val) least = i.val := by
  induction members generalizing least with
  | nil => exact .inl rfl
  | cons i members ih =>
      rcases ih (min least i.val) with heq | ⟨j, hj, heq⟩
      · rcases min_choice least i.val with hmin | hmin
        · exact .inl (heq.trans hmin)
        · exact .inr ⟨i, List.mem_cons_self, heq.trans hmin⟩
      · exact .inr ⟨j, List.mem_cons_of_mem i hj, heq⟩

theorem first_label_le (l : Listing n) (i : Fin n) : l.first (l.label i) ≤ i.val :=
  (foldl_min_le _ _).2 i (l.mem_get_label i)

/-- The first position of a component is that of one of its vertices. -/
theorem IsComponents.exists_first (h : l.IsComponents edge) (c : Fin l.size) :
    ∃ i, l.label i = c ∧ l.first c = i.val := by
  rcases foldl_min_mem (l.components.get c) n with heq | ⟨i, hi, heq⟩
  · -- the start value is above every vertex, and there is one
    obtain ⟨i, hi⟩ := List.exists_mem_of_ne_nil _ (h.ne_nil _ (List.get_mem _ c))
    have hle := (foldl_min_le (l.components.get c) n).2 i hi
    omega
  · exact ⟨i, h.label_eq hi, heq⟩

theorem IsComponents.first_injective (h : l.IsComponents edge) {b c : Fin l.size}
    (heq : l.first b = l.first c) : b = c := by
  obtain ⟨i, rfl, hi⟩ := h.exists_first b
  obtain ⟨j, rfl, hj⟩ := h.exists_first c
  rw [Fin.ext (hi.symm.trans (heq.trans hj))]

end Listing

/-! ## The listing by first vertices -/

theorem mem_componentsOf {pending members : List (Fin n)} {i : Fin n}
    (h : members ∈ componentsOf (reachability edge) pending) (hi : i ∈ members) (j : Fin n) :
    j ∈ members ↔ j ∈ pending ∧ SameComponent (Joins edge) i j := by
  fun_induction componentsOf (reachability edge) pending generalizing i j with
  | case1 => simp at h
  | case2 k pending ih =>
      rcases List.mem_cons.mp h with rfl | h
      · have hmem : ∀ x, x ∈ k :: taken (reachability edge) k pending ↔
            x ∈ k :: pending ∧ SameComponent (Joins edge) k x := by
          intro x
          rw [List.mem_cons, List.mem_cons, mem_taken, sameComponent_reachability]
          constructor
          · rintro (rfl | ⟨hx, hk⟩)
            · exact ⟨.inl rfl, .refl _⟩
            · exact ⟨.inr hx, hk⟩
          · rintro ⟨rfl | hx, hk⟩
            · exact .inl rfl
            · exact .inr ⟨hx, hk⟩
        have hki := ((hmem i).mp hi).2
        rw [hmem]
        exact and_congr_right fun _ => ⟨hki.symm.trans, hki.trans⟩
      · have hi' := ((ih h hi i).mp hi).1
        rw [mem_remaining, ← Bool.not_eq_true, sameComponent_reachability] at hi'
        rw [ih h hi, mem_remaining, ← Bool.not_eq_true, sameComponent_reachability]
        constructor
        · rintro ⟨⟨hj, -⟩, hij⟩
          exact ⟨List.mem_cons_of_mem k hj, hij⟩
        · rintro ⟨hj, hij⟩
          have hkj : ¬ SameComponent (Joins edge) k j := fun hkj => hi'.2 (hkj.trans hij.symm)
          rcases List.mem_cons.mp hj with rfl | hj
          · exact absurd (.refl _) hkj
          · exact ⟨⟨hj, hkj⟩, hij⟩

theorem pairwise_disjoint_componentsOf (reach : Table n) (hreach : reach = reachability edge)
    (pending : List (Fin n)) : (componentsOf reach pending).Pairwise List.Disjoint := by
  subst hreach
  fun_induction componentsOf (reachability edge) pending with
  | case1 => exact .nil
  | case2 k pending ih =>
      refine List.pairwise_cons.mpr ⟨?_, ih⟩
      intro members hmembers i hk hi
      have hout := ((mem_componentsOf hmembers hi i).mp hi).1
      rw [mem_remaining, ← Bool.not_eq_true] at hout
      rcases List.mem_cons.mp hk with rfl | hk
      · exact hout.2 (sameComponent_self _ i)
      · exact hout.2 (mem_taken.mp hk).2

theorem ne_nil_of_mem_componentsOf (reach : Table n) {pending members : List (Fin n)}
    (h : members ∈ componentsOf reach pending) : members ≠ [] := by
  fun_induction componentsOf reach pending with
  | case1 => simp at h
  | case2 k pending ih =>
      rcases List.mem_cons.mp h with rfl | h
      · exact List.cons_ne_nil _ _
      · exact ih h

/-- The listing by first vertices lists the components. -/
theorem isComponents_components (edge : Fin n → Fin n → Bool) :
    (components edge).IsComponents edge where
  disjoint := pairwise_disjoint_componentsOf _ rfl _
  ne_nil _ h := ne_nil_of_mem_componentsOf _ h
  mem_iff members h i hi j := by
    rw [mem_componentsOf h hi]
    exact and_iff_right (List.mem_finRange j)

end Graph

end SourceAtlas
