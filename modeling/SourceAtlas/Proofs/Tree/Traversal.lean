import Mathlib.Data.List.Flatten
import SourceAtlas.Proofs.StableSort
import SourceAtlas.Proofs.Tree.Postorder
/-!
# Traversals

Containment is read off the scopes and a walk follows the parts. A traversal of an artifact is
said by containment alone (`Traverses`): everything in the artifact once, what is below another
artifact before it, and what is in an earlier part before what is in a later one. Any two
artifacts below a third one are ordered by that (`WellFormed.contains_or_branch`), so there is
one traversal, and the walk is it: `WellFormed.traverses_iff`.

The files and the symbols of a tree are those that the walk from the root comes to.
-/

namespace SourceAtlas

namespace Tree

variable {t : Tree} {a b p s x y : Nat} {ids ids' : List Nat}

/-- A list goes through an artifact and everything in it, parts first and in their order. -/
structure Traverses (t : Tree) (a : Nat) (ids : List Nat) : Prop where
  mem_iff : ∀ b, b ∈ ids ↔ t.contains a b = true
  nodup : ids.Nodup
  below_first : ∀ b c, t.contains a b = true → t.contains b c = true → b ≠ c →
    [c, b].Sublist ids
  parts_in_order : ∀ s p q, t.contains a s = true → [p, q].Sublist (t.parts s) →
    ∀ x y, t.contains p x = true → t.contains q y = true → [x, y].Sublist ids

theorem WellFormed.lt_size_of_contains (h : t.WellFormed) (ha : a < t.size)
    (hab : t.contains a b = true) : b < t.size := by
  rcases Relation.ReflTransGen.cases_head_iff.mp (h.contains_iff.mp hab) with rfl | ⟨s, hs, -⟩
  · exact ha
  · exact lt_size_of_scopeOf? hs

/-! ## The walk is a traversal -/

/-- The walk from an artifact is a stretch of the walk from whatever contains it. -/
theorem WellFormed.walk_infix (h : t.WellFormed) (hab : t.contains a b = true) :
    t.walk b <:+: t.walk a := by
  induction a using h.wellFounded_parts.induction with
  | _ a ih =>
      rcases h.contains_iff_parts.mp hab with rfl | ⟨p, hp, hpb⟩
      · exact List.infix_rfl
      · have hpart : t.walk p <:+: (t.parts a).flatMap t.walk := List.infix_flatMap_of_mem hp t.walk
        rw [h.walk_eq a]
        exact (ih p hp hpb).trans (hpart.trans (List.prefix_append _ _).isInfix)

theorem WellFormed.traverses_walk (h : t.WellFormed) (a : Nat) : t.Traverses a (t.walk a) where
  mem_iff _ := h.mem_walk_iff
  nodup := h.nodup_walk a
  below_first b c hab hbc hne := by
    obtain ⟨p, hp, hpc⟩ := h.exists_part_contains hbc hne
    have hc : c ∈ (t.parts b).flatMap t.walk := List.mem_flatMap.mpr ⟨p, hp, h.mem_walk_iff.mpr hpc⟩
    have hwalk : [c, b].Sublist (t.walk b) := by
      rw [h.walk_eq b]
      exact (List.singleton_sublist.mpr hc).append (List.Sublist.refl [b])
    exact hwalk.trans (h.walk_infix hab).sublist
  parts_in_order s p q has hpq x y hpx hqy := by
    have hx : [x].Sublist (t.walk p) := List.singleton_sublist.mpr (h.mem_walk_iff.mpr hpx)
    have hy : [y].Sublist (t.walk q) := List.singleton_sublist.mpr (h.mem_walk_iff.mpr hqy)
    have hparts : [x, y].Sublist ([p, q].flatMap t.walk) := by
      rw [List.flatMap_cons, List.flatMap_singleton]
      exact hx.append hy
    have hwalk : ((t.parts s).flatMap t.walk).Sublist (t.walk s) := by
      rw [h.walk_eq s]
      exact List.sublist_append_left _ _
    exact (hparts.trans (hpq.flatMap t.walk)).trans (hwalk.trans (h.walk_infix has).sublist)

/-! ## There is one traversal -/

/-- Of two artifacts below a third one, one contains the other, or they are in different parts
of one artifact. -/
theorem WellFormed.contains_or_branch (h : t.WellFormed) (hx : t.contains a x = true)
    (hy : t.contains a y = true) :
    t.contains x y = true ∨ t.contains y x = true ∨
      ∃ s, t.contains a s = true ∧ ∃ p ∈ t.parts s, ∃ q ∈ t.parts s, p ≠ q ∧
        t.contains p x = true ∧ t.contains q y = true := by
  induction a using h.wellFounded_parts.induction with
  | _ a ih =>
      rcases h.contains_iff_parts.mp hx with rfl | ⟨p, hp, hpx⟩
      · exact .inl hy
      rcases h.contains_iff_parts.mp hy with rfl | ⟨q, hq, hqy⟩
      · exact .inr (.inl hx)
      by_cases hpq : p = q
      · subst hpq
        refine (ih p hp hpx hqy).imp_right (Or.imp_right ?_)
        rintro ⟨s, hps, hbranch⟩
        exact ⟨s, h.contains_trans (h.contains_of_mem_parts hp) hps, hbranch⟩
      · exact .inr (.inr ⟨a, h.contains_self a, p, hp, q, hq, hpq, hpx, hqy⟩)

/-- All traversals of an artifact agree on which of two artifacts comes first. -/
theorem Traverses.pair_sublist (h : t.WellFormed) (hids : t.Traverses a ids)
    (hids' : t.Traverses a ids') (hxy : [x, y].Sublist ids') : [x, y].Sublist ids := by
  have hx : t.contains a x = true := (hids'.mem_iff x).mp (hxy.subset (by simp))
  have hy : t.contains a y = true := (hids'.mem_iff y).mp (hxy.subset (by simp))
  have hyx : ¬ [y, x].Sublist ids' := not_pair_sublist hids'.nodup hxy
  have hne : x ≠ y := by
    rintro rfl
    exact hyx hxy
  rcases h.contains_or_branch hx hy with hcontains | hcontains | hbranch
  · exact absurd (hids'.below_first x y hx hcontains hne) hyx
  · exact hids.below_first y x hy hcontains hne.symm
  · obtain ⟨s, has, p, hp, q, hq, hpq, hpx, hqy⟩ := hbranch
    rcases pair_sublist_or hp hq hpq with hsub | hsub
    · exact hids.parts_in_order s p q has hsub x y hpx hqy
    · exact absurd (hids'.parts_in_order s q p has hsub y x hqy hpx) hyx

theorem Traverses.unique (h : t.WellFormed) (hids : t.Traverses a ids)
    (hids' : t.Traverses a ids') : ids = ids' := by
  have hperm : ids.Perm ids' := (List.perm_ext_iff_of_nodup hids.nodup hids'.nodup).mpr fun b => by
    rw [hids.mem_iff, hids'.mem_iff]
  have hpairs : ids.Pairwise fun x y => [x, y].Sublist ids :=
    List.pairwise_iff_forall_sublist.mpr id
  have hpairs' : ids'.Pairwise fun x y => [x, y].Sublist ids :=
    List.pairwise_iff_forall_sublist.mpr fun hxy => hids.pair_sublist h hids' hxy
  refine List.Perm.eq_of_pairwise (fun x y _ _ hxy hyx => ?_) hpairs hpairs' hperm
  exact absurd hyx (not_pair_sublist hids.nodup hxy)

/-- The walk is the traversal of an artifact. -/
theorem WellFormed.traverses_iff (h : t.WellFormed) : t.Traverses a ids ↔ ids = t.walk a := by
  constructor
  · exact fun hids => hids.unique h (h.traverses_walk a)
  · rintro rfl
    exact h.traverses_walk a

/-! ## Files and symbols -/

theorem WellFormed.mem_fileIds (h : t.WellFormed) : b ∈ t.fileIds ↔ t.isFile b = true := by
  rw [fileIds, List.mem_filter, h.mem_walk_iff, and_iff_right_iff_imp]
  exact fun hb => h.contains_root (lt_size_of_isFile hb)

theorem WellFormed.nodup_fileIds (h : t.WellFormed) : t.fileIds.Nodup :=
  (h.nodup_walk root).filter _

/-- A symbol comes after all symbols nested in it. -/
theorem WellFormed.pair_sublist_symbolIds (h : t.WellFormed) (hs : t.isSymbol s = true)
    (hsp : t.contains s p = true) (hne : s ≠ p) : [p, s].Sublist t.symbolIds := by
  have hp : t.isSymbol p = true := h.isSymbol_of_contains hsp hs
  have hroot : t.contains root s = true := h.contains_root (lt_size_of_isSymbol hs)
  have hwalk := ((h.traverses_walk root).below_first s p hroot hsp hne).filter t.isSymbol
  rwa [List.filter_cons_of_pos hp, List.filter_cons_of_pos hs] at hwalk

/-! ## Main statement -/

/-- In a tree with a history, sorted or not, containment is what a chain of scopes leads to. It
is a partial order in which any two artifacts around a third one are comparable, and the walk
from an artifact is its traversal. Therefore every file and every symbol is listed once, symbols
after those nested in them, and the walk from the root comes to every artifact there is. -/
theorem walk_is_the_traversal {f : Folder} {cs : List Change} (h : History f cs t) :
    (∀ a ids, t.Traverses a ids ↔ ids = t.walk a) ∧
    (∀ a < t.size, ∀ b ∈ t.walk a, b < t.size) ∧
    (∀ a b, t.contains a b = true ↔ Relation.ReflTransGen t.PartOf b a) ∧
    ((∀ a, t.contains a a = true) ∧
      (∀ a b, t.contains a b = true → t.contains b a = true → a = b) ∧
      (∀ a b c, t.contains a b = true → t.contains b c = true → t.contains a c = true) ∧
      ∀ a b c, t.contains a c = true → t.contains b c = true →
        t.contains a b = true ∨ t.contains b a = true) ∧
    ((∀ b, b ∈ t.fileIds ↔ t.isFile b = true) ∧ t.fileIds.Nodup) ∧
    ((∀ b, b ∈ t.symbolIds ↔ t.isSymbol b = true) ∧ t.symbolIds.Nodup ∧
      ∀ s p, t.isSymbol s = true → t.contains s p = true → s ≠ p → [p, s].Sublist t.symbolIds) ∧
    (t.walk root).Perm (List.range t.size) := by
  have hwf := h.wellFormed
  refine ⟨fun a ids => hwf.traverses_iff, fun a ha b hb => ?_, fun a b => hwf.contains_iff,
    ⟨hwf.contains_self, ?_, ?_, ?_⟩,
    ⟨fun b => hwf.mem_fileIds, hwf.nodup_fileIds⟩,
    ⟨fun b => hwf.mem_symbolIds, hwf.nodup_symbolIds, ?_⟩, hwf.perm_walk_root⟩
  · exact hwf.lt_size_of_contains ha (hwf.mem_walk_iff.mp hb)
  · exact fun a b hab hba => hwf.contains_antisymm hab hba
  · exact fun a b c hab hbc => hwf.contains_trans hab hbc
  · exact fun a b c hac hbc => hwf.contains_or_contains hac hbc
  · exact fun s p hs hsp hne => hwf.pair_sublist_symbolIds hs hsp hne

/-- In a tree that was sorted and then got one more function, this function is listed before
the one around it. -/
theorem walk_is_the_traversal_lateTree :
    History nestedFolder lateChanges lateTree ∧ lateTree.isSymbol 12 = true ∧
      lateTree.contains 12 13 = true ∧ [13, 12].Sublist lateTree.symbolIds ∧
      lateTree.Traverses 12 [13, 12] ∧ (lateTree.walk root).Perm (List.range 14) := by
  have hlate : History nestedFolder lateChanges lateTree := history_run (by decide +kernel)
  obtain ⟨hwalk, -, -, -, -, ⟨-, -, hnested⟩, hall⟩ := walk_is_the_traversal hlate
  have hsymbol : lateTree.isSymbol 12 = true := by decide +kernel
  have hcontains : lateTree.contains 12 13 = true := by decide +kernel
  have hwalk12 : [13, 12] = lateTree.walk 12 := by decide +kernel
  have hsize : lateTree.size = 14 := by decide +kernel
  rw [hsize] at hall
  exact ⟨hlate, hsymbol, hcontains, hnested 12 13 hsymbol hcontains (by decide),
    (hwalk 12 _).mpr hwalk12, hall⟩

end Tree

end SourceAtlas
