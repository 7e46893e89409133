import Mathlib.Data.List.Induction
import Mathlib.Data.List.Nodup
import SourceAtlas.Tree.Order
/-!
# Stable sorting

Where a comparison is a total preorder on the elements of a list (`TotalPreorderOn`), sorting
gives the one rearrangement of the list that is in order and in which elements that compare
equal keep the order they had (`TotalPreorderOn.arranges_iff`). A list in order stays as it is
(`stableSort_eq_self`).
-/

namespace SourceAtlas

variable {α : Type} {cmp : α → α → Ordering} {a b c : α} {as bs cs : List α}

/-- A comparison is a total preorder on some elements: of any two it says the same from both
sides, and what is at most something is at most all that this is at most. -/
structure TotalPreorderOn (cmp : α → α → Ordering) (as : List α) : Prop where
  swap : ∀ a ∈ as, ∀ b ∈ as, cmp b a = (cmp a b).swap
  trans : ∀ a ∈ as, ∀ b ∈ as, ∀ c ∈ as,
    (cmp a b).isLE = true → (cmp b c).isLE = true → (cmp a c).isLE = true

/-- A list is a rearrangement of another one that is in order and keeps the order of elements
that compare equal. -/
structure Arranges (cmp : α → α → Ordering) (as bs : List α) : Prop where
  perm : bs.Perm as
  ordered : bs.Pairwise fun a b => (cmp a b).isLE = true
  stable : ∀ a b, [a, b].Sublist as → cmp a b = .eq → [a, b].Sublist bs

namespace TotalPreorderOn

/-- Of any two elements one is at most the other: it is, unless the other comes first. -/
theorem isLE_iff (h : TotalPreorderOn cmp as) (ha : a ∈ as) (hb : b ∈ as) :
    (cmp a b).isLE = true ↔ cmp b a ≠ .lt := by
  rw [h.swap a ha b hb]
  cases cmp a b <;> decide

theorem perm (h : TotalPreorderOn cmp as) (hperm : bs.Perm as) : TotalPreorderOn cmp bs where
  swap a ha b hb := h.swap a (hperm.mem_iff.mp ha) b (hperm.mem_iff.mp hb)
  trans a ha b hb c hc :=
    h.trans a (hperm.mem_iff.mp ha) b (hperm.mem_iff.mp hb) c (hperm.mem_iff.mp hc)

end TotalPreorderOn

/-! ## Inserting -/

theorem stableSort_concat (cmp : α → α → Ordering) (as : List α) (a : α) :
    stableSort cmp (as ++ [a]) = (insertLast cmp a (stableSort cmp as).reverse).reverse := by
  rw [stableSort, stableSort, List.foldl_append, List.reverse_reverse]
  rfl

theorem sublist_insertLast (cmp : α → α → Ordering) (a : α) (bs : List α) :
    bs.Sublist (insertLast cmp a bs) := by
  induction bs with
  | nil => exact List.nil_sublist _
  | cons b bs ih =>
      rw [insertLast]
      split
      · exact ih.cons_cons b
      · exact List.sublist_cons_self a (b :: bs)

/-- What an element does not come before, it goes behind. The list is given last one first. -/
theorem pair_sublist_insertLast (hb : b ∈ bs) (hab : cmp a b ≠ .lt) :
    [a, b].Sublist (insertLast cmp a bs) := by
  induction bs with
  | nil => cases hb
  | cons c bs ih =>
      rw [insertLast]
      split
      · next hlt =>
          have hne : b ≠ c := by
            rintro rfl
            exact hab hlt
          exact (ih ((List.mem_cons.mp hb).resolve_left hne)).cons c
      · exact (List.singleton_sublist.mpr hb).cons_cons a

/-- A list in order stays as it is. -/
theorem stableSort_eq_self (h : as.Pairwise fun a b => cmp b a ≠ .lt) :
    stableSort cmp as = as := by
  induction as using List.reverseRecOn with
  | nil => rfl
  | append_singleton as a ih =>
      obtain ⟨has, -, ha⟩ := List.pairwise_append.mp h
      have hlast : insertLast cmp a as.reverse = a :: as.reverse := by
        cases hrev : as.reverse with
        | nil => rfl
        | cons b bs =>
            have hb : b ∈ as := List.mem_reverse.mp (hrev ▸ List.mem_cons_self)
            rw [insertLast]
            split
            · next hlt => exact absurd hlt (ha b hb a (List.mem_singleton_self a))
            · rfl
      rw [stableSort_concat, ih has, hlast, List.reverse_cons, List.reverse_reverse]

/-! ## Sorting -/

/-- An element stays behind what it does not come before. -/
theorem pair_sublist_stableSort (hab : [a, b].Sublist as) (hcmp : cmp b a ≠ .lt) :
    [a, b].Sublist (stableSort cmp as) := by
  induction as using List.reverseRecOn with
  | nil => cases hab
  | append_singleton as c ih =>
      rw [stableSort_concat, ← List.reverse_sublist, List.reverse_reverse]
      obtain ⟨before, last, heq, hbefore, hlast⟩ := List.sublist_append_iff.mp hab
      rcases List.sublist_singleton.mp hlast with rfl | rfl
      · rw [List.append_nil] at heq
        exact (List.reverse_sublist.mpr (ih (heq ▸ hbefore))).trans (sublist_insertLast cmp c _)
      · have heq : [a] ++ [b] = before ++ [c] := heq
        obtain ⟨rfl, hlast⟩ := List.append_inj' heq rfl
        obtain rfl : b = c := List.singleton_inj.mp hlast
        refine pair_sublist_insertLast (List.mem_reverse.mpr ?_) hcmp
        exact (perm_stableSort cmp as).mem_iff.mpr (List.singleton_sublist.mp hbefore)

theorem TotalPreorderOn.pairwise_stableSort (h : TotalPreorderOn cmp as) :
    (stableSort cmp as).Pairwise fun a b => (cmp a b).isLE = true := by
  let le (a b : α) : Prop := a ∈ as ∧ b ∈ as ∧ (cmp a b).isLE = true
  have htrans : ∀ a b c, le a b → le b c → le a c := by
    rintro a b c ⟨ha, hb, hab⟩ ⟨-, hc, hbc⟩
    exact ⟨ha, hc, h.trans a ha b hb c hc hab hbc⟩
  have hsorted : (stableSort cmp as).Pairwise le := by
    refine SourceAtlas.pairwise_stableSort htrans ?_ ?_
    · intro a ha b hb hlt
      exact ⟨ha, hb, by rw [hlt]; rfl⟩
    · exact fun a ha b hb hge => ⟨hb, ha, (h.isLE_iff hb ha).mpr hge⟩
  exact hsorted.imp fun hab => hab.2.2

theorem TotalPreorderOn.arranges_stableSort (h : TotalPreorderOn cmp as) :
    Arranges cmp as (stableSort cmp as) where
  perm := perm_stableSort cmp as
  ordered := h.pairwise_stableSort
  stable a b hab hcmp := by
    refine pair_sublist_stableSort hab ?_
    refine (h.isLE_iff (hab.subset (by simp)) (hab.subset (by simp))).mp ?_
    rw [hcmp]
    rfl

/-! ## Only one arrangement -/

/-- Of two elements of a list one stands before the other. -/
theorem pair_sublist_or (ha : a ∈ as) (hb : b ∈ as) (hne : a ≠ b) :
    [a, b].Sublist as ∨ [b, a].Sublist as := by
  obtain ⟨before, after, rfl⟩ := List.append_of_mem ha
  rcases List.mem_append.mp hb with hb | hb
  · have hleft : [b].Sublist before := List.singleton_sublist.mpr hb
    exact .inr (hleft.append (List.singleton_sublist.mpr List.mem_cons_self))
  · have hafter : b ∈ after := (List.mem_cons.mp hb).resolve_left hne.symm
    exact .inl (((List.singleton_sublist.mpr hafter).cons_cons a).trans
      (List.sublist_append_right before (a :: after)))

/-- In a list without repetitions only one of them does. -/
theorem not_pair_sublist (hnodup : as.Nodup) (hab : [a, b].Sublist as) :
    ¬ [b, a].Sublist as := by
  intro hba
  induction as with
  | nil => cases hab
  | cons c as ih =>
      obtain ⟨hc, hnodup⟩ := List.nodup_cons.mp hnodup
      cases hab with
      | cons _ hab =>
          cases hba with
          | cons _ hba => exact ih hnodup hab hba
          | cons_cons _ hba => exact hc (hab.subset (by simp))
      | cons_cons _ hab =>
          cases hba with
          | cons _ hba => exact hc (hba.subset (by simp))
          | cons_cons _ hba => exact hc (hab.subset (by simp))

/-- Elements of an arrangement stand as the comparison says, and where it says that they are
equal as they stood. -/
theorem Arranges.pairwise (h : Arranges cmp as bs) (hcmp : TotalPreorderOn cmp as)
    (hnodup : as.Nodup) :
    bs.Pairwise fun a b => cmp a b = .lt ∨ cmp a b = .eq ∧ [a, b].Sublist as := by
  have hbs : bs.Nodup := h.perm.nodup_iff.mpr hnodup
  refine List.pairwise_iff_forall_sublist.mpr fun {a b} hab => ?_
  have ha : a ∈ as := h.perm.mem_iff.mp (hab.subset (by simp))
  have hb : b ∈ as := h.perm.mem_iff.mp (hab.subset (by simp))
  have hle := List.pairwise_iff_forall_sublist.mp h.ordered hab
  cases heq : cmp a b with
  | lt => exact .inl rfl
  | gt => rw [heq] at hle; cases hle
  | eq =>
      have hne : a ≠ b := by
        rintro rfl
        exact not_pair_sublist hbs hab hab
      refine .inr ⟨rfl, (pair_sublist_or ha hb hne).resolve_right fun hba => ?_⟩
      refine not_pair_sublist hbs hab (h.stable b a hba ?_)
      rw [hcmp.swap a ha b hb, heq]
      rfl

theorem TotalPreorderOn.arranges_unique (h : TotalPreorderOn cmp as) (hnodup : as.Nodup)
    (hbs : Arranges cmp as bs) (hcs : Arranges cmp as cs) : bs = cs := by
  refine List.Perm.eq_of_pairwise ?_ (hbs.pairwise h hnodup) (hcs.pairwise h hnodup)
    (hbs.perm.trans hcs.perm.symm)
  intro a b ha hb hab hba
  have hswap := h.swap a (hbs.perm.mem_iff.mp ha) b (hcs.perm.mem_iff.mp hb)
  rcases hab with hab | ⟨hab, hsub⟩
  · rw [hab] at hswap
    rcases hba with hba | ⟨hba, -⟩ <;> rw [hba] at hswap <;> cases hswap
  · rw [hab] at hswap
    rcases hba with hba | ⟨-, hsub'⟩
    · rw [hba] at hswap
      cases hswap
    · exact absurd hsub' (not_pair_sublist hnodup hsub)

/-- Sorting gives the arrangement of a list, and there is no other one. -/
theorem TotalPreorderOn.arranges_iff (h : TotalPreorderOn cmp as) (hnodup : as.Nodup) :
    Arranges cmp as bs ↔ bs = stableSort cmp as := by
  constructor
  · exact fun hbs => h.arranges_unique hnodup hbs h.arranges_stableSort
  · rintro rfl
    exact h.arranges_stableSort

/-- Sorting what is sorted changes nothing. -/
theorem TotalPreorderOn.stableSort_stableSort (h : TotalPreorderOn cmp as) :
    stableSort cmp (stableSort cmp as) = stableSort cmp as := by
  have hsorted := h.perm (perm_stableSort cmp as)
  exact stableSort_eq_self <| h.pairwise_stableSort.imp_of_mem fun ha hb hab =>
    (hsorted.isLE_iff ha hb).mp hab

end SourceAtlas
