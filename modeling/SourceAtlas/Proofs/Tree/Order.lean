import SourceAtlas.Proofs.StableSort
import SourceAtlas.Proofs.Tree.Components
/-!
# Sorted parts

The component number is the first criterion of the order, and all parts of a file or
a symbol have one once metrics are computed. So sorting puts them in the order of
their numbers (`WellFormed.pairwise_number_sort`), which keeps components together
and follows the dependencies between them.
-/

namespace SourceAtlas

namespace Metrics

/-- Where both numbers are known, none of the later criteria decides against them. -/
theorem number_le_of_order_eq_lt {a b : Metrics} {m n : Nat} (ha : a.componentNumber = some m)
    (hb : b.componentNumber = some n) (h : a.order b = .lt) : m ≤ n := by
  rw [order, ha, hb, ascending, Ordering.then_eq_lt] at h
  rcases h with hlt | ⟨heq, -⟩
  · exact (Nat.compare_eq_lt.mp hlt).le
  · exact (Nat.compare_eq_eq.mp heq).le

theorem number_le_of_order_ne_lt {a b : Metrics} {m n : Nat} (ha : a.componentNumber = some m)
    (hb : b.componentNumber = some n) (h : a.order b ≠ .lt) : n ≤ m := by
  rw [order, ha, hb, ascending, ne_eq, Ordering.then_eq_lt, not_or] at h
  exact Nat.not_lt.mp fun hlt => h.1 (Nat.compare_eq_lt.mpr hlt)

end Metrics

open SourceAtlas.Graph Relation

namespace Tree

variable {t : Tree} {choices : Nat → Graph.Choices} {s : Nat}

/-- All parts of files and symbols are symbols. -/
theorem WellFormed.symbolParts_eq (h : t.WellFormed)
    (hs : t.isFile s = true ∨ t.isSymbol s = true) : t.symbolParts s = t.parts s := by
  refine List.filter_eq_self.mpr fun p hp => ?_
  exact h.isSymbol_of_scope p s ((h.mem_parts_iff s p).mp hp) hs

theorem mem_symbolParts_sort {a : Nat} : a ∈ t.sort.symbolParts s ↔ a ∈ t.symbolParts s := by
  rw [mem_symbolParts, mem_symbolParts, isSymbol_congr (origin?_sort t a), parts_sort,
    (perm_stableSort t.order (t.parts s)).mem_iff]

theorem siblingEdge_sort (t : Tree) (s : Nat) : t.sort.SiblingEdge s = t.SiblingEdge s := by
  funext a b
  rw [SiblingEdge, SiblingEdge, mem_symbolParts_sort, mem_symbolParts_sort, links_sort]

/-- Computing metrics and sorting puts the parts of a file or a symbol in the order of
their component numbers. -/
theorem WellFormed.pairwise_number_sort (choices : Nat → Graph.Choices) (h : t.WellFormed)
    (hs : t.isFile s = true ∨ t.isSymbol s = true) :
    ((t.measureAllWith choices).sort.parts s).Pairwise fun a b =>
      (t.measureAllWith choices).number a ≤ (t.measureAllWith choices).number b := by
  rw [parts_sort, parts_measureAllWith, ← h.symbolParts_eq hs]
  have htrans : ∀ a b c, (t.measureAllWith choices).number a ≤ (t.measureAllWith choices).number b →
      (t.measureAllWith choices).number b ≤ (t.measureAllWith choices).number c →
      (t.measureAllWith choices).number a ≤ (t.measureAllWith choices).number c :=
    fun _ _ _ => Nat.le_trans
  refine pairwise_stableSort htrans ?_ ?_
  · intro a ha b hb hlt
    exact Metrics.number_le_of_order_eq_lt (h.componentNumber_eq ha) (h.componentNumber_eq hb) hlt
  · intro a ha b hb hge
    exact Metrics.number_le_of_order_ne_lt (h.componentNumber_eq ha) (h.componentNumber_eq hb) hge

/-- Sorting only rearranges the symbols among the parts of a file or a symbol. -/
theorem WellFormed.mem_parts_sort (choices : Nat → Graph.Choices) (h : t.WellFormed)
    (hs : t.isFile s = true ∨ t.isSymbol s = true) (a : Nat) :
    a ∈ (t.measureAllWith choices).sort.parts s ↔ a ∈ t.symbolParts s := by
  rw [parts_sort, (perm_stableSort _ _).mem_iff, parts_measureAllWith, h.symbolParts_eq hs]

/-- A symbol with a lower number stands before one with a higher number. -/
theorem WellFormed.pair_sublist_sort (h : t.WellFormed)
    (hs : t.isFile s = true ∨ t.isSymbol s = true) {a b : Nat} (ha : a ∈ t.symbolParts s)
    (hb : b ∈ t.symbolParts s)
    (hlt : (t.measureAllWith choices).number a < (t.measureAllWith choices).number b) :
    [a, b].Sublist ((t.measureAllWith choices).sort.parts s) := by
  have hne : a ≠ b := fun heq => (heq ▸ hlt).false
  have ha' := (h.mem_parts_sort choices hs a).mpr ha
  have hb' := (h.mem_parts_sort choices hs b).mpr hb
  refine (pair_sublist_or ha' hb' hne).resolve_right fun hba => ?_
  have hle := List.pairwise_pair.mp ((h.pairwise_number_sort choices hs).sublist hba)
  exact Nat.not_lt.mpr hle hlt

/-! ## Main statement -/

/-- Computing metrics and then sorting lists the members of every component one after
another, and every symbol before those that it reaches outside its component. -/
theorem sort_follows_dependencies {f : Folder} {cs : List Change} (h : History f cs t)
    (hcs : Change.computeMetrics ∉ cs) (hchoices : ∀ s, (choices s).Lawful) :
    ∃ t', t.computeMetricsWith choices = .ok t' ∧
      ∀ s, t'.sort.isFile s = true ∨ t'.sort.isSymbol s = true →
        (t'.sort.parts s).Perm (t.parts s) ∧
        (∀ a b c, [a, b, c].Sublist (t'.sort.parts s) →
          SameComponent (t'.sort.SiblingEdge s) a c → SameComponent (t'.sort.SiblingEdge s) a b) ∧
        (∀ a b, t'.sort.SiblingEdge s a b → ¬ SameComponent (t'.sort.SiblingEdge s) a b →
          [a, b].Sublist (t'.sort.parts s)) ∧
        ∀ a b, TransGen (t'.sort.SiblingEdge s) a b → ¬ TransGen (t'.sort.SiblingEdge s) b a →
          [a, b].Sublist (t'.sort.parts s) := by
  have hwf := h.wellFormed
  refine ⟨t.measureAllWith choices, h.computeMetricsWith_eq_ok hcs choices, fun s hs => ?_⟩
  rw [isFile_congr (origin?_sort _ s), isSymbol_congr (origin?_sort _ s),
    isFile_congr (origin?_measureAllWith choices t s),
    isSymbol_congr (origin?_measureAllWith choices t s)] at hs
  rw [siblingEdge_sort, siblingEdge_measureAllWith]
  have horder := hwf.sourceOrder_number (hchoices s)
  refine ⟨?_, ?_, ?_, ?_⟩
  · rw [parts_sort, parts_measureAllWith]
    exact perm_stableSort _ _
  · intro a b c hsub hac
    have hin : ∀ x ∈ [a, b, c], x ∈ t.symbolParts s := fun x hx =>
      (hwf.mem_parts_sort choices hs x).mp (hsub.subset hx)
    have hsorted := (hwf.pairwise_number_sort choices hs).sublist hsub
    simp only [List.pairwise_cons, List.mem_cons, forall_eq_or_imp] at hsorted
    exact horder.sameComponent_of_le_of_le (hin a (by simp)) (hin b (by simp)) (hin c (by simp))
      hsorted.1.1 hsorted.2.1.1 hac
  · intro a b hab hne
    exact hwf.pair_sublist_sort hs hab.1 hab.2.1 (horder.number_lt a b hab hne)
  · intro a b hab hba
    obtain ⟨x, hax, -⟩ := TransGen.head'_iff.mp hab
    obtain ⟨y, -, hyb⟩ := TransGen.tail'_iff.mp hab
    exact hwf.pair_sublist_sort hs hax.1 hyb.2.1
      (horder.number_lt_of_transGen (fun _ _ => SiblingEdge.mem) hab hba)

/-- The two functions that call each other come last, the one with fewer callers first. -/
theorem sort_follows_dependencies_smallTree :
    ∃ t', smallTree.computeMetricsWith (fun _ => .standard) = .ok t' ∧
      t'.sort.parts 1 = [4, 5, 3, 2] ∧
      (∀ a b c, [a, b, c].Sublist (t'.sort.parts 1) →
        SameComponent (t'.sort.SiblingEdge 1) a c → SameComponent (t'.sort.SiblingEdge 1) a b) ∧
      ∀ a b, t'.sort.SiblingEdge 1 a b → ¬ SameComponent (t'.sort.SiblingEdge 1) a b →
        [a, b].Sublist (t'.sort.parts 1) := by
  have hsmall : History smallFolder smallChanges smallTree := history_run (by decide +kernel)
  have hcs : Change.computeMetrics ∉ smallChanges := by simp [smallChanges]
  obtain ⟨t', hok, h⟩ := sort_follows_dependencies hsmall hcs fun _ => lawful_standard
  obtain rfl : smallTree.measureAllWith (fun _ => .standard) = t' :=
    Except.ok.inj ((hsmall.computeMetricsWith_eq_ok hcs _).symm.trans hok)
  have hfile : (smallTree.measureAllWith fun _ => .standard).sort.isFile 1 = true := by
    rw [isFile_congr (origin?_sort _ 1)]
    decide +kernel
  have hparts : (smallTree.measureAllWith fun _ => .standard).sort.parts 1 = [4, 5, 3, 2] := by
    rw [parts_sort]
    decide +kernel
  obtain ⟨-, htogether, hedge, -⟩ := h 1 (.inl hfile)
  exact ⟨_, hok, hparts, htogether, hedge⟩

end Tree

end SourceAtlas
