import Mathlib.Data.List.ReduceOption
import SourceAtlas.Tree.Order
/-!
# The criteria of the order

A criterion that is missing on one side decides nothing, so the order of measures is not
transitive as it stands. Between artifacts that have the same criteria (`SameCriteria`) it
compares the lists of the values they have (`order_eq_compareLex`), where the values of the last
three criteria are turned round because the greatest one comes first. That is the lexicographic
comparison of lists, and with it the order is transitive (`isLE_order_trans`).
-/

namespace SourceAtlas

namespace Metrics

variable {a b c : Metrics}

/-- Two artifacts have values for the same criteria. -/
structure SameCriteria (a b : Metrics) : Prop where
  component : a.componentNumber.isSome = b.componentNumber.isSome
  incoming : a.incomingDependenciesInScope.isSome = b.incomingDependenciesInScope.isSome
  scope : a.dependencyDifferenceScope.isSome = b.dependencyDifferenceScope.isSome
  external : a.dependencyDifferenceExternal.isSome = b.dependencyDifferenceExternal.isSome
  lines : a.linesOfCode.isSome = b.linesOfCode.isSome

theorem SameCriteria.trans (hab : SameCriteria a b) (hbc : SameCriteria b c) :
    SameCriteria a c where
  component := hab.component.trans hbc.component
  incoming := hab.incoming.trans hbc.incoming
  scope := hab.scope.trans hbc.scope
  external := hab.external.trans hbc.external
  lines := hab.lines.trans hbc.lines

/-- The values there are for the criteria, in their order. Where the greatest value comes first
it is turned round. -/
def ranks (m : Metrics) : List Int :=
  [m.componentNumber.map Int.ofNat, m.incomingDependenciesInScope.map Int.ofNat,
    m.dependencyDifferenceScope.map fun d => -d, m.dependencyDifferenceExternal.map fun d => -d,
    m.linesOfCode.map fun n => -Int.ofNat n].reduceOption

/-! ## One criterion -/

theorem swap_ascending {α : Type} [Ord α] [Std.OrientedOrd α] (m n : Option α) :
    (ascending m n).swap = ascending n m := by
  cases m with
  | none => cases n <;> rfl
  | some m =>
      cases n with
      | none => rfl
      | some n => exact Std.OrientedOrd.eq_swap.symm

theorem ascending_map {α : Type} [Ord α] {f : α → Int}
    (hf : ∀ m n, compare (f m) (f n) = compare m n) (m n : Option α) :
    ascending (m.map f) (n.map f) = ascending m n := by
  cases m with
  | none => cases n <;> rfl
  | some m =>
      cases n with
      | none => rfl
      | some n => exact hf m n

/-- Turned round, the values are compared with the greater one first. -/
theorem ascending_map_eq_descending {α : Type} [Ord α] {f : α → Int}
    (hf : ∀ m n, compare (f m) (f n) = compare n m) (m n : Option α) :
    ascending (m.map f) (n.map f) = descending m n := by
  cases m with
  | none => cases n <;> rfl
  | some m =>
      cases n with
      | none => rfl
      | some n => exact hf m n

theorem compare_ofNat (m n : Nat) : compare (Int.ofNat m) (Int.ofNat n) = compare m n := by
  simp only [compare, compareOfLessAndEq, Int.ofNat_eq_natCast, Int.ofNat_lt, Int.ofNat_inj]

theorem compare_neg (m n : Int) : compare (-m) (-n) = compare n m := by
  simp only [compare, compareOfLessAndEq, Int.neg_lt_neg_iff, Int.neg_inj, eq_comm]

theorem compare_neg_ofNat (m n : Nat) :
    compare (-Int.ofNat m) (-Int.ofNat n) = compare n m := by
  rw [compare_neg, compare_ofNat]

/-- A value on both sides is compared before the others, and one that is missing on both sides
leaves them. -/
theorem compareLex_reduceOption_cons {m n : Option Int} (h : m.isSome = n.isSome)
    (ms ns : List (Option Int)) :
    List.compareLex compare (m :: ms).reduceOption (n :: ns).reduceOption =
      (ascending m n).then (List.compareLex compare ms.reduceOption ns.reduceOption) := by
  cases m with
  | none =>
      cases n with
      | none => rfl
      | some n => cases h
  | some m =>
      cases n with
      | none => cases h
      | some n =>
          rw [List.reduceOption_cons_of_some, List.reduceOption_cons_of_some]
          exact List.compareLex_cons_cons

/-! ## All criteria -/

/-- The order says the same from both sides. -/
theorem swap_order (a b : Metrics) : (a.order b).swap = b.order a := by
  simp only [order, descending, Ordering.swap_then, swap_ascending]

theorem order_eq_compareLex (h : SameCriteria a b) :
    a.order b = List.compareLex compare a.ranks b.ranks := by
  obtain ⟨component, incoming, scope, external, lines⟩ := h
  rw [ranks, ranks, compareLex_reduceOption_cons (by simpa using component),
    compareLex_reduceOption_cons (by simpa using incoming),
    compareLex_reduceOption_cons (by simpa using scope),
    compareLex_reduceOption_cons (by simpa using external),
    compareLex_reduceOption_cons (by simpa using lines), List.reduceOption_nil,
    List.compareLex_nil_nil, Ordering.then_eq, ascending_map compare_ofNat,
    ascending_map compare_ofNat, ascending_map_eq_descending compare_neg,
    ascending_map_eq_descending compare_neg, ascending_map_eq_descending compare_neg_ofNat]
  rfl

theorem isLE_order_trans (hab : SameCriteria a b) (hbc : SameCriteria b c)
    (hle : (a.order b).isLE = true) (hle' : (b.order c).isLE = true) :
    (a.order c).isLE = true := by
  rw [order_eq_compareLex hab] at hle
  rw [order_eq_compareLex hbc] at hle'
  rw [order_eq_compareLex (hab.trans hbc)]
  exact Std.TransCmp.isLE_trans hle hle'

/-- Where one of two steps is strict, so is the way over both. -/
theorem order_eq_lt_of_isLE (hab : SameCriteria a b) (hbc : SameCriteria b c)
    (hle : (a.order b).isLE = true) (hle' : (b.order c).isLE = true)
    (hlt : a.order b = .lt ∨ b.order c = .lt) : a.order c = .lt := by
  rw [order_eq_compareLex hab] at hle hlt
  rw [order_eq_compareLex hbc] at hle' hlt
  rw [order_eq_compareLex (hab.trans hbc)]
  rcases hlt with hlt | hlt
  · exact Std.TransCmp.lt_of_lt_of_isLE hlt hle'
  · exact Std.TransCmp.lt_of_isLE_of_lt hle hlt

/-! ## Main statement -/

/-- Whatever is missing, the order says the same from both sides. Between artifacts with values
for the same criteria it is the lexicographic comparison of these values, the last three with
the greatest first, and so it is transitive, strictly where one of the steps is strict. -/
theorem order_compares_ranks :
    (∀ a b : Metrics, b.order a = (a.order b).swap) ∧
    ∀ a b c : Metrics, SameCriteria a b → SameCriteria b c →
      a.order b = List.compareLex compare a.ranks b.ranks ∧
      ((a.order b).isLE = true → (b.order c).isLE = true →
        (a.order c).isLE = true ∧ (a.order b = .lt ∨ b.order c = .lt → a.order c = .lt)) := by
  refine ⟨fun a b => (swap_order a b).symm, fun a b c hab hbc => ?_⟩
  refine ⟨order_eq_compareLex hab, fun hle hle' => ?_⟩
  exact ⟨isLE_order_trans hab hbc hle hle', order_eq_lt_of_isLE hab hbc hle hle'⟩

/-- Measures of an artifact of the component 1 with a balance within its scope and a size. -/
def balanced (difference : Int) (lines : Nat) : Metrics :=
  { Metrics.absent with
    componentNumber := some 1
    dependencyDifferenceScope := some difference
    linesOfCode := some lines }

/-- Three artifacts of one component: the balance decides before the size does, and the greatest
balance comes first. -/
theorem order_compares_ranks_balanced :
    (SameCriteria (balanced 2 5) (balanced 2 3) ∧ SameCriteria (balanced 2 3) (balanced (-1) 9)) ∧
      (balanced 2 5).ranks = [1, -2, -5] ∧ (balanced (-1) 9).ranks = [1, 1, -9] ∧
      (balanced 2 5).order (balanced 2 3) = List.compareLex compare [1, -2, -5] [1, -2, -3] ∧
      (balanced 2 5).order (balanced (-1) 9) = .lt ∧
      (balanced (-1) 9).order (balanced 2 5) = .gt := by
  have hab : SameCriteria (balanced 2 5) (balanced 2 3) := ⟨rfl, rfl, rfl, rfl, rfl⟩
  have hbc : SameCriteria (balanced 2 3) (balanced (-1) 9) := ⟨rfl, rfl, rfl, rfl, rfl⟩
  obtain ⟨hswap, hsame⟩ := order_compares_ranks
  obtain ⟨hlex, htrans⟩ := hsame _ _ _ hab hbc
  have hlt := (htrans (by decide) (by decide)).2 (.inl (by decide))
  exact ⟨⟨hab, hbc⟩, by decide, by decide, hlex, hlt, by rw [hswap, hlt]; rfl⟩

/-- Where the component is missing in between, the order goes round in a circle. -/
example : ∃ a b c : Metrics, a.order b = .lt ∧ b.order c = .lt ∧ c.order a = .lt :=
  ⟨{ Metrics.absent with componentNumber := some 2, linesOfCode := some 30 },
    { Metrics.absent with linesOfCode := some 20 },
    { Metrics.absent with componentNumber := some 1, linesOfCode := some 10 }, by decide⟩

end Metrics

end SourceAtlas
