import SourceAtlas.Proofs.StableSort
import SourceAtlas.Proofs.Tree.Criteria
import SourceAtlas.Proofs.Tree.Cycles
/-!
# Sorting a tree

Where symbols hang below files and symbols only, the parts of one artifact are either all
symbols or none of them is. So once metrics are computed they all have the same criteria
(`WellFormed.sameCriteria`), and the order is a total preorder on them. Before that no artifact
has any criterion, and all compare equal (`History.order_eq`).

Either way sorting arranges the parts of every artifact, changes nothing else, and has nothing
left to do when it is done a second time.
-/

namespace SourceAtlas

namespace Tree

variable {t u : Tree} {choices : Nat → Graph.Choices} {a b s : Nat}

/-- Symbols hang below files and symbols only. -/
def SymbolsInFiles (t : Tree) : Prop :=
  ∀ p s, t.PartOf p s → t.isSymbol p = true → t.isFile s = true ∨ t.isSymbol s = true

theorem ext_get? (hget : ∀ i, t.get? i = u.get? i) (hfiles : t.files = u.files)
    (hmeasured : t.measured = u.measured) : t = u := by
  obtain ⟨as, files, measured⟩ := t
  obtain ⟨bs, files', measured'⟩ := u
  obtain rfl : as = bs := Array.ext_getElem? hget
  obtain rfl : files = files' := hfiles
  obtain rfl : measured = measured' := hmeasured
  rfl

/-! ## The same criteria -/

theorem WellFormed.isSymbol_eq_of_mem_parts (h : t.WellFormed) (hplaced : t.SymbolsInFiles)
    (ha : a ∈ t.parts s) (hb : b ∈ t.parts s) : t.isSymbol a = t.isSymbol b := by
  have spread {a b : Nat} (ha : a ∈ t.parts s) (hb : b ∈ t.parts s)
      (hsymbol : t.isSymbol a = true) : t.isSymbol b = true :=
    h.isSymbol_of_scope b s ((h.mem_parts_iff s b).mp hb)
      (hplaced a s ((h.mem_parts_iff s a).mp ha) hsymbol)
  exact Bool.eq_iff_iff.mpr ⟨spread ha hb, spread hb ha⟩

/-- Among the parts of an artifact the symbols have a component number. -/
theorem WellFormed.isSome_componentNumber (h : t.WellFormed) (ha : a ∈ t.parts s) :
    ((t.measureAllWith choices).metrics a).componentNumber.isSome = t.isSymbol a := by
  cases hsymbol : t.isSymbol a with
  | true => rw [h.componentNumber_eq (mem_symbolParts.mpr ⟨ha, hsymbol⟩), Option.isSome_some]
  | false => rw [componentNumber_eq_none hsymbol (h.lt_size_of_mem_parts ha), Option.isSome_none]

theorem WellFormed.sameCriteria (h : t.WellFormed) (hplaced : t.SymbolsInFiles)
    (ha : a ∈ t.parts s) (hb : b ∈ t.parts s) :
    Metrics.SameCriteria ((t.measureAllWith choices).metrics a)
      ((t.measureAllWith choices).metrics b) := by
  have hnumber : ((t.measureAllWith choices).metrics a).componentNumber.isSome =
      ((t.measureAllWith choices).metrics b).componentNumber.isSome := by
    rw [h.isSome_componentNumber ha, h.isSome_componentNumber hb,
      h.isSymbol_eq_of_mem_parts hplaced ha hb]
  rw [h.metrics_eq (h.lt_size_of_mem_parts ha),
    h.metrics_eq (h.lt_size_of_mem_parts hb)] at hnumber ⊢
  exact ⟨hnumber, rfl, rfl, rfl, rfl⟩

/-- Where the parts of an artifact have the same criteria the order is a total preorder on
them. -/
theorem totalPreorderOn_order
    (hsame : ∀ a ∈ t.parts s, ∀ b ∈ t.parts s, Metrics.SameCriteria (t.metrics a) (t.metrics b)) :
    TotalPreorderOn t.order (t.parts s) where
  swap a _ b _ := (Metrics.swap_order (t.metrics a) (t.metrics b)).symm
  trans a ha b hb c hc := Metrics.isLE_order_trans (hsame a ha b hb) (hsame b hb c hc)

/-! ## What sorting does -/

theorem order_sort (t : Tree) : t.sort.order = t.order := by
  funext a b
  rw [order, order, metrics_sort, metrics_sort]

/-- Sorting gives every artifact its parts in order and leaves the rest of it alone. -/
theorem get?_sort_eq (t : Tree) (i : Nat) :
    t.sort.get? i = (t.get? i).map fun a => { a with parts := t.sort.parts i } := by
  rw [get?_sort, parts_sort, parts]
  cases t.get? i <;> rfl

theorem sort_eq_self (h : ∀ s, stableSort t.order (t.parts s) = t.parts s) : t.sort = t := by
  refine ext_get? (fun i => ?_) rfl rfl
  rw [get?_sort]
  cases ha : t.get? i with
  | none => rfl
  | some a =>
      have hparts : t.parts i = a.parts := by rw [parts, ha]
      rw [Option.map_some, ← hparts, h i, hparts]

/-- Sorting a second time changes nothing. -/
theorem sort_sort (h : ∀ s, TotalPreorderOn t.order (t.parts s)) : t.sort.sort = t.sort := by
  refine sort_eq_self fun s => ?_
  rw [order_sort, parts_sort, (h s).stableSort_stableSort]

/-- Without metrics nothing comes before anything else. -/
theorem History.order_eq {f : Folder} {cs : List Change} (h : History f cs t)
    (hcs : Change.computeMetrics ∉ cs) (a b : Nat) : t.order a b = .eq := by
  rw [order, h.metrics_eq_absent hcs, h.metrics_eq_absent hcs]
  rfl

/-! ## Main statement -/

/-- In a tree whose symbols hang below files and symbols only, before its metrics are computed
or right after, the order is a total preorder on the parts of every artifact. Sorting gives
every artifact the one arrangement of its parts that is in order and leaves those that compare
equal as they were; without metrics all of them. It changes nothing else, and nothing at all
when it is done again. -/
theorem sort_arranges_parts {f : Folder} {cs : List Change} (h : History f cs t)
    (hplaced : t.SymbolsInFiles)
    (hu : Change.computeMetrics ∉ cs ∧ u = t ∨ t.computeMetricsWith choices = .ok u) :
    (∀ s, TotalPreorderOn u.order (u.parts s)) ∧
    (∀ s ps, Arranges u.order (u.parts s) ps ↔ ps = u.sort.parts s) ∧
    (u.measured = false → u.sort = u) ∧
    (∀ i, u.sort.get? i = (u.get? i).map fun a => { a with parts := u.sort.parts i }) ∧
    u.sort.files = u.files ∧ u.sort.measured = u.measured ∧ u.sort.sort = u.sort := by
  have hwf := h.wellFormed
  have hu : Change.computeMetrics ∉ cs ∧ u = t ∨ u = t.measureAllWith choices := by
    refine hu.imp_right fun hok => ?_
    rcases computeMetricsWith_cases choices t with ⟨-, herror⟩ | ⟨-, hmeasured⟩
    · rw [hok] at herror
      cases herror
    · exact Except.ok.inj (hok.symm.trans hmeasured)
  have hparts : ∀ s, u.parts s = t.parts s := by
    rcases hu with ⟨-, rfl⟩ | rfl
    · exact fun _ => rfl
    · exact parts_measureAllWith choices t
  have hsame : ∀ s, ∀ a ∈ u.parts s, ∀ b ∈ u.parts s,
      Metrics.SameCriteria (u.metrics a) (u.metrics b) := by
    intro s a ha b hb
    rw [hparts] at ha hb
    rcases hu with ⟨hcs, rfl⟩ | rfl
    · rw [h.metrics_eq_absent hcs, h.metrics_eq_absent hcs]
      exact ⟨rfl, rfl, rfl, rfl, rfl⟩
    · exact hwf.sameCriteria hplaced ha hb
  have hpreorder : ∀ s, TotalPreorderOn u.order (u.parts s) := fun s =>
    totalPreorderOn_order (hsame s)
  refine ⟨hpreorder, ?_, ?_, get?_sort_eq u, rfl, rfl, sort_sort hpreorder⟩
  · intro s ps
    rw [parts_sort]
    exact (hpreorder s).arranges_iff (hparts s ▸ hwf.nodup_parts s)
  · intro hmeasured
    rcases hu with ⟨hcs, rfl⟩ | rfl
    · refine sort_eq_self fun s => stableSort_eq_self (List.pairwise_of_forall fun a b => ?_)
      rw [h.order_eq hcs]
      decide
    · cases hmeasured

/-- Of the functions 7 and 8, which call each other, the one that calls another file too comes
first; 5 and 6 have the same measures and stay as they are. Before they were measured all
stayed. -/
theorem sort_arranges_parts_nestedTree :
    nestedTree.SymbolsInFiles ∧ nestedTree.sort = nestedTree ∧
      ∃ u, nestedTree.computeMetricsWith (fun _ => .standard) = .ok u ∧
        u.parts 2 = [4, 7, 8] ∧ u.sort.parts 2 = [4, 8, 7] ∧ u.order 5 6 = .eq ∧
        Arranges u.order (u.parts 4) [5, 6] ∧ TotalPreorderOn u.order (u.parts root) ∧
        u.sort.sort = u.sort := by
  have hnested : History nestedFolder (nestedOutlines ++ nestedCalls) nestedTree :=
    history_run (by decide +kernel)
  have hcs : Change.computeMetrics ∉ nestedOutlines ++ nestedCalls := by
    simp [nestedOutlines, nestedCalls]
  have hplaced : nestedTree.SymbolsInFiles := by
    have hall : ∀ p < 13, ∀ s < 13, nestedTree.PartOf p s → nestedTree.isSymbol p = true →
        nestedTree.isFile s = true ∨ nestedTree.isSymbol s = true := by decide +kernel
    intro p s hps hp
    have hlt : p < 13 := (lt_size_of_isSymbol hp).trans_eq (by decide +kernel)
    exact hall p hlt s ((hnested.wellFormed.scope_lt p s hps).trans hlt) hps hp
  have hunmeasured : Change.computeMetrics ∉ nestedOutlines ++ nestedCalls ∧
      nestedTree = nestedTree ∨
        nestedTree.computeMetricsWith (fun _ => .standard) = .ok nestedTree := .inl ⟨hcs, rfl⟩
  obtain ⟨-, -, hstays, -⟩ := sort_arranges_parts hnested hplaced hunmeasured
  have hok := hnested.computeMetricsWith_eq_ok hcs fun _ => .standard
  obtain ⟨hpreorder, harranges, -, -, -, -, htwice⟩ :=
    sort_arranges_parts hnested hplaced (.inr hok)
  have hsorted : (nestedTree.measureAllWith fun _ => .standard).sort.parts 4 = [5, 6] ∧
      (nestedTree.measureAllWith fun _ => .standard).sort.parts 2 = [4, 8, 7] := by
    rw [parts_sort, parts_sort]
    decide +kernel
  exact ⟨hplaced, hstays (by decide +kernel), _, hok, by decide +kernel, hsorted.2,
    by decide +kernel, (harranges 4 [5, 6]).mpr hsorted.1.symm, hpreorder root, htwice⟩

end Tree

end SourceAtlas
