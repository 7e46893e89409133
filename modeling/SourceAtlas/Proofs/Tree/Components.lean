import SourceAtlas.Proofs.Graph.Numbering
import SourceAtlas.Proofs.Tree.History
/-!
# Component numbers

The symbols among the parts of an artifact form a graph along the dependencies
within their scope. Computing metrics numbers them in its source order
(`WellFormed.sourceOrder_number`): that is what the numbers are, and nothing else is
known of how they were found.
-/

namespace SourceAtlas

open SourceAtlas.Graph

namespace Tree

variable {t : Tree} {choices : Nat → Graph.Choices} {s : Nat}

/-! ## The graph of siblings -/

/-- A dependency within the scope between two symbols that are parts of `s`. -/
def SiblingEdge (t : Tree) (s a b : Nat) : Prop :=
  a ∈ t.symbolParts s ∧ b ∈ t.symbolParts s ∧ b ∈ (t.links a).outgoing .inScope

/-- The component number of a symbol. -/
def number (t : Tree) (id : Nat) : Nat := (t.metrics id).componentNumber.getD 0

theorem SiblingEdge.mem {a b : Nat} (h : t.SiblingEdge s a b) :
    a ∈ t.symbolParts s ∧ b ∈ t.symbolParts s := ⟨h.1, h.2.1⟩

theorem mem_symbolParts {a : Nat} :
    a ∈ t.symbolParts s ↔ a ∈ t.parts s ∧ t.isSymbol a = true :=
  List.mem_filter

theorem symbolParts_measureAllWith (choices : Nat → Graph.Choices) (t : Tree) (s : Nat) :
    (t.measureAllWith choices).symbolParts s = t.symbolParts s := by
  rw [symbolParts, symbolParts, parts_measureAllWith]
  congr 1
  funext a
  exact isSymbol_congr (origin?_measureAllWith choices t a)

theorem siblingEdge_measureAllWith (choices : Nat → Graph.Choices) (t : Tree) (s : Nat) :
    (t.measureAllWith choices).SiblingEdge s = t.SiblingEdge s := by
  funext a b
  rw [SiblingEdge, SiblingEdge, symbolParts_measureAllWith, links_measureAllWith]

theorem WellFormed.nodup_symbolParts (h : t.WellFormed) (s : Nat) : (t.symbolParts s).Nodup :=
  (h.nodup_parts s).filter _

/-- The symbol at a place among the symbols that are parts of `s`. -/
def symbolAt (t : Tree) (s : Nat) (i : Fin (t.symbolParts s).toArray.size) : Nat :=
  (t.symbolParts s).get (i.cast List.size_toArray)

theorem symbolAt_mem (t : Tree) (s : Nat) (i : Fin (t.symbolParts s).toArray.size) :
    t.symbolAt s i ∈ t.symbolParts s :=
  List.get_mem _ _

theorem WellFormed.symbolAt_injective (h : t.WellFormed) (s : Nat) :
    Function.Injective (t.symbolAt s) := by
  intro i j heq
  exact Fin.ext (Fin.val_eq_of_eq ((h.nodup_symbolParts s).get_inj_iff.mp heq))

theorem map_symbolAt (t : Tree) (s : Nat) :
    (List.finRange (t.symbolParts s).toArray.size).map (t.symbolAt s) = t.symbolParts s := by
  apply List.ext_getElem
  · simp
  · intro i _ _
    simp [symbolAt]

theorem siblingEdge_eq_map (t : Tree) (s : Nat) :
    t.SiblingEdge s = Relation.Map (Joins (t.siblingGraph (t.symbolParts s).toArray))
      (t.symbolAt s) (t.symbolAt s) := by
  funext a b
  have hplace : ∀ a, a ∈ t.symbolParts s ↔ ∃ i, t.symbolAt s i = a := by
    intro a
    conv_lhs => rw [← map_symbolAt]
    simp
  rw [eq_iff_iff, SiblingEdge, hplace, hplace]
  constructor
  · rintro ⟨⟨i, rfl⟩, ⟨j, rfl⟩, hij⟩
    exact ⟨i, j, List.contains_iff_mem.mpr hij, rfl, rfl⟩
  · rintro ⟨i, j, hij, rfl, rfl⟩
    exact ⟨⟨i, rfl⟩, ⟨j, rfl⟩, List.contains_iff_mem.mp hij⟩

/-- Among the symbols of a well-formed tree, those that stand earlier in their list
stand earlier among all parts. -/
theorem WellFormed.idxOf_symbolAt_lt (h : t.WellFormed) (s : Nat)
    {i j : Fin (t.symbolParts s).toArray.size} (hij : i < j) :
    (t.parts s).idxOf (t.symbolAt s i) < (t.parts s).idxOf (t.symbolAt s j) := by
  have hparts : (t.parts s).Pairwise fun a b => (t.parts s).idxOf a < (t.parts s).idxOf b := by
    rw [List.pairwise_iff_getElem]
    intro k l hk hl hkl
    rwa [(h.nodup_parts s).idxOf_getElem k hk, (h.nodup_parts s).idxOf_getElem l hl]
  exact List.pairwise_iff_getElem.mp (hparts.filter t.isSymbol) i j i.isLt j.isLt hij

/-! ## The numbers of siblings -/

theorem componentNumber_measure (t : Tree) (table : Array (List (Nat × Nat))) (id : Nat) :
    (t.measure table id).componentNumber = t.componentNumber? table id := by
  rw [measure, fold]
  rfl

theorem lookup_map_eq_some {ι : Type} {key : ι → Nat} (hkey : Function.Injective key)
    (value : ι → Nat) {is : List ι} {i : ι} (hi : i ∈ is) :
    (is.map fun i => (key i, value i)).lookup (key i) = some (value i) := by
  induction is with
  | nil => simp at hi
  | cons j is ih =>
      by_cases hij : i = j
      · subst hij
        simp
      · have hne : key i ≠ key j := fun heq => hij (hkey heq)
        have : (key i == key j) = false := by simpa using hne
        rw [List.map_cons, List.lookup_cons, this]
        exact ih ((List.mem_cons.mp hi).resolve_left hij)

/-- The symbols below `s` in one tree depend on each other like those below `s'` in
another one, place by place. -/
structure SameSiblings (t : Tree) (s : Nat) (t' : Tree) (s' : Nat) : Prop where
  length_eq : (t.symbolParts s).length = (t'.symbolParts s').length
  edge_iff : ∀ i j a b a' b' : Nat, (t.symbolParts s)[i]? = some a → (t.symbolParts s)[j]? = some b →
    (t'.symbolParts s')[i]? = some a' → (t'.symbolParts s')[j]? = some b' →
    (t.SiblingEdge s a b ↔ t'.SiblingEdge s' a' b')

theorem siblingGraph_eq_true_iff (t : Tree) (s : Nat)
    (i j : Fin (t.symbolParts s).toArray.size) :
    t.siblingGraph (t.symbolParts s).toArray i j = true ↔
      t.SiblingEdge s (t.symbolAt s i) (t.symbolAt s j) := by
  rw [SiblingEdge, and_iff_right (t.symbolAt_mem s i), and_iff_right (t.symbolAt_mem s j)]
  exact List.contains_iff_mem

/-- Every symbol among the parts of `s` has the number of its place. -/
theorem WellFormed.componentNumber_symbolAt (h : t.WellFormed) (s : Nat)
    (i : Fin (t.symbolParts s).toArray.size) :
    ((t.measureAllWith choices).metrics (t.symbolAt s i)).componentNumber =
      some ((numbering (choices s) (t.siblingGraph (t.symbolParts s).toArray)).get i) := by
  obtain ⟨hpart, hsymbol⟩ := mem_symbolParts.mp (t.symbolAt_mem s i)
  have hscope := (h.mem_parts_iff _ _).mp hpart
  have hlt := lt_size_of_isSymbol hsymbol
  have hs : s < t.size := Nat.lt_trans (h.scope_lt _ _ hscope) hlt
  rw [metrics_measureAllWith choices t hlt, componentNumber_measure, componentNumber?, if_pos hsymbol]
  have htable : (t.componentTable choices)[s]? = some (t.componentNumbers (choices s) s) := by
    simp [componentTable, hs]
  simp only [hscope, htable, Option.bind_eq_bind, Option.bind_some]
  exact lookup_map_eq_some (h.symbolAt_injective s)
    (fun i => (numbering (choices s) (t.siblingGraph (t.symbolParts s).toArray)).get i)
    (List.mem_finRange i)

theorem WellFormed.componentNumber_eq (h : t.WellFormed) {a : Nat} (ha : a ∈ t.symbolParts s) :
    ((t.measureAllWith choices).metrics a).componentNumber =
      some ((t.measureAllWith choices).number a) := by
  rw [← map_symbolAt] at ha
  obtain ⟨i, -, rfl⟩ := List.mem_map.mp ha
  rw [number, h.componentNumber_symbolAt]
  rfl

theorem WellFormed.number_symbolAt (h : t.WellFormed) (s : Nat)
    (i : Fin (t.symbolParts s).toArray.size) :
    (t.measureAllWith choices).number (t.symbolAt s i) =
      (numbering (choices s) (t.siblingGraph (t.symbolParts s).toArray)).get i := by
  rw [number, h.componentNumber_symbolAt]
  rfl

/-- Computing metrics numbers the symbols among the parts of an artifact in their
source order, with lawful choices of any kind. -/
theorem WellFormed.sourceOrder_number (h : t.WellFormed) (hchoices : (choices s).Lawful) :
    SourceOrder (t.symbolParts s) (t.parts s).idxOf (t.SiblingEdge s)
      (t.measureAllWith choices).number := by
  have horder := sourceOrder_numbering hchoices (t.siblingGraph (t.symbolParts s).toArray)
  have hnumber : (numbering (choices s) (t.siblingGraph (t.symbolParts s).toArray)).get =
      fun i => (t.measureAllWith choices).number (t.symbolAt s i) :=
    funext fun i => (h.number_symbolAt s i).symm
  rw [hnumber] at horder
  rw [siblingEdge_eq_map]
  conv in t.symbolParts s => rw [← map_symbolAt]
  refine horder.map (h.symbolAt_injective s) fun i j hij => ?_
  by_contra hlt
  exact Nat.not_lt.mpr hij (h.idxOf_symbolAt_lt s (Nat.not_le.mp hlt))

theorem WellFormed.map_number (h : t.WellFormed) (s : Nat) :
    (t.symbolParts s).map (t.measureAllWith choices).number =
      (numbering (choices s) (t.siblingGraph (t.symbolParts s).toArray)).toList := by
  conv_lhs => rw [← map_symbolAt, List.map_map]
  apply List.ext_getElem
  · simp
  · intro i hi _
    rw [List.getElem_map, List.getElem_finRange, Function.comp_apply, h.number_symbolAt]
    rfl

/-- Symbols that depend on each other alike have the same numbers, in whichever
trees they are and with whichever choices they were numbered. -/
theorem WellFormed.map_number_congr {t' : Tree} {choices' : Nat → Graph.Choices} {s' : Nat}
    (h : t.WellFormed) (h' : t'.WellFormed) (hchoices : (choices s).Lawful)
    (hchoices' : (choices' s').Lawful) (hsame : t.SameSiblings s t' s') :
    (t.symbolParts s).map (t.measureAllWith choices).number =
      (t'.symbolParts s').map (t'.measureAllWith choices').number := by
  have hlength : (t.symbolParts s).toArray.size = (t'.symbolParts s').toArray.size := by
    simpa using hsame.length_eq
  rw [h.map_number, h'.map_number]
  refine toList_numbering_congr hchoices hchoices' hlength fun i j => ?_
  rw [Bool.eq_iff_iff, siblingGraph_eq_true_iff, siblingGraph_eq_true_iff]
  apply hsame.edge_iff i j <;> simp [symbolAt]

/-- What numberings may do in one way or another leaves no trace in the metrics. -/
theorem measureAllWith_congr {choices' : Nat → Graph.Choices} (hchoices : ∀ s, (choices s).Lawful)
    (hchoices' : ∀ s, (choices' s).Lawful) (t : Tree) :
    t.measureAllWith choices = t.measureAllWith choices' := by
  have hnumbers : ∀ s, t.componentNumbers (choices s) s = t.componentNumbers (choices' s) s := by
    intro s
    have hnumbering : numbering (choices s) (t.siblingGraph (t.symbolParts s).toArray) =
        numbering (choices' s) (t.siblingGraph (t.symbolParts s).toArray) :=
      Vector.toList_inj.mp
        (toList_numbering_congr (hchoices s) (hchoices' s) rfl fun _ _ => rfl)
    rw [componentNumbers, componentNumbers, hnumbering]
  have htable : t.componentTable choices = t.componentTable choices' := by
    rw [componentTable, componentTable]
    exact congrArg (Array.map · (Array.range t.size)) (funext hnumbers)
  rw [measureAllWith, measureAllWith, htable]

/-! ## Main statements -/

/-- Computing the metrics of a tree that has none numbers the components: symbols
of one scope share a number exactly when they are in one component, and the numbers
in use are those below the number of components. -/
theorem computeMetrics_numbers_components {f : Folder} {cs : List Change}
    (h : History f cs t) (hcs : Change.computeMetrics ∉ cs)
    (hchoices : ∀ s, (choices s).Lawful) :
    ∃ t', t.computeMetricsWith choices = .ok t' ∧ ∀ s,
      (∀ a ∈ t'.symbolParts s, ∀ b ∈ t'.symbolParts s,
        ((t'.metrics a).componentNumber = (t'.metrics b).componentNumber ↔
          a = b ∨ (Relation.TransGen (t'.SiblingEdge s) a b ∧
            Relation.TransGen (t'.SiblingEdge s) b a))) ∧
      (fun a => (t'.metrics a).componentNumber) '' {a | a ∈ t'.symbolParts s} =
        some '' Set.Iio (componentSets (t'.symbolParts s) (t'.SiblingEdge s)).ncard := by
  have hwf := h.wellFormed
  refine ⟨t.measureAllWith choices, h.computeMetricsWith_eq_ok hcs choices, fun s => ?_⟩
  have horder := hwf.sourceOrder_number (hchoices s)
  rw [symbolParts_measureAllWith, siblingEdge_measureAllWith]
  constructor
  · intro a ha b hb
    rw [hwf.componentNumber_eq ha, hwf.componentNumber_eq hb, Option.some_inj,
      horder.number_eq_iff a ha b hb, SameComponent]
  · rw [← horder.image_number fun a b => SiblingEdge.mem, Set.image_image]
    exact Set.image_congr fun a ha => hwf.componentNumber_eq ha

/-- Two functions that call each other are in one component, and a third one that
calls them is in another. -/
theorem computeMetrics_numbers_components_smallTree :
    ∃ t', smallTree.computeMetricsWith (fun _ => .standard) = .ok t' ∧
      (Relation.TransGen (t'.SiblingEdge 1) 2 3 ∧ Relation.TransGen (t'.SiblingEdge 1) 3 2) ∧
      ¬ (Relation.TransGen (t'.SiblingEdge 1) 5 2 ∧ Relation.TransGen (t'.SiblingEdge 1) 2 5) ∧
      (fun a => (t'.metrics a).componentNumber) '' {a | a ∈ t'.symbolParts 1} =
        some '' Set.Iio (componentSets (t'.symbolParts 1) (t'.SiblingEdge 1)).ncard := by
  have hsmall : History smallFolder smallChanges smallTree := history_run (by decide +kernel)
  have hcs : Change.computeMetrics ∉ smallChanges := by simp [smallChanges]
  obtain ⟨t', hok, h⟩ := computeMetrics_numbers_components hsmall hcs fun _ => lawful_standard
  obtain rfl : smallTree.measureAllWith (fun _ => .standard) = t' :=
    Except.ok.inj ((hsmall.computeMetricsWith_eq_ok hcs _).symm.trans hok)
  obtain ⟨hnumber, himage⟩ := h 1
  refine ⟨_, hok, ?_, fun hcycle => ?_, himage⟩
  · have hcycle := (hnumber 2 (by decide +kernel) 3 (by decide +kernel)).mp (by decide +kernel)
    exact hcycle.resolve_left (by decide)
  · have hsame := (hnumber 5 (by decide +kernel) 2 (by decide +kernel)).mpr (.inr hcycle)
    exact absurd hsame (by decide +kernel)

/-- Computing the metrics of a tree that has none gives the symbols of every scope
their one source order: numbers ascend along dependencies, and among the components
that may come next the one with the earliest part does. They depend on nothing but
the order of the parts and the dependencies between them. -/
theorem computeMetrics_follows_source_order {f : Folder} {cs : List Change}
    (h : History f cs t) (hcs : Change.computeMetrics ∉ cs)
    (hchoices : ∀ s, (choices s).Lawful) :
    ∃ t', t.computeMetricsWith choices = .ok t' ∧
      (∀ s, ∀ a ∈ t'.symbolParts s, (t'.metrics a).componentNumber = some (t'.number a)) ∧
      (∀ s, SourceOrder (t'.symbolParts s) (t'.parts s).idxOf (t'.SiblingEdge s) t'.number) ∧
      (∀ s other, SourceOrder (t'.symbolParts s) (t'.parts s).idxOf (t'.SiblingEdge s) other →
        ∀ a ∈ t'.symbolParts s, other a = t'.number a) ∧
      ∀ {f₂ : Folder} {cs₂ : List Change} {t₂ t₂' : Tree} {choices₂ : Nat → Graph.Choices},
        History f₂ cs₂ t₂ → (∀ s, (choices₂ s).Lawful) →
        t₂.computeMetricsWith choices₂ = .ok t₂' → ∀ s s₂, t'.SameSiblings s t₂' s₂ →
        (t'.symbolParts s).map t'.number = (t₂'.symbolParts s₂).map t₂'.number := by
  have hwf := h.wellFormed
  refine ⟨t.measureAllWith choices, h.computeMetricsWith_eq_ok hcs choices, ?_, ?_, ?_, ?_⟩
  · intro s a ha
    exact hwf.componentNumber_eq (symbolParts_measureAllWith choices t s ▸ ha)
  · intro s
    rw [symbolParts_measureAllWith, siblingEdge_measureAllWith, parts_measureAllWith]
    exact hwf.sourceOrder_number (hchoices s)
  · intro s other hother a ha
    rw [symbolParts_measureAllWith] at ha
    rw [symbolParts_measureAllWith, siblingEdge_measureAllWith, parts_measureAllWith] at hother
    exact hother.unique (hwf.sourceOrder_number (hchoices s)) (fun a b => SiblingEdge.mem) ha
  · intro f₂ cs₂ t₂ t₂' choices₂ h₂ hchoices₂ hok₂ s s₂ hsame
    rcases computeMetricsWith_cases choices₂ t₂ with ⟨-, herror⟩ | ⟨-, hok'⟩
    · simp [herror] at hok₂
    obtain rfl : t₂.measureAllWith choices₂ = t₂' := Except.ok.inj (hok'.symm.trans hok₂)
    rw [symbolParts_measureAllWith, symbolParts_measureAllWith]
    refine hwf.map_number_congr h₂.wellFormed (hchoices s) (hchoices₂ s₂) ?_
    have hlength := hsame.length_eq
    have hedge := hsame.edge_iff
    rw [symbolParts_measureAllWith, symbolParts_measureAllWith] at hlength hedge
    rw [siblingEdge_measureAllWith, siblingEdge_measureAllWith] at hedge
    exact ⟨hlength, hedge⟩

/-- The function that depends on nothing keeps the first place it can have, and the
one that calls the cycle comes before it. -/
theorem computeMetrics_follows_source_order_smallTree :
    ∃ t', smallTree.computeMetricsWith (fun _ => .standard) = .ok t' ∧
      (t'.symbolParts 1).map t'.number = [2, 2, 0, 1] ∧
      SourceOrder (t'.symbolParts 1) (t'.parts 1).idxOf (t'.SiblingEdge 1) t'.number := by
  have hsmall : History smallFolder smallChanges smallTree := history_run (by decide +kernel)
  have hcs : Change.computeMetrics ∉ smallChanges := by simp [smallChanges]
  obtain ⟨t', hok, -, horder, -⟩ :=
    computeMetrics_follows_source_order hsmall hcs fun _ => lawful_standard
  obtain rfl : smallTree.measureAllWith (fun _ => .standard) = t' :=
    Except.ok.inj ((hsmall.computeMetricsWith_eq_ok hcs _).symm.trans hok)
  exact ⟨_, hok, by decide +kernel, horder 1⟩

end Tree

end SourceAtlas
