import Mathlib.Data.List.Infix
import SourceAtlas.Proofs.Tree.Sorted
import SourceAtlas.Proofs.Tree.Traversal
/-!
# Measuring once

Measures can be written in one pass over the walk from the root (`measureInOnePass`). A visit
writes to two places: the component numbers go to the symbols among the parts, and everything
else goes to the visited artifact itself. So on the way an artifact has its number once its
scope was visited and its other measures once it was visited itself (`stage`), and every visit
finds its parts with all their measures, since a walk comes to them first. At the end of the
pass all measures are there, and they are those of the fold
(`WellFormed.measureInOnePass_eq`).

Once they are there they stay: no change to a measured tree gives an artifact other measures
(`metrics_run`), and computing them again is refused.
-/

namespace SourceAtlas

namespace Tree

variable {t : Tree} {choices : Nat → Graph.Choices} {m m' : Nat → Metrics} {id : Nat}
  {numbered visited : List Nat} {f : Folder} {cs : List Change}

/-! ## Trees with other measures -/

/-- The tree with the given measures of its artifacts. -/
def withMetrics (t : Tree) (m : Nat → Metrics) : Tree :=
  { t with artifacts := t.artifacts.mapIdx fun id a => { a with metrics := m id } }

theorem get?_withMetrics (t : Tree) (m : Nat → Metrics) (i : Nat) :
    (t.withMetrics m).get? i = (t.get? i).map fun a => { a with metrics := m i } := by
  simp [withMetrics, get?]

theorem origin?_withMetrics (t : Tree) (m : Nat → Metrics) (i : Nat) :
    (t.withMetrics m).origin? i = t.origin? i := by
  rw [origin?, get?_withMetrics, Option.map_map]
  rfl

@[simp] theorem parts_withMetrics (t : Tree) (m : Nat → Metrics) (i : Nat) :
    (t.withMetrics m).parts i = t.parts i := by
  rw [parts_eq_getD, get?_withMetrics, Option.map_map, parts_eq_getD]
  rfl

@[simp] theorem links_withMetrics (t : Tree) (m : Nat → Metrics) (i : Nat) :
    (t.withMetrics m).links i = t.links i := by
  rw [links_eq_getD, get?_withMetrics, Option.map_map, links_eq_getD]
  rfl

@[simp] theorem isSymbol_withMetrics (t : Tree) (m : Nat → Metrics) (i : Nat) :
    (t.withMetrics m).isSymbol i = t.isSymbol i :=
  isSymbol_congr (origin?_withMetrics t m i)

theorem metrics_withMetrics (m : Nat → Metrics) (h : id < t.size) :
    (t.withMetrics m).metrics id = m id := by
  obtain ⟨a, ha⟩ := t.exists_get? h
  rw [metrics, get?_withMetrics, ha]
  rfl

theorem withMetrics_congr (h : ∀ i < t.size, m i = m' i) : t.withMetrics m = t.withMetrics m' := by
  refine ext_get? (fun i => ?_) rfl rfl
  rw [get?_withMetrics, get?_withMetrics]
  cases ha : t.get? i with
  | none => rfl
  | some a => rw [h i (lt_size_of_get? ha)]

theorem withMetrics_self (h : ∀ i < t.size, m i = t.metrics i) : t.withMetrics m = t := by
  refine ext_get? (fun i => ?_) rfl rfl
  rw [get?_withMetrics]
  cases ha : t.get? i with
  | none => rfl
  | some a =>
      rw [Option.map_some, h i (lt_size_of_get? ha), metrics, ha]

/-- Measures that are written to one artifact are written there and nowhere else. -/
theorem update_withMetrics (t : Tree) (m : Nat → Metrics) (id : Nat) (g : Metrics → Metrics) :
    (t.withMetrics m).update id (fun a => { a with metrics := g a.metrics }) =
      t.withMetrics (Function.update m id (g (m id))) := by
  refine ext_get? (fun i => ?_) rfl rfl
  rw [get?_update, get?_withMetrics, get?_withMetrics]
  by_cases hi : id = i
  · subst hi
    rw [if_pos rfl, Option.map_map, Function.update_self]
    rfl
  · rw [if_neg hi, Function.update_of_ne (Ne.symm hi)]

theorem componentNumbers_withMetrics (t : Tree) (m : Nat → Metrics) (c : Graph.Choices)
    (id : Nat) : (t.withMetrics m).componentNumbers c id = t.componentNumbers c id := by
  have hsymbols : (t.withMetrics m).symbolParts id = t.symbolParts id := by
    rw [symbolParts, symbolParts, parts_withMetrics]
    exact congrArg (List.filter · (t.parts id)) (funext fun i => isSymbol_withMetrics t m i)
  have hgraph : ∀ symbols, (t.withMetrics m).siblingGraph symbols = t.siblingGraph symbols := by
    intro symbols
    funext i j
    rw [siblingGraph, siblingGraph, dependsInScope, dependsInScope, links_withMetrics]
  -- The places of the symbols are bounded by their number, so both change together.
  have hnumbers : ∀ u : Tree, u.componentNumbers c id = (fun symbols : Array Nat =>
      (List.finRange symbols.size).map fun i =>
        (symbols[i], (Graph.numbering c (u.siblingGraph symbols))[i])) (u.symbolParts id).toArray :=
    fun _ => rfl
  rw [hnumbers, hnumbers t, hsymbols]
  simp only [hgraph]

theorem measureFrom_withMetrics (t : Tree) (m : Nat → Metrics) (number : Option Nat) (id : Nat)
    (parts : List Metrics) :
    (t.withMetrics m).measureFrom number id parts = t.measureFrom number id parts := by
  have hlines : ((t.withMetrics m).get? id).bind Artifact.ownLines =
      (t.get? id).bind Artifact.ownLines := by
    rw [get?_withMetrics]
    cases t.get? id <;> rfl
  simp only [measureFrom, links_withMetrics, hlines, isSymbol_withMetrics]

/-! ## One pass -/

/-- Writes its component number to a symbol. -/
def writeNumber (t : Tree) (entry : Nat × Nat) : Tree :=
  t.update entry.1 fun a => { a with metrics := { a.metrics with componentNumber := entry.2 } }

/-- Writes the component numbers of the symbols among the parts of an artifact. -/
def writeNumbers (choices : Nat → Graph.Choices) (t : Tree) (id : Nat) : Tree :=
  (t.componentNumbers (choices id) id).foldl writeNumber t

/-- Writes the measures of an artifact, but for its component number, from those that its parts
have now. -/
def writeMeasures (t : Tree) (id : Nat) : Tree :=
  t.update id fun a =>
    { a with
      metrics := t.measureFrom a.metrics.componentNumber id ((t.parts id).map t.metrics) }

def visit (choices : Nat → Graph.Choices) (t : Tree) (id : Nat) : Tree :=
  (t.writeNumbers choices id).writeMeasures id

/-- The tree after a visit to each artifact, parts first. -/
def measureInOnePass (choices : Nat → Graph.Choices) (t : Tree) : Tree :=
  { (t.walk root).foldl (visit choices) t with measured := true }

/-- The measures on the way to the final ones: the number is there where the scope is among the
numbered ones, and everything else where the artifact itself was visited. -/
def stage (t : Tree) (final : Nat → Metrics) (numbered visited : List Nat) (i : Nat) : Metrics :=
  { (if i ∈ visited then final i else Metrics.absent) with
    componentNumber := if ∃ s ∈ numbered, t.PartOf i s then (final i).componentNumber else none }

theorem foldl_writeNumber (t : Tree) (number : Nat → Option Nat) {entries : List (Nat × Nat)}
    (h : ∀ entry ∈ entries, number entry.1 = some entry.2) (m : Nat → Metrics) :
    entries.foldl writeNumber (t.withMetrics m) = t.withMetrics fun i =>
      if i ∈ entries.map Prod.fst then { m i with componentNumber := number i } else m i := by
  induction entries generalizing m with
  | nil => simp
  | cons entry entries ih =>
      obtain ⟨hentry, hentries⟩ := List.forall_mem_cons.mp h
      rw [List.foldl_cons, writeNumber, update_withMetrics t m entry.1
        (fun m => { m with componentNumber := entry.2 }), ih hentries]
      congr 1
      funext i
      by_cases hi : i = entry.1
      · subst hi
        rw [Function.update_self, if_pos (List.mem_map_of_mem List.mem_cons_self), hentry]
        split <;> rfl
      · simp only [List.map_cons, List.mem_cons, hi, false_or, Function.update_of_ne hi]

theorem map_fst_componentNumbers (t : Tree) (c : Graph.Choices) (s : Nat) :
    (t.componentNumbers c s).map Prod.fst = t.symbolParts s := by
  conv_rhs => rw [← map_symbolAt]
  rw [componentNumbers, List.map_map]
  rfl

theorem WellFormed.componentNumber_of_mem (h : t.WellFormed) {s : Nat} {entry : Nat × Nat}
    (hentry : entry ∈ t.componentNumbers (choices s) s) :
    ((t.measureAllWith choices).metrics entry.1).componentNumber = some entry.2 := by
  obtain ⟨i, -, rfl⟩ := List.mem_map.mp hentry
  exact h.componentNumber_symbolAt s i

/-- After the numbers of its parts were written, an artifact is a numbered scope. -/
theorem WellFormed.writeNumbers_stage (h : t.WellFormed) (id : Nat) :
    (t.withMetrics (t.stage (t.measureAllWith choices).metrics numbered visited)).writeNumbers
        choices id =
      t.withMetrics (t.stage (t.measureAllWith choices).metrics (numbered ++ [id]) visited) := by
  rw [writeNumbers, componentNumbers_withMetrics, foldl_writeNumber t
    (fun i => ((t.measureAllWith choices).metrics i).componentNumber)
    fun entry hentry => h.componentNumber_of_mem hentry, map_fst_componentNumbers]
  congr 1
  funext i
  by_cases hi : t.PartOf i id
  · have hnumbered : ∃ s ∈ numbered ++ [id], t.PartOf i s := ⟨id, List.mem_concat_self, hi⟩
    rw [stage, stage, if_pos hnumbered]
    cases hsymbol : t.isSymbol i with
    | true =>
        rw [if_pos (mem_symbolParts.mpr ⟨(h.mem_parts_iff id i).mpr hi, hsymbol⟩)]
    | false =>
        have hnone : ((t.measureAllWith choices).metrics i).componentNumber = none :=
          componentNumber_eq_none hsymbol (lt_size_of_scopeOf? hi)
        rw [if_neg fun hmem => Bool.false_ne_true (hsymbol.symm.trans (mem_symbolParts.mp hmem).2),
          hnone, ite_self]
  · have hnumbered : (∃ s ∈ numbered ++ [id], t.PartOf i s) ↔ ∃ s ∈ numbered, t.PartOf i s := by
      simp [or_and_right, exists_or, hi]
    rw [if_neg fun hmem => hi ((h.mem_parts_iff id i).mp (mem_symbolParts.mp hmem).1), stage, stage]
    simp only [hnumbered]

theorem WellFormed.writeMeasures_withMetrics (h : t.WellFormed) (m : Nat → Metrics) (id : Nat) :
    (t.withMetrics m).writeMeasures id = t.withMetrics (Function.update m id
      (t.measureFrom (m id).componentNumber id ((t.parts id).map m))) := by
  have hparts : ((t.withMetrics m).parts id).map (t.withMetrics m).metrics =
      (t.parts id).map m := by
    rw [parts_withMetrics]
    exact List.map_congr_left fun p hp => metrics_withMetrics m (h.lt_size_of_mem_parts hp)
  rw [writeMeasures, hparts, update_withMetrics t m id fun old =>
    (t.withMetrics m).measureFrom old.componentNumber id ((t.parts id).map m)]
  rw [measureFrom_withMetrics]

/-- A visit to an artifact whose parts were visited gives it its measures. -/
theorem WellFormed.visit_stage (h : t.WellFormed) (hid : id < t.size)
    (hparts : ∀ p ∈ t.parts id, p ∈ visited) :
    visit choices (t.withMetrics (t.stage (t.measureAllWith choices).metrics visited visited)) id =
      t.withMetrics (t.stage (t.measureAllWith choices).metrics (visited ++ [id])
        (visited ++ [id])) := by
  have hfinal : (t.parts id).map (t.stage (t.measureAllWith choices).metrics (visited ++ [id])
      visited) = (t.parts id).map (t.measureAllWith choices).metrics := by
    refine List.map_congr_left fun p hp => ?_
    rw [stage, if_pos (hparts p hp),
      if_pos ⟨id, List.mem_concat_self, (h.mem_parts_iff id p).mp hp⟩]
  rw [visit, h.writeNumbers_stage, h.writeMeasures_withMetrics, hfinal]
  congr 1
  funext i
  by_cases hi : i = id
  · subst hi
    have hvisited : i ∈ visited ++ [i] := List.mem_concat_self
    rw [Function.update_self, stage, stage, if_pos hvisited,
      h.metrics_eq hid]
    rfl
  · rw [Function.update_of_ne hi, stage, stage]
    simp [hi]

/-- After some visits the measures are at the stage that the visits say. -/
theorem WellFormed.foldl_visit (h : t.WellFormed) (habsent : ∀ i, t.metrics i = Metrics.absent)
    (hvisited : visited <+: t.walk root) :
    visited.foldl (visit choices) t =
      t.withMetrics (t.stage (t.measureAllWith choices).metrics visited visited) := by
  induction visited using List.reverseRecOn with
  | nil =>
      refine (withMetrics_self fun i _ => ?_).symm
      rw [List.foldl_nil, habsent, stage]
      simp [Metrics.absent]
  | append_singleton visited id ih =>
      obtain ⟨after, hwalk⟩ := hvisited
      rw [List.foldl_concat, ih ⟨id :: after, by rw [← hwalk, List.append_assoc]; rfl⟩]
      have hid : id ∈ t.walk root := by simp [← hwalk]
      refine h.visit_stage (h.lt_size_of_contains h.root_lt_size (h.mem_walk_iff.mp hid))
        fun p hp => ?_
      -- A part stands before its scope in the walk, so it is among what was visited before.
      have hbefore : [p, id].Sublist (t.walk root) :=
        (h.traverses_walk root).below_first id p (h.mem_walk_iff.mp hid)
          (h.contains_of_mem_parts hp) (h.lt_of_mem_parts hp).ne
      have hpwalk : p ∈ visited ++ [id] ++ after := hwalk ▸ hbefore.subset (by simp)
      rw [List.append_assoc, List.singleton_append, List.mem_append, List.mem_cons] at hpwalk
      rcases hpwalk with hp' | rfl | hafter
      · exact hp'
      · exact absurd rfl (h.lt_of_mem_parts hp).ne
      · refine absurd ?_ (not_pair_sublist (h.nodup_walk root) hbefore)
        rw [← hwalk]
        exact (List.sublist_append_right visited [id]).append (List.singleton_sublist.mpr hafter)

/-- The pass and the fold give the same measures. -/
theorem WellFormed.measureInOnePass_eq (h : t.WellFormed)
    (habsent : ∀ i, t.metrics i = Metrics.absent) :
    t.measureInOnePass choices = t.measureAllWith choices := by
  have hfinal : t.withMetrics (t.stage (t.measureAllWith choices).metrics (t.walk root)
      (t.walk root)) = t.withMetrics (t.measure (t.componentTable choices)) := by
    refine withMetrics_congr fun i hi => ?_
    rw [← metrics_measureAllWith choices t hi, stage,
      if_pos (h.mem_walk_iff.mpr (h.contains_root hi))]
    split
    · rfl
    · next hnone =>
        have hroot : t.scopeOf? i = none := by
          refine Option.eq_none_iff_forall_ne_some.mpr fun s hs => hnone ⟨s, ?_, hs⟩
          exact h.mem_walk_iff.mpr (h.contains_root ((h.scope_lt i s hs).trans hi))
        obtain rfl := (h.scopeOf?_eq_none_iff hi).mp hroot
        have hsymbol := (isSymbol_eq_false_iff hi).mpr (.inr h.isFolder_root)
        have hnone : ((t.measureAllWith choices).metrics root).componentNumber = none :=
          componentNumber_eq_none hsymbol hi
        rw [← hnone]
  rw [measureInOnePass, h.foldl_visit habsent (List.prefix_refl _), hfinal]
  rfl

/-! ## Measures are written once -/

/-- No change to a measured tree gives an artifact other measures. -/
theorem metrics_apply (h : t.measured = true) {c : Change} (hc : c.Admissible t) :
    (c.apply t).measured = true ∧ ∀ i, (c.apply t).metrics i = t.metrics i := by
  cases c with
  | addSymbol scope file e =>
      exact ⟨(measured_addSymbol hc file e).trans h, metrics_addSymbol hc file e⟩
  | addDependency r d =>
      rcases addDependency_cases t r d with ⟨-, heq⟩ | ⟨k, -, heq⟩
      · rw [Change.apply, heq]
        exact ⟨h, fun _ => rfl⟩
      · rw [Change.apply, heq]
        exact ⟨h, metrics_link t k r d⟩
  | computeMetrics =>
      rcases apply_computeMetrics_cases t with ⟨-, heq⟩ | ⟨hm, -⟩
      · rw [heq]
        exact ⟨h, fun _ => rfl⟩
      · exact absurd (h.symm.trans hm) Bool.noConfusion
  | sort => exact ⟨h, metrics_sort t⟩

theorem metrics_run (h : t.measured = true) {ds : List Change} (hds : t.Admits ds) :
    (t.run ds).measured = true ∧ ∀ i, (t.run ds).metrics i = t.metrics i := by
  induction ds generalizing t with
  | nil => exact ⟨h, fun _ => rfl⟩
  | cons d ds ih =>
      obtain ⟨hmeasured, hmetrics⟩ := metrics_apply h hds.1
      obtain ⟨hrun, hmetrics'⟩ := ih hmeasured hds.2
      exact ⟨hrun, fun i => (hmetrics' i).trans (hmetrics i)⟩

/-- Where metrics were computed on the way, the tree is measured. -/
theorem History.computeMetrics_notMem (h : History f cs t) (hm : t.measured = false) :
    Change.computeMetrics ∉ cs := by
  have hmeasured : Change.computeMetrics ∈ cs → t.measured = true := by
    clear hm
    induction h with
    | loaded => exact nofun
    | @change cs t c hhistory hc ih =>
        intro hmem
        rcases List.mem_append.mp hmem with hmem | hmem
        · exact (metrics_apply (ih hmem) hc).1
        · obtain rfl := List.mem_singleton.mp hmem
          rcases apply_computeMetrics_cases t with ⟨hm, heq⟩ | ⟨-, heq⟩
          · rw [heq, hm]
          · rw [heq]
            rfl
  exact fun hmem => Bool.false_ne_true (hm.symm.trans (hmeasured hmem))

/-! ## Main statement -/

/-- Every artifact has all its measures, and a component number where it is a symbol; what is
said of the size of its parts is the sum of their sizes. -/
def FullyMeasured (t : Tree) : Prop :=
  ∀ i < t.size,
    ((t.metrics i).linesOfCode.isSome ∧ (t.metrics i).linesOfCodeOfParts.isSome ∧
      (t.metrics i).linesOfCodeOfPartsInCycles.isSome ∧
      (t.metrics i).incomingDependenciesInScope.isSome ∧
      (t.metrics i).dependencyDifferenceScope.isSome ∧
      (t.metrics i).dependencyDifferenceExternal.isSome) ∧
    (t.metrics i).componentNumber.isSome = t.isSymbol i ∧
    (t.metrics i).linesOfCodeOfParts =
      some (total (fun p => (t.metrics p).linesOfCode.getD 0) (t.parts i))

theorem WellFormed.fullyMeasured (h : t.WellFormed) (choices : Nat → Graph.Choices) :
    (t.measureAllWith choices).FullyMeasured := by
  intro i hi
  rw [size_measureAllWith] at hi
  have hnumber : ((t.measureAllWith choices).metrics i).componentNumber.isSome = t.isSymbol i := by
    cases hsymbol : t.isSymbol i with
    | true =>
        obtain ⟨s, hs⟩ : ∃ s, t.PartOf i s := by
          refine h.exists_scope i (Nat.pos_of_ne_zero ?_) hi
          rintro rfl
          exact not_isFile_or_isSymbol_of_isFolder h.isFolder_root (.inr hsymbol)
        rw [h.componentNumber_eq (mem_symbolParts.mpr ⟨(h.mem_parts_iff s i).mpr hs, hsymbol⟩)]
        rfl
    | false => rw [componentNumber_eq_none hsymbol hi, Option.isSome_none]
  refine ⟨?_, hnumber.trans (isSymbol_congr (origin?_measureAllWith choices t i)).symm, ?_⟩
  · rw [h.metrics_eq hi]
    exact ⟨rfl, rfl, rfl, rfl, rfl, rfl⟩
  · rw [parts_measureAllWith, h.metrics_eq hi, measureFrom, total_map]
    rfl

/-- A tree that has no metrics yet can be measured, in one pass over its walk, and changes in
its metrics only. From then on no change to it gives any of its artifacts other metrics, and
computing them again is refused and leaves it as it is. -/
theorem computeMetrics_writes_once (h : History f cs t) (hm : t.measured = false)
    (choices : Nat → Graph.Choices) :
    ∃ t', t.computeMetricsWith choices = .ok t' ∧ t' = t.measureInOnePass choices ∧
      t'.FullyMeasured ∧
      (∀ i, t'.get? i = (t.get? i).map fun a => { a with metrics := t'.metrics i }) ∧
      t'.files = t.files ∧
      ∀ ds, t'.Admits ds →
        (∀ i, (t'.run ds).metrics i = t'.metrics i) ∧
        (∀ choices', (t'.run ds).computeMetricsWith choices' = .error .alreadyMeasured) ∧
        Change.computeMetrics.apply (t'.run ds) = t'.run ds := by
  have hwf := h.wellFormed
  have hcs := h.computeMetrics_notMem hm
  refine ⟨_, h.computeMetricsWith_eq_ok hcs choices,
    (hwf.measureInOnePass_eq (h.metrics_eq_absent hcs)).symm, hwf.fullyMeasured choices,
    fun i => ?_, rfl, fun ds hds => ?_⟩
  · rw [get?_measureAllWith]
    cases ha : t.get? i with
    | none => rfl
    | some a => rw [metrics_measureAllWith choices t (lt_size_of_get? ha)]
  · obtain ⟨hrun, hmetrics⟩ := metrics_run (t := t.measureAllWith choices) rfl hds
    refine ⟨hmetrics, fun choices' => ?_, ?_⟩
    · rw [computeMetricsWith, hrun]
      rfl
    · rcases apply_computeMetrics_cases ((t.measureAllWith choices).run ds) with ⟨-, heq⟩ | ⟨hm', -⟩
      · exact heq
      · exact absurd (hrun.symm.trans hm') Bool.noConfusion

/-- Functions that call each other are measured, and then another one and a call are added. -/
theorem computeMetrics_writes_once_smallTree :
    ∃ t', smallTree.computeMetricsWith (fun _ => .standard) = .ok t' ∧
      (t'.metrics 2).componentNumber = some 2 ∧
      ((t'.run [.addSymbol 1 1 (smallEntry "late"), .addDependency 2 6, .sort,
        .computeMetrics]).metrics 2).componentNumber = some 2 := by
  have hsmall : History smallFolder smallChanges smallTree := history_run (by decide +kernel)
  have hcs : Change.computeMetrics ∉ smallChanges := by simp [smallChanges]
  obtain ⟨t', hok, -, -, -, -, hlater⟩ :=
    computeMetrics_writes_once hsmall (by decide +kernel) fun _ => .standard
  obtain rfl : smallTree.measureAllWith (fun _ => .standard) = t' :=
    Except.ok.inj ((hsmall.computeMetricsWith_eq_ok hcs _).symm.trans hok)
  have hnumber : ((smallTree.measureAllWith fun _ => .standard).metrics 2).componentNumber =
      some 2 := by decide +kernel
  exact ⟨_, hok, hnumber, by rw [(hlater _ (by decide +kernel)).1, hnumber]⟩

end Tree

end SourceAtlas
