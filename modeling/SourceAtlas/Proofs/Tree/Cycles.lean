import SourceAtlas.Proofs.Tree.Components
import SourceAtlas.Proofs.Tree.Containment
import SourceAtlas.Proofs.Tree.Dependencies
/-!
# Lines on cycles

Measuring goes from the parts to their scope, and of every part it only looks at
whether another part has its component number. What this adds up to is said here
without the walk: the lines of the topmost artifacts on cycles below an artifact
(`CycleTop`), where a cycle runs along the dependencies between the symbols of one
scope.

A part shares its component number exactly when it is on a cycle
(`WellFormed.isOnCycle_iff`), and the topmost artifacts on cycles below an artifact are
those of its parts that are on cycles and those below the others (`WellFormed.cycleTop_iff`).
-/

namespace SourceAtlas

open SourceAtlas.Graph Relation

namespace Tree

variable {t : Tree} {choices : Nat → Graph.Choices} {a d m p s : Nat}

/-! ## Cycles -/

instance (t : Tree) (s a b : Nat) : Decidable (t.SiblingEdge s a b) :=
  inferInstanceAs (Decidable (_ ∧ _ ∧ _))

/-- A symbol is on a cycle when it depends on itself by way of its siblings. -/
def OnCycle (t : Tree) (d : Nat) : Prop :=
  ∃ s, t.PartOf d s ∧ TransGen (t.SiblingEdge s) d d

/-- An artifact on a cycle strictly below `a`, with no artifact on a cycle strictly
between the two. -/
structure CycleTop (t : Tree) (a d : Nat) : Prop where
  below : t.contains a d = true
  ne : a ≠ d
  onCycle : t.OnCycle d
  top : ∀ m, t.contains a m = true → a ≠ m → t.contains m d = true → m ≠ d → ¬ t.OnCycle m

theorem WellFormed.onCycle_iff (h : t.WellFormed) (hp : p ∈ t.parts s) :
    t.OnCycle p ↔ TransGen (t.SiblingEdge s) p p := by
  have hscope := (h.mem_parts_iff s p).mp hp
  constructor
  · rintro ⟨r, hr, hcycle⟩
    obtain rfl : r = s := Option.some.inj (hr.symm.trans hscope)
    exact hcycle
  · exact fun hcycle => ⟨s, hscope, hcycle⟩

theorem OnCycle.isSymbol (h : t.OnCycle d) : t.isSymbol d = true := by
  obtain ⟨s, -, hcycle⟩ := h
  obtain ⟨b, hb, -⟩ := TransGen.head'_iff.mp hcycle
  exact (mem_symbolParts.mp hb.1).2

/-- No symbol of a tree with a history depends on itself. -/
theorem History.not_siblingEdge_self {f : Folder} {cs : List Change} (h : History f cs t)
    (s b : Nat) : ¬ t.SiblingEdge s b b := by
  rintro ⟨-, -, hlink⟩
  obtain ⟨-, hclass⟩ := (h.records.mem_outgoing b b .inScope).mp hlink
  have hcontains := (classify?_eq_some_iff.mp hclass).2.2.1
  rw [h.wellFormed.contains_self] at hcontains
  cases hcontains

/-- The topmost artifacts on cycles below an artifact are its parts on cycles and
those below its other parts. -/
theorem WellFormed.cycleTop_iff (h : t.WellFormed) :
    t.CycleTop a d ↔ ∃ p ∈ t.parts a, t.OnCycle p ∧ d = p ∨ ¬ t.OnCycle p ∧ t.CycleTop p d := by
  constructor
  · intro htop
    obtain ⟨p, hp, hpd⟩ := h.exists_part_contains htop.below htop.ne
    refine ⟨p, hp, ?_⟩
    by_cases hd : p = d
    · exact .inl ⟨hd ▸ htop.onCycle, hd.symm⟩
    · have hap := h.contains_of_mem_parts hp
      have hlt := h.lt_of_mem_parts hp
      refine .inr ⟨htop.top p hap hlt.ne hpd hd, hpd, hd, htop.onCycle, ?_⟩
      intro m hpm _ hmd hne
      have ham : a ≠ m := (hlt.trans_le (h.le_of_contains hpm)).ne
      exact htop.top m (h.contains_trans hap hpm) ham hmd hne
  · rintro ⟨p, hp, ⟨hcycle, rfl⟩ | ⟨hno, htop⟩⟩
    · refine ⟨h.contains_of_mem_parts hp, (h.lt_of_mem_parts hp).ne, hcycle, ?_⟩
      -- Between an artifact and its part there is nothing.
      intro m ham hne hmp hmd
      obtain ⟨q, hq, hqm⟩ := h.exists_part_contains ham hne
      obtain rfl := h.eq_of_contains hq hp (h.contains_trans hqm hmp) (h.contains_self d)
      exact absurd (h.contains_antisymm hmp hqm) hmd
    · have hap := h.contains_of_mem_parts hp
      have hlt := (h.lt_of_mem_parts hp).trans_le (h.le_of_contains htop.below)
      refine ⟨h.contains_trans hap htop.below, hlt.ne, htop.onCycle, ?_⟩
      intro m ham hne hmd hmd'
      obtain ⟨q, hq, hqm⟩ := h.exists_part_contains ham hne
      obtain rfl := h.eq_of_contains hq hp (h.contains_trans hqm hmd) htop.below
      by_cases hm : q = m
      · exact hm ▸ hno
      · exact htop.top m hqm hm hmd hmd'

/-- Every artifact on a cycle below `a` lies in a topmost one. -/
theorem WellFormed.exists_cycleTop (h : t.WellFormed) (hbelow : t.contains a d = true)
    (hne : a ≠ d) (hcycle : t.OnCycle d) :
    ∃ e, t.CycleTop a e ∧ t.contains e d = true := by
  induction a using h.wellFounded_parts.induction with
  | _ a ih =>
      obtain ⟨p, hp, hpd⟩ := h.exists_part_contains hbelow hne
      by_cases hon : t.OnCycle p
      · exact ⟨p, h.cycleTop_iff.mpr ⟨p, hp, .inl ⟨hon, rfl⟩⟩, hpd⟩
      · have hpne : p ≠ d := fun heq => hon (heq ▸ hcycle)
        obtain ⟨e, he, hed⟩ := ih p hp hpd hpne
        exact ⟨e, h.cycleTop_iff.mpr ⟨p, hp, .inr ⟨hon, he⟩⟩, hed⟩

/-- No topmost artifact on a cycle lies in another one. -/
theorem CycleTop.eq_of_contains {e : Nat} (hd : t.CycleTop a d) (he : t.CycleTop a e)
    (hde : t.contains d e = true) : d = e := by
  by_contra hne
  exact he.top d hd.below hd.ne hde hne hd.onCycle

/-! ## Component numbers on cycles -/

/-- An element of a list without repetitions is not the only one with a property
exactly when another one has it. -/
theorem one_lt_countP_iff {α : Type} [DecidableEq α] {P : α → Bool} {l : List α} {x : α}
    (hl : l.Nodup) (hx : x ∈ l) (hP : P x = true) :
    1 < l.countP P ↔ ∃ y ∈ l, y ≠ x ∧ P y = true := by
  rw [(List.perm_cons_erase hx).countP_eq, List.countP_cons, if_pos hP, Nat.lt_add_left_iff_pos,
    List.countP_pos_iff]
  exact exists_congr fun y => by rw [hl.mem_erase_iff, and_comm (a := y ≠ x), and_assoc]

theorem componentNumber_eq_none (h : t.isSymbol p = false) (hp : p < t.size) :
    ((t.measureAllWith choices).metrics p).componentNumber = none := by
  rw [metrics_measureAllWith choices t hp, componentNumber_measure, componentNumber?, h]
  rfl

/-- Where no symbol depends on itself, a symbol shares its component number with another
part of its scope exactly when it is on a cycle. -/
theorem WellFormed.exists_number_eq_iff (h : t.WellFormed) (hchoices : (choices s).Lawful)
    (hloop : ∀ b, ¬ t.SiblingEdge s b b) (hmem : p ∈ t.symbolParts s) :
    (∃ q ∈ t.parts s, q ≠ p ∧ ((t.measureAllWith choices).metrics q).componentNumber =
      ((t.measureAllWith choices).metrics p).componentNumber) ↔
      TransGen (t.SiblingEdge s) p p := by
  have horder := h.sourceOrder_number hchoices
  rw [h.componentNumber_eq hmem]
  constructor
  · rintro ⟨q, hq, hne, hnumber⟩
    have hqmem : q ∈ t.symbolParts s := by
      refine mem_symbolParts.mpr ⟨hq, ?_⟩
      by_contra hqsymbol
      rw [componentNumber_eq_none (Bool.eq_false_iff.mpr hqsymbol)
        (h.lt_size_of_mem_parts hq)] at hnumber
      cases hnumber
    rw [h.componentNumber_eq hqmem, Option.some_inj, horder.number_eq_iff q hqmem p hmem]
      at hnumber
    rcases hnumber with rfl | ⟨hqp, hpq⟩
    · exact absurd rfl hne
    · exact hpq.trans hqp
  · intro hcycle
    obtain ⟨q, hpq, hqp⟩ := TransGen.head'_iff.mp hcycle
    have hne : q ≠ p := fun heq => hloop p (heq ▸ hpq)
    have hqp : TransGen (t.SiblingEdge s) q p :=
      (reflTransGen_iff_eq_or_transGen.mp hqp).resolve_left hne.symm
    refine ⟨q, (mem_symbolParts.mp hpq.2.1).1, hne, ?_⟩
    rw [h.componentNumber_eq hpq.2.1, Option.some_inj, horder.number_eq_iff q hpq.2.1 p hmem]
    exact .inr ⟨hqp, .single hpq⟩

/-- Measuring finds a part on a cycle exactly where there is one. -/
theorem WellFormed.isOnCycle_iff (h : t.WellFormed) (hchoices : (choices s).Lawful)
    (hloop : ∀ b, ¬ t.SiblingEdge s b b) (hp : p ∈ t.parts s) :
    Metrics.isOnCycle ((t.parts s).map (t.measureAllWith choices).metrics)
      ((t.measureAllWith choices).metrics p) = true ↔ t.OnCycle p := by
  rw [h.onCycle_iff hp]
  cases hsymbol : t.isSymbol p with
  | false =>
      have hnone : ((t.measureAllWith choices).metrics p).componentNumber = none :=
        componentNumber_eq_none hsymbol (h.lt_size_of_mem_parts hp)
      rw [Metrics.isOnCycle, hnone]
      simp only [Bool.false_eq_true, false_iff]
      intro hcycle
      simp [((h.onCycle_iff hp).mpr hcycle).isSymbol] at hsymbol
  | true =>
      have hmem : p ∈ t.symbolParts s := mem_symbolParts.mpr ⟨hp, hsymbol⟩
      have hnumber : ((t.measureAllWith choices).metrics p).componentNumber =
          some ((t.measureAllWith choices).number p) := h.componentNumber_eq hmem
      rw [← h.exists_number_eq_iff hchoices hloop hmem, Metrics.isOnCycle, hnumber]
      simp only [decide_eq_true_eq, List.countP_map]
      rw [one_lt_countP_iff (h.nodup_parts s) hp (by simp [hnumber])]
      simp only [Function.comp_apply, beq_iff_eq]

/-! ## Adding up -/

/-- The measures of an artifact are made from those of its parts. -/
theorem WellFormed.metrics_eq (h : t.WellFormed) (ha : a < t.size) :
    (t.measureAllWith choices).metrics a =
      t.measureFrom (t.componentNumber? (t.componentTable choices) a) a
        ((t.parts a).map (t.measureAllWith choices).metrics) := by
  rw [metrics_measureAllWith choices t ha, measure, h.fold_eq]
  congr 1
  refine List.map_congr_left fun p hp => ?_
  rw [metrics_measureAllWith choices t (h.lt_size_of_mem_parts hp), measure]

open Classical in
/-- The topmost artifacts on cycles below an artifact, by their numbers. -/
noncomputable def cycleTops (t : Tree) (a : Nat) : List Nat :=
  (List.range t.size).filter fun d => t.CycleTop a d

theorem mem_cycleTops : d ∈ t.cycleTops a ↔ t.CycleTop a d := by
  simp only [cycleTops, List.mem_filter, List.mem_range, decide_eq_true_eq, and_iff_right_iff_imp]
  rintro ⟨-, -, ⟨s, hs, -⟩, -⟩
  exact lt_size_of_scopeOf? hs

theorem nodup_cycleTops (t : Tree) (a : Nat) : (t.cycleTops a).Nodup :=
  List.nodup_range.filter _

open Classical in
theorem WellFormed.perm_cycleTops (h : t.WellFormed) (a : Nat) :
    (t.cycleTops a).Perm
      ((t.parts a).flatMap fun p => if t.OnCycle p then [p] else t.cycleTops p) := by
  have hmem : ∀ {p d}, d ∈ (if t.OnCycle p then [p] else t.cycleTops p) ↔
      t.OnCycle p ∧ d = p ∨ ¬ t.OnCycle p ∧ t.CycleTop p d := by
    intro p d
    split
    · rename_i hp
      simp [hp]
    · rename_i hp
      simp [hp, mem_cycleTops]
  have hbelow : ∀ {p d}, d ∈ (if t.OnCycle p then [p] else t.cycleTops p) →
      t.contains p d = true := by
    intro p d hd
    rcases hmem.mp hd with ⟨-, rfl⟩ | ⟨-, htop⟩
    · exact h.contains_self d
    · exact htop.below
  refine (List.perm_ext_iff_of_nodup (nodup_cycleTops t a) ?_).mpr fun d => ?_
  · refine List.nodup_flatMap.mpr ⟨fun p _ => ?_, ?_⟩
    · split
      · exact List.nodup_singleton p
      · exact nodup_cycleTops t p
    · refine (h.nodup_parts a).imp_of_mem fun {p q} hp hq hne d hpd hqd => hne ?_
      exact h.eq_of_contains hp hq (hbelow hpd) (hbelow hqd)
  · rw [mem_cycleTops, h.cycleTop_iff, List.mem_flatMap]
    exact exists_congr fun p => and_congr_right fun _ => hmem.symm

/-- Measuring adds up the lines of the topmost artifacts on cycles. -/
theorem WellFormed.linesInCycles_eq (h : t.WellFormed) (hchoices : ∀ s, (choices s).Lawful)
    (hloop : ∀ s b, ¬ t.SiblingEdge s b b) (ha : a < t.size) :
    ((t.measureAllWith choices).metrics a).linesOfCodeOfPartsInCycles =
      some (total (fun d => ((t.measureAllWith choices).metrics d).lines) (t.cycleTops a)) := by
  classical
  induction a using h.wellFounded_parts.induction with
  | _ a ih =>
      have hparts : ((t.measureAllWith choices).metrics a).linesOfCodeOfPartsInCycles =
          some (Metrics.linesInCycles ((t.parts a).map (t.measureAllWith choices).metrics)) := by
        rw [h.metrics_eq ha]
        rfl
      rw [hparts, Metrics.linesInCycles, total_map, total_perm _ (h.perm_cycleTops a),
        total_flatMap]
      refine congrArg some (total_congr fun p hp => ?_)
      have hiff := h.isOnCycle_iff (hchoices a) (hloop a) hp
      by_cases hon : t.OnCycle p
      · rw [if_pos (hiff.mpr hon), if_pos hon]
        simp
      · rw [if_neg (fun hp => hon (hiff.mp hp)), if_neg hon,
          ih p hp (h.lt_size_of_mem_parts hp)]
        rfl

/-! ## Main statement -/

/-- Computing the metrics of a tree that has none counts for every artifact the lines of
the topmost artifacts on cycles below it, each once. So whatever is on a cycle below an
artifact is counted, and no line is counted again for a cycle inside another one. -/
theorem computeMetrics_counts_topmost_cycles {f : Folder} {cs : List Change} (h : History f cs t)
    (hcs : Change.computeMetrics ∉ cs) (hchoices : ∀ s, (choices s).Lawful) :
    ∃ t', t.computeMetricsWith choices = .ok t' ∧ ∀ a < t.size,
      ∃ tops : List Nat, tops.Nodup ∧
        (∀ d, d ∈ tops ↔ t.isSymbol d = true ∧ t.contains a d = true ∧ a ≠ d ∧ t.OnCycle d ∧
          ∀ m, t.contains a m = true → a ≠ m → t.contains m d = true → m ≠ d → ¬ t.OnCycle m) ∧
        (t'.metrics a).linesOfCodeOfPartsInCycles =
          some (total (fun d => (t'.metrics d).lines) tops) ∧
        (∀ d ∈ tops, (t'.metrics d).linesOfCode = some (t'.metrics d).lines) ∧
        (∀ d, t.contains a d = true → a ≠ d → t.OnCycle d →
          ∃ e ∈ tops, t.contains e d = true) ∧
        ∀ d ∈ tops, ∀ e ∈ tops, t.contains d e = true → d = e := by
  have hwf := h.wellFormed
  refine ⟨t.measureAllWith choices, h.computeMetricsWith_eq_ok hcs choices, fun a ha => ?_⟩
  refine ⟨t.cycleTops a, nodup_cycleTops t a, fun d => ?_,
    hwf.linesInCycles_eq hchoices h.not_siblingEdge_self ha, ?_, ?_, ?_⟩
  · rw [mem_cycleTops]
    constructor
    · intro hd
      exact ⟨hd.onCycle.isSymbol, hd.below, hd.ne, hd.onCycle, hd.top⟩
    · rintro ⟨-, hbelow, hne, hcycle, htop⟩
      exact ⟨hbelow, hne, hcycle, htop⟩
  · intro d hd
    obtain ⟨s, hs, -⟩ := (mem_cycleTops.mp hd).onCycle
    rw [Metrics.lines, hwf.metrics_eq (lt_size_of_scopeOf? hs)]
    rfl
  · intro d hbelow hne hcycle
    obtain ⟨e, he, hed⟩ := hwf.exists_cycleTop hbelow hne hcycle
    exact ⟨e, mem_cycleTops.mpr he, hed⟩
  · intro d hd e he hde
    exact (mem_cycleTops.mp hd).eq_of_contains (mem_cycleTops.mp he) hde

/-- The functions 9 and 12 call each other, so the cycle inside 9 counts for 9 only. -/
theorem computeMetrics_counts_topmost_cycles_nestedTree :
    ∃ t', nestedTree.computeMetricsWith (fun _ => .standard) = .ok t' ∧
      (t'.metrics root).linesOfCodeOfPartsInCycles = some 33 ∧
      (t'.metrics 9).linesOfCodeOfPartsInCycles = some 6 ∧
      (nestedTree.OnCycle 9 ∧ nestedTree.OnCycle 10) ∧
      ∃ tops : List Nat, (∃ e ∈ tops, nestedTree.contains e 9 = true) ∧ 10 ∉ tops ∧
        some 15 = some (total (fun d => (t'.metrics d).lines) tops) := by
  have h : History nestedFolder (nestedOutlines ++ nestedCalls) nestedTree :=
    history_run (by decide +kernel)
  have hcs : Change.computeMetrics ∉ nestedOutlines ++ nestedCalls := by
    simp [nestedOutlines, nestedCalls]
  obtain ⟨t', hok, hcount⟩ :=
    computeMetrics_counts_topmost_cycles h hcs fun _ => lawful_standard
  obtain rfl : nestedTree.measureAllWith (fun _ => .standard) = t' :=
    Except.ok.inj ((h.computeMetricsWith_eq_ok hcs _).symm.trans hok)
  have hpair : ∀ {s a b}, nestedTree.SiblingEdge s a b → nestedTree.SiblingEdge s b a →
      TransGen (nestedTree.SiblingEdge s) a a := fun hab hba => .tail (.single hab) hba
  have hnine : nestedTree.OnCycle 9 := ⟨3, by decide +kernel,
    hpair (b := 12) (by decide +kernel) (by decide +kernel)⟩
  have hten : nestedTree.OnCycle 10 := ⟨9, by decide +kernel,
    hpair (b := 11) (by decide +kernel) (by decide +kernel)⟩
  obtain ⟨tops, -, hmem, hlines, -, hcovered, -⟩ := hcount 3 (by decide +kernel)
  refine ⟨_, hok, by decide +kernel, by decide +kernel, ⟨hnine, hten⟩, tops,
    hcovered 9 (by decide +kernel) (by decide) hnine, ?_, ?_⟩
  · intro htop
    exact ((hmem 10).mp htop).2.2.2.2 9 (by decide +kernel) (by decide) (by decide +kernel)
      (by decide) hnine
  · rw [← hlines]
    decide +kernel

end Tree

end SourceAtlas
