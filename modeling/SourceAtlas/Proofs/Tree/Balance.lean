import SourceAtlas.Proofs.Tree.Cycles
/-!
# The balance of dependencies

Every dependency goes out of one symbol and comes into another one, so among artifacts
that hold both of its ends or none of them the two counts agree (`WellFormed.balance_links`).
The symbols of one scope are such artifacts for the dependencies within scopes, and all
symbols of a tree for those across scopes.

In a measured tree the measures of every artifact are made from those of its parts
(`AddsUp`). From the parts up, files and folders therefore show no difference, and what
comes in adds up to the dependencies below them (`AddsUp.incoming_eq_countP`).
-/

namespace SourceAtlas

/-! ## Counting -/

/-- Elements that each belong to exactly one of some classes are counted class by class. -/
theorem countP_eq_total {α β : Type} [DecidableEq α] {P : β → Bool} {Q : α → β → Bool}
    {as : List α} {bs : List β} (hnodup : as.Nodup)
    (hiff : ∀ b ∈ bs, P b = true ↔ ∃ a ∈ as, Q a b = true)
    (hunique : ∀ b ∈ bs, ∀ a ∈ as, ∀ a' ∈ as, Q a b = true → Q a' b = true → a = a') :
    bs.countP P = total (fun a => bs.countP (Q a)) as := by
  induction bs with
  | nil =>
      clear hiff hunique hnodup
      induction as with
      | nil => rfl
      | cons a as ih => simpa using ih
  | cons b bs ih =>
      have ih := ih (fun c hc => hiff c (List.mem_cons_of_mem b hc))
        fun c hc => hunique c (List.mem_cons_of_mem b hc)
      have hb : as.countP (fun a => Q a b) = if P b then 1 else 0 := by
        split
        · rename_i hP
          obtain ⟨a, ha, hab⟩ := (hiff b List.mem_cons_self).mp hP
          rw [← List.count_eq_one_of_mem hnodup ha]
          refine List.countP_congr fun a' ha' => ?_
          rw [beq_iff_eq]
          exact ⟨fun h => hunique b List.mem_cons_self a' ha' a ha h hab, fun h => h ▸ hab⟩
        · rename_i hP
          rw [List.countP_eq_zero]
          exact fun a ha hab => hP ((hiff b List.mem_cons_self).mpr ⟨a, ha, hab⟩)
      have hsplit : (fun a => (b :: bs).countP (Q a)) =
          fun a => bs.countP (Q a) + if Q a b then 1 else 0 := funext fun a => List.countP_cons
      rw [List.countP_cons, ih, hsplit, total_add, total_eq_countP, hb]

/-- What a list without repetitions names is counted in another one that holds it. -/
theorem length_eq_countP {α β : Type} {named : List α} {all : List β} {name : α → β}
    {P : β → Bool} (hnamed : named.Nodup) (hall : all.Nodup) (hname : Function.Injective name)
    (hmem : ∀ b, b ∈ all ∧ P b = true ↔ ∃ a ∈ named, name a = b) :
    named.length = all.countP P := by
  have hperm : (all.filter P).Perm (named.map name) := by
    refine (List.perm_ext_iff_of_nodup (hall.filter _) (hnamed.map hname)).mpr fun b => ?_
    rw [List.mem_filter, List.mem_map, hmem]
  rw [List.countP_eq_length_filter, hperm.length_eq, List.length_map]

namespace Tree

variable {t : Tree} {choices : Nat → Graph.Choices} {a d p r s : Nat} {k : EdgeClass}
  {cs : List Change}

/-! ## Dependencies by their ends -/

theorem WellFormed.length_outgoing (h : t.WellFormed) (hrec : Records cs t) (r : Nat)
    (k : EdgeClass) :
    ((t.links r).outgoing k).length = (t.edgesOf k).countP fun e => e.1 == r := by
  refine length_eq_countP (hrec.ascending_outgoing r k).nodup
    (h.nodup_edgesOf hrec.ascending_outgoing k) (Prod.mk_right_injective r) ?_
  rintro ⟨r', d⟩
  rw [h.mem_edgesOf, beq_iff_eq]
  constructor
  · rintro ⟨hd, rfl⟩
    exact ⟨d, hd, rfl⟩
  · rintro ⟨d', hd, heq⟩
    obtain ⟨rfl, rfl⟩ := Prod.mk.inj heq
    exact ⟨hd, rfl⟩

theorem WellFormed.length_incoming (h : t.WellFormed) (hrec : Records cs t) (d : Nat)
    (k : EdgeClass) :
    ((t.links d).incoming k).length = (t.edgesOf k).countP fun e => e.2 == d := by
  refine length_eq_countP (hrec.ascending_incoming d k).nodup
    (h.nodup_edgesOf hrec.ascending_outgoing k) (Prod.mk_left_injective d) ?_
  rintro ⟨r, d'⟩
  rw [h.mem_edgesOf, beq_iff_eq, hrec.mem_outgoing]
  constructor
  · rintro ⟨hr, rfl⟩
    exact ⟨r, (hrec.mem_incoming r d' k).mpr hr, rfl⟩
  · rintro ⟨r', hr, heq⟩
    obtain ⟨rfl, rfl⟩ := Prod.mk.inj heq
    exact ⟨(hrec.mem_incoming r' d k).mp hr, rfl⟩

/-- What goes out of some artifacts are the dependencies that start there. -/
theorem WellFormed.total_outgoing (h : t.WellFormed) (hrec : Records cs t) (k : EdgeClass)
    {l : List Nat} (hl : l.Nodup) :
    total (fun p => ((t.links p).outgoing k).length) l =
      (t.edgesOf k).countP fun e => decide (e.1 ∈ l) := by
  rw [total_congr fun p _ => h.length_outgoing hrec p k]
  refine (countP_eq_total hl (fun e _ => ?_) fun e _ p _ q _ hp hq => ?_).symm
  · simp
  · rw [← beq_iff_eq.mp hp, beq_iff_eq.mp hq]

/-- What comes into some artifacts are the dependencies that end there. -/
theorem WellFormed.total_incoming (h : t.WellFormed) (hrec : Records cs t) (k : EdgeClass)
    {l : List Nat} (hl : l.Nodup) :
    total (fun p => ((t.links p).incoming k).length) l =
      (t.edgesOf k).countP fun e => decide (e.2 ∈ l) := by
  rw [total_congr fun p _ => h.length_incoming hrec p k]
  refine (countP_eq_total hl (fun e _ => ?_) fun e _ p _ q _ hp hq => ?_).symm
  · simp
  · rw [← beq_iff_eq.mp hp, beq_iff_eq.mp hq]

/-- Among artifacts that hold both ends of a dependency or none of them, what goes out
comes in. -/
theorem WellFormed.balance_links (h : t.WellFormed) (hrec : Records cs t) {l : List Nat}
    (hl : l.Nodup) (hends : ∀ e ∈ t.edgesOf k, e.1 ∈ l ↔ e.2 ∈ l) :
    balance (fun p => (((t.links p).outgoing k).length : Int) - ((t.links p).incoming k).length) l
      = 0 := by
  have hcount : (t.edgesOf k).countP (fun e => decide (e.1 ∈ l)) =
      (t.edgesOf k).countP fun e => decide (e.2 ∈ l) :=
    List.countP_congr fun e he => by simpa using hends e he
  rw [balance_sub, h.total_outgoing hrec k hl, h.total_incoming hrec k hl, hcount, Int.sub_self]

theorem Records.classify?_of_mem (hrec : Records cs t) (h : t.WellFormed) {e : Nat × Nat}
    (he : e ∈ t.edgesOf k) : t.classify? e.1 e.2 = some k :=
  ((hrec.mem_outgoing e.1 e.2 k).mp ((h.mem_edgesOf k e).mp he)).2

/-- A dependency within a scope joins two parts of one artifact. -/
theorem WellFormed.mem_symbolParts_iff_of_mem (h : t.WellFormed) (hrec : Records cs t)
    {e : Nat × Nat} (he : e ∈ t.edgesOf .inScope) (s : Nat) :
    e.1 ∈ t.symbolParts s ↔ e.2 ∈ t.symbolParts s := by
  obtain ⟨hr, hd, -, -, hscope⟩ := classify?_eq_some_iff.mp (hrec.classify?_of_mem h he)
  rw [mem_symbolParts, mem_symbolParts, h.mem_parts_iff, h.mem_parts_iff, hscope.mp rfl, hr, hd]

theorem WellFormed.mem_symbolIds_of_mem (h : t.WellFormed) (hrec : Records cs t) {e : Nat × Nat}
    (he : e ∈ t.edgesOf k) : e.1 ∈ t.symbolIds ∧ e.2 ∈ t.symbolIds := by
  obtain ⟨hr, hd, -⟩ := classify?_eq_some_iff.mp (hrec.classify?_of_mem h he)
  exact ⟨h.mem_symbolIds.mpr hr, h.mem_symbolIds.mpr hd⟩

/-! ## Measures of measured trees -/

/-- Every artifact has the measures that are made from those of its parts. -/
def AddsUp (t : Tree) : Prop :=
  ∀ a < t.size, ∃ number, t.metrics a = t.measureFrom number a ((t.parts a).map t.metrics)

theorem measureFrom_measureAllWith (choices : Nat → Graph.Choices) (t : Tree)
    (number : Option Nat) (a : Nat) (parts : List Metrics) :
    (t.measureAllWith choices).measureFrom number a parts = t.measureFrom number a parts := by
  have hlines : ((t.measureAllWith choices).get? a).bind Artifact.ownLines =
      (t.get? a).bind Artifact.ownLines := by
    rw [get?_measureAllWith]
    cases t.get? a <;> rfl
  simp only [measureFrom, links_measureAllWith, hlines,
    isSymbol_congr (origin?_measureAllWith choices t a)]

theorem WellFormed.addsUp_measureAllWith (h : t.WellFormed) (choices : Nat → Graph.Choices) :
    (t.measureAllWith choices).AddsUp := by
  intro a ha
  rw [size_measureAllWith] at ha
  exact ⟨_, by rw [measureFrom_measureAllWith, parts_measureAllWith, h.metrics_eq ha]⟩

namespace AddsUp

theorem of_isSymbol (h : t.AddsUp) (hp : t.isSymbol p = true) :
    (t.metrics p).incomingDependenciesInScope = some (t.links p).incomingInScope.length ∧
    (t.metrics p).dependencyDifferenceScope =
      some (((t.links p).outgoingInScope.length : Int) - (t.links p).incomingInScope.length) ∧
    (t.metrics p).dependencyDifferenceExternal =
      some (((t.links p).outgoingExternal.length : Int) - (t.links p).incomingExternal.length) := by
  obtain ⟨number, hp'⟩ := h p (lt_size_of_isSymbol hp)
  rw [hp']
  simp [measureFrom, hp]

/-- What is no symbol adds up the dependencies of its parts. -/
theorem of_not_isSymbol (h : t.AddsUp) (ha : a < t.size) (hsymbol : t.isSymbol a = false) :
    (t.metrics a).incomingDependenciesInScope =
      some (total (fun p => (t.metrics p).incomingDependenciesInScope.getD 0) (t.parts a)) ∧
    (t.metrics a).dependencyDifferenceScope =
      some (balance (fun p => (t.metrics p).dependencyDifferenceScope.getD 0) (t.parts a)) ∧
    (t.metrics a).dependencyDifferenceExternal =
      some (balance (fun p => (t.metrics p).dependencyDifferenceExternal.getD 0) (t.parts a)) := by
  obtain ⟨number, ha'⟩ := h a ha
  rw [ha']
  simp [measureFrom, hsymbol, total_map, balance_map]

/-- Among the symbols of one scope the differences cancel out. -/
theorem balance_symbolParts (h : t.AddsUp) (hwf : t.WellFormed) (hrec : Records cs t) (s : Nat) :
    balance (fun p => (t.metrics p).dependencyDifferenceScope.getD 0) (t.symbolParts s) = 0 := by
  rw [← hwf.balance_links hrec (hwf.nodup_symbolParts s)
    fun e he => hwf.mem_symbolParts_iff_of_mem hrec he s]
  refine balance_congr fun p hp => ?_
  rw [(h.of_isSymbol (mem_symbolParts.mp hp).2).2.1]
  rfl

/-- What is no symbol has no difference within scopes. -/
theorem differenceScope_eq_zero (h : t.AddsUp) (hwf : t.WellFormed) (hrec : Records cs t)
    (ha : a < t.size) (hsymbol : t.isSymbol a = false) :
    (t.metrics a).dependencyDifferenceScope = some 0 := by
  induction a using hwf.wellFounded_parts.induction with
  | _ a ih =>
      have hrest : balance (fun p => (t.metrics p).dependencyDifferenceScope.getD 0)
          ((t.parts a).filter fun p => !t.isSymbol p) = 0 := by
        refine balance_eq_zero fun p hp => ?_
        obtain ⟨hp, hkind⟩ := List.mem_filter.mp hp
        rw [ih p hp (hwf.lt_size_of_mem_parts hp) (by simpa using hkind)]
        rfl
      rw [(h.of_not_isSymbol ha hsymbol).2.1, balance_filter _ t.isSymbol, hrest]
      exact congrArg some ((Int.add_zero _).trans (h.balance_symbolParts hwf hrec a))

theorem total_incoming_symbolIds (h : t.AddsUp) (hwf : t.WellFormed) (hrec : Records cs t) :
    total (fun p => (t.metrics p).incomingDependenciesInScope.getD 0) t.symbolIds =
      t.stats.scopeEdges := by
  have hlinks : ∀ p ∈ t.symbolIds, (t.metrics p).incomingDependenciesInScope.getD 0 =
      ((t.links p).incoming .inScope).length := fun p hp => by
    rw [(h.of_isSymbol (hwf.mem_symbolIds.mp hp)).1]
    rfl
  rw [total_congr hlinks, hwf.total_incoming hrec .inScope hwf.nodup_symbolIds]
  refine (List.countP_eq_length.mpr fun e he => ?_).trans (length_edgesOf t .inScope)
  exact decide_eq_true (hwf.mem_symbolIds_of_mem hrec he).2

theorem balance_external_symbolIds (h : t.AddsUp) (hwf : t.WellFormed) (hrec : Records cs t) :
    balance (fun p => (t.metrics p).dependencyDifferenceExternal.getD 0) t.symbolIds = 0 := by
  rw [← hwf.balance_links (k := .external) hrec hwf.nodup_symbolIds fun e he =>
    iff_of_true (hwf.mem_symbolIds_of_mem hrec he).1 (hwf.mem_symbolIds_of_mem hrec he).2]
  refine balance_congr fun p hp => ?_
  rw [(h.of_isSymbol (hwf.mem_symbolIds.mp hp)).2.2]
  rfl

end AddsUp

/-! ## Dependencies below files and folders -/

theorem WellFormed.isSymbol_of_contains (h : t.WellFormed) (hps : t.contains p s = true)
    (hp : t.isSymbol p = true) : t.isSymbol s = true := by
  induction h.contains_iff.mp hps using Relation.ReflTransGen.head_induction_on with
  | refl => exact hp
  | head hstep hrest ih =>
      exact h.isSymbol_of_scope _ _ hstep (.inr (ih (h.contains_iff.mpr hrest)))

theorem isSymbol_eq_false_iff (hs : s < t.size) :
    t.isSymbol s = false ↔ t.isFile s = true ∨ t.isFolder s = true := by
  constructor
  · intro hsymbol
    rcases kind_cases hs with hfolder | hfile | hkind
    · exact .inr hfolder
    · exact .inl hfile
    · rw [hsymbol] at hkind
      cases hkind
  · rintro (hfile | hfolder)
    · exact not_isSymbol_of_isFile hfile
    · exact Bool.eq_false_iff.mpr fun hsymbol =>
        not_isFile_or_isSymbol_of_isFolder hfolder (.inr hsymbol)

/-- Whether a symbol is a part of a file or a folder that `a` contains. -/
def liesBelow (t : Tree) (a d : Nat) : Bool :=
  (t.scopeOf? d).any fun s => !t.isSymbol s && t.contains a s

theorem liesBelow_eq_true_iff :
    t.liesBelow a d = true ↔ ∃ s, t.PartOf d s ∧ t.isSymbol s = false ∧ t.contains a s = true := by
  simp [liesBelow, PartOf, Option.any_eq_true]

/-- The symbols below an artifact that is none are its own ones and those below its
other parts. -/
theorem WellFormed.liesBelow_iff (h : t.WellFormed) (ha : t.isSymbol a = false)
    (hd : t.isSymbol d = true) :
    t.liesBelow a d = true ↔
      ∃ p ∈ t.parts a, (if t.isSymbol p then d == p else t.liesBelow p d) = true := by
  rw [liesBelow_eq_true_iff]
  constructor
  · rintro ⟨s, hs, hsymbol, has⟩
    by_cases heq : a = s
    · subst heq
      exact ⟨d, (h.mem_parts_iff a d).mpr hs, by simp [hd]⟩
    · obtain ⟨p, hp, hps⟩ := h.exists_part_contains has heq
      have hpsymbol : t.isSymbol p = false := by
        by_contra hne
        rw [h.isSymbol_of_contains hps (Bool.not_eq_false _ ▸ hne)] at hsymbol
        cases hsymbol
      refine ⟨p, hp, ?_⟩
      rw [hpsymbol]
      exact liesBelow_eq_true_iff.mpr ⟨s, hs, hsymbol, hps⟩
  · rintro ⟨p, hp, hpd⟩
    split at hpd
    · rw [beq_iff_eq.mp hpd]
      exact ⟨a, (h.mem_parts_iff a p).mp hp, ha, h.contains_self a⟩
    · obtain ⟨s, hs, hsymbol, hps⟩ := liesBelow_eq_true_iff.mp hpd
      exact ⟨s, hs, hsymbol, h.contains_trans (h.contains_of_mem_parts hp) hps⟩

theorem WellFormed.contains_of_liesBelow (h : t.WellFormed)
    (hpd : (if t.isSymbol p then d == p else t.liesBelow p d) = true) : t.contains p d = true := by
  split at hpd
  · rw [beq_iff_eq.mp hpd]
    exact h.contains_self p
  · obtain ⟨s, hs, -, hps⟩ := liesBelow_eq_true_iff.mp hpd
    exact h.contains_trans hps (h.contains_of_mem_parts ((h.mem_parts_iff s d).mpr hs))

/-- What is no symbol counts the dependencies within scopes below it. -/
theorem AddsUp.incoming_eq_countP (h : t.AddsUp) (hwf : t.WellFormed) (hrec : Records cs t)
    (ha : a < t.size) (hsymbol : t.isSymbol a = false) :
    (t.metrics a).incomingDependenciesInScope =
      some ((t.edgesOf .inScope).countP fun e => t.liesBelow a e.2) := by
  induction a using hwf.wellFounded_parts.induction with
  | _ a ih =>
      have hparts : ∀ p ∈ t.parts a, (t.metrics p).incomingDependenciesInScope.getD 0 =
          (t.edgesOf .inScope).countP fun e =>
            if t.isSymbol p then e.2 == p else t.liesBelow p e.2 := by
        intro p hp
        cases hkind : t.isSymbol p with
        | true =>
            rw [(h.of_isSymbol hkind).1]
            exact hwf.length_incoming hrec p .inScope
        | false =>
            rw [ih p hp (hwf.lt_size_of_mem_parts hp) hkind]
            rfl
      rw [(h.of_not_isSymbol ha hsymbol).1, total_congr hparts]
      refine congrArg some (countP_eq_total (hwf.nodup_parts a) (fun e he => ?_) ?_).symm
      · have hd := (classify?_eq_some_iff.mp (hrec.classify?_of_mem hwf he)).2.1
        exact hwf.liesBelow_iff hsymbol hd
      · exact fun e _ p hp q hq hpe hqe => hwf.eq_of_contains hp hq
          (hwf.contains_of_liesBelow hpe) (hwf.contains_of_liesBelow hqe)

/-- The dependencies within a file or a folder that `a` contains. -/
def EdgeBelow (t : Tree) (a : Nat) (e : Nat × Nat) : Prop :=
  e.2 ∈ (t.links e.1).outgoing .inScope ∧ ∃ s, t.PartOf e.1 s ∧ t.PartOf e.2 s ∧
    (t.isFile s = true ∨ t.isFolder s = true) ∧ t.contains a s = true

theorem WellFormed.ncard_edgeBelow (h : t.WellFormed) (hrec : Records cs t) (a : Nat) :
    {e | t.EdgeBelow a e}.ncard = (t.edgesOf .inScope).countP fun e => t.liesBelow a e.2 := by
  have hset : {e | t.EdgeBelow a e} =
      ((t.edgesOf .inScope).filter fun e => t.liesBelow a e.2).toFinset := by
    ext e
    simp only [Set.mem_ofPred_eq, EdgeBelow, List.coe_toFinset, List.mem_filter, h.mem_edgesOf,
      liesBelow_eq_true_iff]
    refine and_congr_right fun he => exists_congr fun s => ?_
    have hscope := (classify?_eq_some_iff.mp
      (hrec.classify?_of_mem h ((h.mem_edgesOf .inScope e).mpr he))).2.2.2.2.mp rfl
    rw [PartOf, PartOf, hscope]
    constructor
    · rintro ⟨-, hs, hkind, has⟩
      have hlt := (h.scope_lt _ _ hs).trans (lt_size_of_scopeOf? hs)
      exact ⟨hs, (isSymbol_eq_false_iff hlt).mpr hkind, has⟩
    · rintro ⟨hs, hkind, has⟩
      have hlt := (h.scope_lt _ _ hs).trans (lt_size_of_scopeOf? hs)
      exact ⟨hs, hs, (isSymbol_eq_false_iff hlt).mp hkind, has⟩
  rw [hset, Set.ncard_coe_finset,
    List.toFinset_card_of_nodup ((h.nodup_edgesOf hrec.ascending_outgoing _).filter _),
    List.countP_eq_length_filter]

/-! ## Main statement -/

/-- Right after the metrics of a tree were computed its dependencies balance. Every artifact
has its measures. The differences within scopes cancel out among the symbols of every scope,
so files and folders have none, and the differences across scopes cancel out over the whole
tree. What comes in within scopes adds up to the dependencies there are, and for a file or
a folder to those in the files and folders it contains. -/
theorem computeMetrics_balances_dependencies {f : Folder} {cs : List Change} (h : History f cs t)
    (hcs : Change.computeMetrics ∉ cs) (choices : Nat → Graph.Choices) :
    ∃ t', t.computeMetricsWith choices = .ok t' ∧
      (∀ a < t'.size, (t'.metrics a).incomingDependenciesInScope.isSome = true ∧
        (t'.metrics a).dependencyDifferenceScope.isSome = true ∧
        (t'.metrics a).dependencyDifferenceExternal.isSome = true) ∧
      (∀ s, balance (fun p => (t'.metrics p).dependencyDifferenceScope.getD 0)
        (t'.symbolParts s) = 0) ∧
      (∀ a, t'.isFile a = true ∨ t'.isFolder a = true →
        (t'.metrics a).dependencyDifferenceScope = some 0) ∧
      total (fun p => (t'.metrics p).incomingDependenciesInScope.getD 0) t'.symbolIds =
        t'.stats.scopeEdges ∧
      balance (fun p => (t'.metrics p).dependencyDifferenceExternal.getD 0) t'.symbolIds = 0 ∧
      ∀ a, t'.isFile a = true ∨ t'.isFolder a = true →
        (t'.metrics a).incomingDependenciesInScope = some {e | t'.EdgeBelow a e}.ncard := by
  have hwf := h.wellFormed
  set t' := t.measureAllWith choices with ht'
  have hwf' : t'.WellFormed := hwf.congr (size_measureAllWith choices t)
    (origin?_measureAllWith choices t) fun i => .of_eq (parts_measureAllWith choices t i)
  have hext : Extends t t' :=
    ⟨(size_measureAllWith choices t).ge, fun i _ => origin?_measureAllWith choices t i⟩
  have hrec : Records (cs ++ [.computeMetrics]) t' :=
    h.records.of_links_eq hext (links_measureAllWith choices t) (by simp)
  have hadds : t'.AddsUp := hwf.addsUp_measureAllWith choices
  have hkind : ∀ a, t'.isFile a = true ∨ t'.isFolder a = true →
      a < t'.size ∧ t'.isSymbol a = false := by
    intro a ha
    have hlt : a < t'.size := ha.elim lt_size_of_isFile lt_size_of_isFolder
    exact ⟨hlt, (isSymbol_eq_false_iff hlt).mpr ha⟩
  refine ⟨t', h.computeMetricsWith_eq_ok hcs choices, fun a ha => ?_,
    hadds.balance_symbolParts hwf' hrec, fun a ha => ?_, hadds.total_incoming_symbolIds hwf' hrec,
    hadds.balance_external_symbolIds hwf' hrec, fun a ha => ?_⟩
  · obtain ⟨number, hnumber⟩ := hadds a ha
    rw [hnumber]
    exact ⟨rfl, rfl, rfl⟩
  · exact hadds.differenceScope_eq_zero hwf' hrec (hkind a ha).1 (hkind a ha).2
  · rw [hadds.incoming_eq_countP hwf' hrec (hkind a ha).1 (hkind a ha).2,
      hwf'.ncard_edgeBelow hrec a]

/-- Calls between the functions in a function are no calls in its file. -/
theorem computeMetrics_balances_dependencies_nestedTree :
    ∃ t', nestedTree.computeMetricsWith (fun _ => .standard) = .ok t' ∧
      balance (fun p => (t'.metrics p).dependencyDifferenceScope.getD 0) (t'.symbolParts 4) = 0 ∧
      (t'.metrics root).dependencyDifferenceScope = some 0 ∧ t'.stats.scopeEdges = 8 ∧
      total (fun p => (t'.metrics p).incomingDependenciesInScope.getD 0) t'.symbolIds = 8 ∧
      (t'.metrics 8).dependencyDifferenceExternal = some 1 ∧
      balance (fun p => (t'.metrics p).dependencyDifferenceExternal.getD 0) t'.symbolIds = 0 ∧
      {e | t'.EdgeBelow root e}.ncard = 4 := by
  have h : History nestedFolder (nestedOutlines ++ nestedCalls) nestedTree :=
    history_run (by decide +kernel)
  have hcs : Change.computeMetrics ∉ nestedOutlines ++ nestedCalls := by
    simp [nestedOutlines, nestedCalls]
  obtain ⟨t', hok, -, hparts, hscope, htotal, hexternal, hbelow⟩ :=
    computeMetrics_balances_dependencies h hcs fun _ => .standard
  obtain rfl : nestedTree.measureAllWith (fun _ => .standard) = t' :=
    Except.ok.inj ((h.computeMetricsWith_eq_ok hcs _).symm.trans hok)
  have hroot := hbelow root (.inr (by decide +kernel))
  have hfour : ((nestedTree.measureAllWith fun _ => .standard).metrics
      root).incomingDependenciesInScope = some 4 := by decide +kernel
  have hedges : (nestedTree.measureAllWith fun _ => .standard).stats.scopeEdges = 8 := by
    decide +kernel
  refine ⟨_, hok, hparts 4, hscope root (.inr (by decide +kernel)), hedges, htotal.trans hedges,
    by decide +kernel, hexternal, ?_⟩
  exact (Option.some.inj (hfour.symm.trans hroot)).symm

end Tree

end SourceAtlas
