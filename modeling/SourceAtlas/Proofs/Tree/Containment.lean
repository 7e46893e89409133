import Mathlib.Data.List.Nodup
import Mathlib.Logic.Relation
import Mathlib.Order.WellFounded
import SourceAtlas.Proofs.Tree.History
/-!
# Containment

In a well-formed tree containment is a finite tree below the root folder. So the
climb along the scopes and the walk down the parts come to an end by themselves, and
the bounds that `contains` and `fold` keep to never cut anything off
(`WellFormed.contains_eq`, `WellFormed.fold_eq`).

`contains_iff` reads containment as a chain of scopes. A walk visits what an artifact
contains, every artifact once (`WellFormed.mem_walk_iff`, `WellFormed.nodup_walk`),
and the walk from the root visits all there are.
-/

namespace SourceAtlas

namespace Tree

open Relation

variable {t : Tree} {a b c d p q s : Nat}

/-- An artifact is a part of another one by its scope. -/
def PartOf (t : Tree) (p s : Nat) : Prop := t.scopeOf? p = some s

instance (t : Tree) (p s : Nat) : Decidable (t.PartOf p s) :=
  inferInstanceAs (Decidable (_ = _))

/-! ## Climbing and descending end -/

/-- Climbing along the scopes ends. -/
theorem WellFormed.wellFounded_scope (h : t.WellFormed) :
    WellFounded fun s p => t.PartOf p s :=
  Subrelation.wf (fun {s p} hs => h.scope_lt p s hs) Nat.lt_wfRel.wf

/-- Descending along the parts ends, since parts are younger than their scope and no
artifact is younger than the last one. -/
theorem WellFormed.wellFounded_parts (h : t.WellFormed) :
    WellFounded fun p s => p ∈ t.parts s := by
  refine Subrelation.wf (fun {p s} hp => ?_) (InvImage.wf (fun s => t.size - s) Nat.lt_wfRel.wf)
  have hlt := h.scope_lt p s ((h.mem_parts_iff s p).mp hp)
  have hsize := h.lt_size_of_mem_parts hp
  exact Nat.sub_lt_sub_left (hlt.trans hsize) hlt

theorem WellFormed.map_youngerParts (h : t.WellFormed) (s : Nat) :
    (t.youngerParts s).map Subtype.val = t.parts s := by
  have hparts : ∀ p ∈ t.parts s, s < p ∧ p < t.size := fun p hp =>
    ⟨h.scope_lt p s ((h.mem_parts_iff s p).mp hp), h.lt_size_of_mem_parts hp⟩
  rw [youngerParts]
  generalize t.parts s = ps at hparts
  induction ps with
  | nil => rfl
  | cons p ps ih =>
      have ih := ih fun q hq => hparts q (List.mem_cons_of_mem p hq)
      rw [List.filterMap_cons, dif_pos (hparts p List.mem_cons_self), List.map_cons, ih]

/-- A fold takes every part into account. -/
theorem WellFormed.fold_eq {β : Type} (h : t.WellFormed) (f : Nat → List β → β) (s : Nat) :
    t.fold f s = f s ((t.parts s).map (t.fold f)) := by
  rw [fold, ← h.map_youngerParts s, List.map_map]
  rfl

/-- A fold depends on the parts only. -/
theorem WellFormed.fold_congr {β : Type} {u : Tree} (h : t.WellFormed) (hu : u.WellFormed)
    (hparts : ∀ s, u.parts s = t.parts s) (f : Nat → List β → β) (s : Nat) :
    u.fold f s = t.fold f s := by
  induction s using h.wellFounded_parts.induction with
  | _ s ih =>
      rw [h.fold_eq, hu.fold_eq, hparts]
      exact congrArg (f s) (List.map_congr_left ih)

theorem WellFormed.walk_eq (h : t.WellFormed) (s : Nat) :
    t.walk s = (t.parts s).flatMap t.walk ++ [s] := by
  rw [walk, h.fold_eq]
  rfl

theorem WellFormed.contains_eq (h : t.WellFormed) (c p : Nat) :
    t.contains c p = (c == p || (t.scopeOf? p).any (t.contains c)) := by
  rw [contains]
  by_cases hc : c = p
  · simp [hc]
  · cases hs : t.scopeOf? p with
    | none => simp [hc]
    | some s => simp [hc, h.scope_lt p s hs]

/-! ## Containment as a relation -/

/-- An artifact contains another one when a chain of scopes leads from this to that. -/
theorem WellFormed.contains_iff (h : t.WellFormed) :
    t.contains c p = true ↔ ReflTransGen t.PartOf p c := by
  induction p using h.wellFounded_scope.induction with
  | _ p ih =>
      rw [h.contains_eq, ReflTransGen.cases_head_iff, Bool.or_eq_true, beq_iff_eq, eq_comm]
      refine or_congr_right ?_
      rw [Option.any_eq_true]
      exact exists_congr fun s => and_congr_right fun hs => ih s hs

theorem WellFormed.contains_self (h : t.WellFormed) (p : Nat) : t.contains p p = true :=
  h.contains_iff.mpr .refl

theorem WellFormed.contains_trans (h : t.WellFormed) (hab : t.contains a b = true)
    (hbc : t.contains b c = true) : t.contains a c = true :=
  h.contains_iff.mpr ((h.contains_iff.mp hbc).trans (h.contains_iff.mp hab))

/-- What contains an artifact is no younger. -/
theorem WellFormed.le_of_contains (h : t.WellFormed) (hab : t.contains a b = true) : a ≤ b := by
  induction h.contains_iff.mp hab using ReflTransGen.head_induction_on with
  | refl => exact le_rfl
  | head hs _ ih => exact (ih (h.contains_iff.mpr ‹_›)).trans (h.scope_lt _ _ hs).le

theorem WellFormed.contains_antisymm (h : t.WellFormed) (hab : t.contains a b = true)
    (hba : t.contains b a = true) : a = b :=
  Nat.le_antisymm (h.le_of_contains hab) (h.le_of_contains hba)

/-- Of two artifacts around a third one, one is around the other: there is only one
way up. -/
theorem WellFormed.contains_or_contains (h : t.WellFormed) (ha : t.contains a d = true)
    (hb : t.contains b d = true) : t.contains a b = true ∨ t.contains b a = true := by
  rcases ReflTransGen.total_of_right_unique (fun _ _ _ hs hs' => Option.some.inj (hs.symm.trans hs'))
    (h.contains_iff.mp ha) (h.contains_iff.mp hb) with hab | hba
  · exact .inr (h.contains_iff.mpr hab)
  · exact .inl (h.contains_iff.mpr hba)

/-- The root contains every artifact there is. -/
theorem WellFormed.contains_root (h : t.WellFormed) (hp : p < t.size) :
    t.contains root p = true := by
  induction p using h.wellFounded_scope.induction with
  | _ p ih =>
      rcases Nat.eq_zero_or_pos p with rfl | hpos
      · exact h.contains_self root
      · obtain ⟨s, hs⟩ := h.exists_scope p hpos hp
        have hroot := ih s hs ((h.scope_lt p s hs).trans hp)
        rw [h.contains_eq, hs]
        simp [hroot]

/-! ## Below an artifact -/

theorem WellFormed.contains_of_mem_parts (h : t.WellFormed) (hp : p ∈ t.parts s) :
    t.contains s p = true :=
  h.contains_iff.mpr (.single ((h.mem_parts_iff s p).mp hp))

theorem WellFormed.lt_of_mem_parts (h : t.WellFormed) (hp : p ∈ t.parts s) : s < p :=
  h.scope_lt p s ((h.mem_parts_iff s p).mp hp)

/-- An artifact contains itself and what its parts contain. -/
theorem WellFormed.contains_iff_parts (h : t.WellFormed) :
    t.contains s d = true ↔ s = d ∨ ∃ p ∈ t.parts s, t.contains p d = true := by
  rw [h.contains_iff, ReflTransGen.cases_tail_iff]
  refine or_congr_right (exists_congr fun p => ?_)
  rw [h.contains_iff, h.mem_parts_iff, and_comm]
  rfl

/-- What lies strictly below an artifact lies in one of its parts. -/
theorem WellFormed.exists_part_contains (h : t.WellFormed) (hd : t.contains s d = true)
    (hne : s ≠ d) : ∃ p ∈ t.parts s, t.contains p d = true :=
  (h.contains_iff_parts.mp hd).resolve_left hne

/-- Two parts of one artifact have nothing in common. -/
theorem WellFormed.eq_of_contains (h : t.WellFormed) (hp : p ∈ t.parts s) (hq : q ∈ t.parts s)
    (hpd : t.contains p d = true) (hqd : t.contains q d = true) : p = q := by
  have hbelow : ∀ {p q}, p ∈ t.parts s → q ∈ t.parts s → t.contains p q = true → p = q := by
    intro p q hp hq hpq
    by_contra hne
    rw [h.contains_eq, (h.mem_parts_iff s q).mp hq] at hpq
    have hps : t.contains p s = true := by simpa [hne] using hpq
    exact absurd (h.le_of_contains hps) (Nat.not_le.mpr (h.lt_of_mem_parts hp))
  rcases h.contains_or_contains hpd hqd with hpq | hqp
  · exact hbelow hp hq hpq
  · exact (hbelow hq hp hqp).symm

/-! ## Walks -/

/-- A walk visits what an artifact contains. -/
theorem WellFormed.mem_walk_iff (h : t.WellFormed) : d ∈ t.walk s ↔ t.contains s d = true := by
  induction s using h.wellFounded_parts.induction with
  | _ s ih =>
      rw [h.walk_eq, h.contains_iff_parts, List.mem_append, List.mem_flatMap, List.mem_singleton,
        or_comm, eq_comm]
      exact or_congr_right (exists_congr fun p => and_congr_right fun hp => ih p hp)

/-- A walk visits nothing twice. -/
theorem WellFormed.nodup_walk (h : t.WellFormed) (s : Nat) : (t.walk s).Nodup := by
  induction s using h.wellFounded_parts.induction with
  | _ s ih =>
      rw [h.walk_eq, List.nodup_append]
      refine ⟨List.nodup_flatMap.mpr ⟨ih, ?_⟩, List.nodup_singleton s, ?_⟩
      · refine (h.nodup_parts s).imp_of_mem fun {p q} hp hq hne d hpd hqd => hne ?_
        exact h.eq_of_contains hp hq (h.mem_walk_iff.mp hpd) (h.mem_walk_iff.mp hqd)
      · intro d hd e he
        obtain ⟨p, hp, hpd⟩ := List.mem_flatMap.mp hd
        rw [List.mem_singleton.mp he]
        exact ((h.lt_of_mem_parts hp).trans_le (h.le_of_contains (h.mem_walk_iff.mp hpd))).ne'

theorem WellFormed.perm_walk_root (h : t.WellFormed) : (t.walk root).Perm (List.range t.size) := by
  refine (List.perm_ext_iff_of_nodup (h.nodup_walk root) List.nodup_range).mpr fun d => ?_
  rw [h.mem_walk_iff, List.mem_range]
  refine ⟨fun hd => ?_, h.contains_root⟩
  rcases ReflTransGen.cases_head_iff.mp (h.contains_iff.mp hd) with rfl | ⟨s, hs, -⟩
  · exact h.root_lt_size
  · exact lt_size_of_scopeOf? hs

/-! ## Folders, files and symbols -/

/-- What holds of artifacts is counted by their numbers as well. -/
theorem countP_artifacts (t : Tree) (P : Artifact → Bool) :
    t.artifacts.toList.countP P = (List.range t.size).countP fun i => (t.get? i).any P := by
  have hget : (List.range t.size).map t.get? = t.artifacts.toList.map some := by
    apply List.ext_getElem
    · simp [size]
    · intro i hi _
      simp [get?]
  have hsome : t.artifacts.toList.countP P =
      (t.artifacts.toList.map some).countP fun a => a.any P := by
    rw [List.countP_map]
    rfl
  rw [hsome, ← hget, List.countP_map]
  rfl

theorem WellFormed.mem_symbolIds (h : t.WellFormed) : d ∈ t.symbolIds ↔ t.isSymbol d = true := by
  rw [symbolIds, List.mem_filter, h.mem_walk_iff, and_iff_right_iff_imp]
  exact fun hd => h.contains_root (lt_size_of_isSymbol hd)

theorem WellFormed.nodup_symbolIds (h : t.WellFormed) : t.symbolIds.Nodup :=
  (h.nodup_walk root).filter _

/-- All symbols there are hang below the root. -/
theorem WellFormed.length_symbolIds (h : t.WellFormed) : t.symbolIds.length = t.stats.symbols := by
  have hstats : t.stats.symbols = t.artifacts.toList.countP fun a => a.content.isSymbol := rfl
  rw [symbolIds, ← List.countP_eq_length_filter, h.perm_walk_root.countP_eq, hstats,
    countP_artifacts]
  congr 1
  funext i
  rw [isSymbol, facts?]
  cases t.get? i <;> rfl

theorem kind_cases (hs : s < t.size) :
    t.isFolder s = true ∨ t.isFile s = true ∨ t.isSymbol s = true := by
  obtain ⟨a, ha⟩ := t.exists_get? hs
  cases hcontent : a.content <;>
    simp [isFolder, isFile, isSymbol, facts?, ha, hcontent, Content.isFolder, Content.isFile,
      Content.facts?]

theorem lt_size_of_isFile (h : t.isFile p = true) : p < t.size := by
  by_contra hle
  simp [isFile, (t.get?_eq_none_iff p).mpr (Nat.not_lt.mp hle)] at h

theorem not_isSymbol_of_isFile (h : t.isFile p = true) : t.isSymbol p = false := by
  cases ha : t.get? p with
  | none => simp [isFile, ha] at h
  | some a => cases hcontent : a.content <;>
      simp [isFile, isSymbol, facts?, ha, hcontent, Content.isFile, Content.facts?] at h ⊢

/-- Files are parts of folders. -/
theorem WellFormed.exists_folder (h : t.WellFormed) (hp : t.isFile p = true) :
    ∃ s, t.PartOf p s ∧ t.isFolder s = true := by
  have hroot : p ≠ root := by
    rintro rfl
    exact not_isFile_or_isSymbol_of_isFolder h.isFolder_root (.inl hp)
  obtain ⟨s, hs⟩ := h.exists_scope p (Nat.pos_of_ne_zero hroot) (lt_size_of_isFile hp)
  refine ⟨s, hs, (kind_cases ((h.scope_lt p s hs).trans (lt_size_of_isFile hp))).resolve_right ?_⟩
  intro hkind
  have hsymbol := h.isSymbol_of_scope p s hs hkind
  simp [not_isSymbol_of_isFile hp] at hsymbol

theorem WellFormed.scopeOf?_eq_none_iff (h : t.WellFormed) (hp : p < t.size) :
    t.scopeOf? p = none ↔ p = root := by
  constructor
  · intro hnone
    by_contra hroot
    obtain ⟨s, hs⟩ := h.exists_scope p (Nat.pos_of_ne_zero hroot) hp
    rw [hs] at hnone
    cases hnone
  · rintro rfl
    exact h.scope_root

/-! ## A history with nested symbols -/

/-- The entry of a function from one line to another. -/
def linesEntry (name : String) (first last : UInt32) (nested : List Outline.Entry) :
    Outline.Entry :=
  ⟨name, none, .function, ⟨⟨first, 0⟩, ⟨last, 0⟩⟩, ⟨⟨first, 0⟩, ⟨first, 1⟩⟩, some nested⟩

/-- Two files, one of them in a folder of its own. -/
def nestedFolder : Folder :=
  ⟨"app", ⟨"/app"⟩, [⟨"core", ⟨"/app/core"⟩, [], [⟨"core.swift", ⟨"/app/core/core.swift"⟩, ""⟩]⟩],
    [⟨"main.swift", ⟨"/app/main.swift"⟩, ""⟩]⟩

/-- The functions of both files: in file 2 the number 4 with 5 and 6 in it, 7 and 8, in
file 3 the number 9 with 10 and 11 in it, and 12. -/
def nestedOutlines : List Change :=
  [.addSymbol 2 2 (linesEntry "walk" 0 19 [linesEntry "down" 2 5 [], linesEntry "up" 7 10 []]),
    .addSymbol 2 2 (linesEntry "even" 20 24 []), .addSymbol 2 2 (linesEntry "odd" 25 29 []),
    .addSymbol 3 3 (linesEntry "run" 0 9 [linesEntry "tick" 1 3 [], linesEntry "tock" 4 6 []]),
    .addSymbol 3 3 (linesEntry "main" 10 14 [])]

/-- Functions of one scope call each other in pairs, and 8 calls into the other file. -/
def nestedCalls : List Change :=
  [.addDependency 5 6, .addDependency 6 5, .addDependency 7 8, .addDependency 8 7,
    .addDependency 10 11, .addDependency 11 10, .addDependency 9 12, .addDependency 12 9,
    .addDependency 8 12]

def nestedTree : Tree := (ofFolder nestedFolder).run (nestedOutlines ++ nestedCalls)

/-- One more function is added when all parts are in order. -/
def lateChanges : List Change :=
  nestedOutlines ++ nestedCalls ++
    [.computeMetrics, .sort, .addSymbol 12 3 (linesEntry "loop" 11 12 [])]

def lateTree : Tree := (ofFolder nestedFolder).run lateChanges

/-! ## Main statement -/

/-- The artifacts of a tree with a history carry the numbers of their places, and both
sides of containment agree: all but the root have one scope, which is older, and are
listed once among its parts. Below files and symbols there are symbols only, and files
lie in folders. So everything hangs below the root, and climbing and walking end
without a bound. -/
theorem containment_is_a_tree {f : Folder} {cs : List Change} (h : History f cs t)
    (hsize : t.size < UInt32.size) :
    (∀ i < t.size, ∃ a, t.get? i = some a ∧ a.id = i ∧ (UInt32.ofNat a.id).toNat = i) ∧
    (∀ i < t.size, t.scopeOf? i = none ↔ i = root) ∧ t.isFolder root = true ∧
    (∀ i < t.size, i ≠ root → ∃! s, t.PartOf i s) ∧
    (∀ p s, t.PartOf p s → s < p ∧ p < t.size) ∧
    (∀ p s, p ∈ t.parts s ↔ t.PartOf p s) ∧
    (∀ s, (t.parts s).Nodup) ∧
    (∀ s, t.isFile s = true ∨ t.isSymbol s = true → ∀ p ∈ t.parts s, t.isSymbol p = true) ∧
    (∀ p, t.isFile p = true → ∃ s, t.PartOf p s ∧ t.isFolder s = true) ∧
    (∀ i < t.size, t.contains root i = true) ∧
    (WellFounded (fun s p => t.PartOf p s) ∧
      ∀ c p, t.contains c p = (c == p || (t.scopeOf? p).any (t.contains c))) ∧
    (WellFounded (fun p s => p ∈ t.parts s) ∧
      ∀ s, t.walk s = (t.parts s).flatMap t.walk ++ [s]) := by
  have hwf := h.wellFormed
  refine ⟨?_, fun i hi => hwf.scopeOf?_eq_none_iff hi, hwf.isFolder_root, ?_, ?_,
    fun p s => hwf.mem_parts_iff s p, hwf.nodup_parts, ?_, fun p => hwf.exists_folder,
    fun i => hwf.contains_root, ⟨hwf.wellFounded_scope, hwf.contains_eq⟩,
    ⟨hwf.wellFounded_parts, hwf.walk_eq⟩⟩
  · intro i hi
    obtain ⟨a, ha⟩ := t.exists_get? hi
    have hid := hwf.id_eq i a ha
    exact ⟨a, ha, hid, by rw [hid]; exact UInt32.toNat_ofNat_of_lt (hi.trans hsize)⟩
  · intro i hi hroot
    obtain ⟨s, hs⟩ := hwf.exists_scope i (Nat.pos_of_ne_zero hroot) hi
    exact ⟨s, hs, fun r hr => Option.some.inj (hr.symm.trans hs)⟩
  · exact fun p s hs => ⟨hwf.scope_lt p s hs, lt_size_of_scopeOf? hs⟩
  · exact fun s hs p hp => hwf.isSymbol_of_scope p s ((hwf.mem_parts_iff s p).mp hp) hs

/-- A function that is added after sorting is a part of its scope from both sides. -/
theorem containment_is_a_tree_lateTree :
    lateTree.size < UInt32.size ∧ lateTree.parts 12 = [13] ∧ lateTree.PartOf 13 12 ∧
      lateTree.isSymbol 13 = true ∧ lateTree.contains root 13 = true ∧
      lateTree.walk 9 = (lateTree.parts 9).flatMap lateTree.walk ++ [9] ∧
      lateTree.parts 9 = [10, 11] := by
  have hlate : History nestedFolder lateChanges lateTree := history_run (by decide +kernel)
  have hsize : lateTree.size < UInt32.size := by decide +kernel
  obtain ⟨-, -, -, -, hscope, hmem, -, hsymbol, -, hroot, -, -, hwalk⟩ :=
    containment_is_a_tree hlate hsize
  have hparts : 13 ∈ lateTree.parts 12 := by decide +kernel
  have hpart : lateTree.PartOf 13 12 := (hmem 13 12).mp hparts
  refine ⟨hsize, by decide +kernel, hpart, ?_, hroot 13 (hscope 13 12 hpart).2, hwalk 9,
    by decide +kernel⟩
  exact hsymbol 12 (.inr (by decide +kernel)) 13 hparts

end Tree

end SourceAtlas
