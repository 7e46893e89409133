import SourceAtlas.Proofs.Tree.Balance
import SourceAtlas.Proofs.Tree.Branch
/-!
# Lines of a measured tree

A folder is counted before a tree is made of it, and the tree is measured after symbols were
added to it. Both come to the same lines, folders and files
(`computeMetrics_agrees_with_scan`): symbols below files and symbols leave the parts of every
folder as they were made (`History.rests`), and the lines of a file are its own, whatever
hangs below it.
-/

namespace SourceAtlas

namespace Tree

open Branch (starts)

variable {t t' : Tree} {f : Folder} {cs : List Change} {a n s : Nat}

/-! ## Folders under additions -/

/-- What is added with a symbol are symbols. -/
theorem isSymbol_addSymbol {file : Nat} {e : Outline.Entry} (hs : s < t.size) {i : Nat}
    (hi : t.size ≤ i) (hlt : i < (t.addSymbol s file e).size) :
    (t.addSymbol s file e).isSymbol i = true := by
  have hkeeps := keeps_addSymbol
    (P := fun u => ∀ i, t.size ≤ i → i < u.size → u.isSymbol i = true) ?_ file e
    (fun i hle hlt => absurd hlt (Nat.not_lt.mpr hle)) hs
  · exact hkeeps.1 i hi hlt
  · intro u s name facts code lines hu _ i hle hlt
    rw [size_push] at hlt
    rcases Nat.lt_succ_iff_lt_or_eq.mp hlt with hold | rfl
    · rw [isSymbol_congr (origin?_push_of_ne (Nat.ne_of_lt hold))]
      exact hu i hle hold
    · exact isSymbol_push_size

/-- What symbols below files and symbols leave of a loaded folder: all of it, and there are
no folders and files besides. -/
structure Rests (f : Folder) (t : Tree) : Prop where
  extends_ofFolder : Extends (ofFolder f) t
  parts : ∀ i, (ofFolder f).isFolder i = true → (t.parts i).Perm ((ofFolder f).parts i)
  isSymbol : ∀ i, (ofFolder f).size ≤ i → i < t.size → t.isSymbol i = true

theorem Rests.measureAllWith (h : Rests f t) (choices : Nat → Graph.Choices) :
    Rests f (t.measureAllWith choices) where
  extends_ofFolder := h.extends_ofFolder.trans
    ⟨Nat.le_of_eq (size_measureAllWith choices t).symm,
      fun i _ => origin?_measureAllWith choices t i⟩
  parts i hi := parts_measureAllWith choices t i ▸ h.parts i hi
  isSymbol i hle hlt := by
    rw [isSymbol_congr (origin?_measureAllWith choices t i)]
    exact h.isSymbol i hle (size_measureAllWith choices t ▸ hlt)

theorem History.rests (h : History f cs t)
    (hbelow : ∀ scope file e, .addSymbol scope file e ∈ cs → (ofFolder f).isFolder scope = false) :
    Rests f t := by
  induction h with
  | loaded => exact ⟨.refl _, fun _ _ => .refl _, fun i hle hlt => absurd hlt (Nat.not_lt.mpr hle)⟩
  | @change cs t c hhistory hc ih =>
      obtain ⟨hext, hparts, hsymbol⟩ := ih fun scope file e hmem =>
        hbelow scope file e (List.mem_append_left _ hmem)
      have hext' := extends_apply hc
      cases hadd : c.isAddition with
      | false =>
          obtain ⟨hsame, hperm⟩ := alike_apply t hadd
          refine ⟨hext.trans hext', fun i hi => (hperm i).trans (hparts i hi), fun i hle hlt => ?_⟩
          rw [isSymbol_congr (hsame.origin? i)]
          exact hsymbol i hle (hsame.size_eq ▸ hlt)
      | true =>
          obtain ⟨scope, file, e, rfl⟩ := Change.eq_addSymbol hadd
          have hscope := hbelow scope file e (List.mem_append_right _ List.mem_cons_self)
          refine ⟨hext.trans hext', fun i hi => ?_, fun i hle hlt => ?_⟩
          · have hne : i ≠ scope := fun heq => Bool.false_ne_true (hscope.symm.trans (heq ▸ hi))
            have hi' := Nat.lt_of_lt_of_le (lt_size_of_isFolder hi) hext.size_le
            rw [Change.apply, parts_addSymbol_of_ne file e hi' hne]
            exact hparts i hi
          · rcases Nat.lt_or_ge i t.size with hold | hnew
            · rw [isSymbol_congr (hext'.origin? i hold)]
              exact hsymbol i hle hold
            · exact isSymbol_addSymbol hc hnew hlt

/-! ## Items of a folder in its tree -/

theorem size_ofFolder (f : Folder) : (ofFolder f).size = f.items.length := by
  rw [ofFolder, (grafted_addFolder f empty none).size_eq, Branch.sizeAll_cons, Branch.sizeAll_nil,
    Branch.size, Folder.preorder_branch, List.length_map]
  exact Nat.zero_add _

/-- The items of a folder are borne in their order. -/
theorem bears_of_getElem?_items {item : Folder.Item} (h : f.items[a]? = some item) :
    (ofFolder f).Bears a item.branch := by
  have hitem : f.branch.preorder[a]? = some item.branch := by
    rw [Folder.preorder_branch, List.getElem?_map, h]
    rfl
  exact Nat.zero_add a ▸ (bears_ofFolder f).preorder hitem

/-- Only folders have no lines of their own. -/
theorem isFolder_of_ownLines_eq_none {l : Label} (hl : (ofFolder f).label? a = some l)
    (hown : l.ownLines = none) : (ofFolder f).isFolder a = true := by
  have ha : a < f.items.length := by
    obtain ⟨artifact, hget, -⟩ := Option.map_eq_some_iff.mp hl
    exact size_ofFolder f ▸ lt_size_of_get? hget
  have hlabel := (bears_of_getElem?_items (List.getElem?_eq_getElem ha)).label?_eq
  cases hl.symm.trans hlabel
  cases hitem : f.items[a] with
  | folder g =>
      rw [isFolder, any_content, hlabel, hitem, Option.any_some, Folder.Item.isFolder_label]
      rfl
  | file g =>
      rw [hitem] at hown
      cases hown

theorem Rests.label?_eq (h : Rests f t) {item : Folder.Item} (hitem : f.items[a]? = some item) :
    t.label? a = some item.branch.label := by
  have ha : a < (ofFolder f).size := size_ofFolder f ▸ (List.getElem?_eq_some_iff.mp hitem).1
  rw [label?_congr (h.extends_ofFolder.origin? a ha), (bears_of_getElem?_items hitem).label?_eq]

theorem content_eq_symbol {c : Content} {facts : SymbolFacts} (h : c.facts? = some facts) :
    c = .symbol facts := by
  cases c <;> cases h
  rfl

theorem countP_range_getElem? {α : Type} (P : α → Bool) (as : List α) :
    (List.range as.length).countP (fun i => as[i]?.any P) = as.countP P := by
  induction as with
  | nil => rfl
  | cons b bs ih =>
      rw [List.length_cons, List.range_succ_eq_map, List.countP_cons, List.countP_map,
        List.countP_cons, ← ih]
      rfl

/-- What symbols are not is counted among the items of the folder. -/
theorem Rests.countP_eq (h : Rests f t) {P : Content → Bool}
    (hsymbol : ∀ facts, P (.symbol facts) = false) :
    t.artifacts.toList.countP (fun a => P a.content) =
      f.items.countP fun item => P item.branch.label.content := by
  have hsize : t.size = f.items.length + (t.size - f.items.length) := by
    have hle := h.extends_ofFolder.size_le
    rw [size_ofFolder] at hle
    omega
  have hrest : ((List.range (t.size - f.items.length)).map (f.items.length + ·)).countP
      (fun i => (t.get? i).any fun a => P a.content) = 0 := by
    refine List.countP_eq_zero.mpr fun i hi => ?_
    obtain ⟨j, hj, rfl⟩ := List.mem_map.mp hi
    have hlt := List.mem_range.mp hj
    have hkind := h.isSymbol (f.items.length + j) (by rw [size_ofFolder]; omega) (by omega)
    obtain ⟨facts, hfacts⟩ := Option.isSome_iff_exists.mp hkind
    obtain ⟨artifact, hget, hcontent⟩ := Option.bind_eq_some_iff.mp hfacts
    rw [hget, Option.any_some, content_eq_symbol hcontent, hsymbol]
    exact Bool.false_ne_true
  rw [countP_artifacts, hsize, List.range_add, List.countP_append, hrest, Nat.add_zero,
    ← countP_range_getElem? _ f.items]
  refine List.countP_congr fun i hi => ?_
  have hitem := List.getElem?_eq_getElem (List.mem_range.mp hi)
  rw [any_content, h.label?_eq hitem, hitem]
  rfl

/-- A tree with the items of a folder first and symbols behind them has the folders and the
files that were counted. -/
theorem Rests.stats_eq (h : Rests f t) :
    t.stats.folders = f.folderCount ∧ t.stats.files = f.fileCount := by
  rw [Folder.folderCount_eq, Folder.fileCount_eq, ← funext Folder.Item.isFolder_label,
    ← funext Folder.Item.isFile_label]
  exact ⟨h.countP_eq fun _ => rfl, h.countP_eq fun _ => rfl⟩

/-! ## Lines -/

theorem AddsUp.linesOfCode_eq (h : t.AddsUp) (ha : a < t.size) :
    (t.metrics a).linesOfCode = some (((t.get? a).bind Artifact.ownLines).getD
      (total (fun p => (t.metrics p).lines) (t.parts a))) := by
  obtain ⟨number, ha'⟩ := h a ha
  rw [ha', measureFrom, total_map]

/-- What is counted for each of some branches is counted at the numbers they start at. -/
theorem BearsAll.total_starts {α : Type} {branch : α → Branch} {count : α → Nat}
    {lines : Nat → Nat} {as : List α} (h : t.BearsAll n (as.map branch))
    (hcount : ∀ b ∈ as, ∀ i, t.Bears i (branch b) → lines i = count b) :
    total lines (starts n (as.map branch)) = total count as := by
  induction as generalizing n with
  | nil => rfl
  | cons b bs ih =>
      obtain ⟨hb, hbs⟩ := h
      rw [List.map_cons, starts, total_cons, total_cons, hcount b List.mem_cons_self _ hb,
        ih hbs fun b' hb' => hcount b' (List.mem_cons_of_mem _ hb')]

section

variable {lines : Nat → Nat}
  (hlines : ∀ i l, t.label? i = some l → lines i = l.ownLines.getD (total lines (t.parts i)))

include hlines

theorem Bears.lines_file {g : SourceFile} (h : t.Bears a g.branch) : lines a = g.lineCount :=
  hlines a _ h.label?_eq

/-- Lines that are given for files and add up in folders are the lines that are counted. -/
theorem Bears.lines_folder (g : Folder) (h : t.Bears a g.branch) : lines a = g.lineCount := by
  induction g using Folder.induct generalizing a with
  | h name path folders files ih =>
      obtain ⟨hlabel, hparts, hbears⟩ := h
      rw [Folder.branches_eq] at hparts hbears
      obtain ⟨hfolders, hfiles⟩ := bearsAll_append_iff.mp hbears
      rw [hlines a _ hlabel, hparts, Branch.starts_append, Option.getD_none, total_append,
        hfolders.total_starts fun g hg j hj => ih g hg hj,
        hfiles.total_starts fun g _ j hj => hj.lines_file hlines,
        Folder.lineCount, Folder.lineCountAll_eq, Nat.add_comm]

end

/-- In a tree that adds up, the lines of a loaded folder are those of its files. -/
theorem Rests.lines_eq (h : Rests f t) (hadds : t.AddsUp) {l : Label}
    (hl : (ofFolder f).label? a = some l) :
    (t.metrics a).lines = l.ownLines.getD
      (total (fun p => (t.metrics p).lines) ((ofFolder f).parts a)) := by
  have ha : a < (ofFolder f).size := by
    obtain ⟨artifact, hget, -⟩ := Option.map_eq_some_iff.mp hl
    exact lt_size_of_get? hget
  have hlabel : t.label? a = some l :=
    (label?_congr (h.extends_ofFolder.origin? a ha)).trans hl
  obtain ⟨artifact, hget, rfl⟩ := Option.map_eq_some_iff.mp hlabel
  have hlines := hadds.linesOfCode_eq (Nat.lt_of_lt_of_le ha h.extends_ofFolder.size_le)
  rw [Metrics.lines, hlines, hget, Option.getD_some, Option.bind_some, Artifact.label]
  cases hown : artifact.ownLines with
  | some n => rfl
  | none => exact total_perm _ (h.parts a (isFolder_of_ownLines_eq_none hl hown))

theorem AddsUp.linesOfCode_eq_some (h : t.AddsUp) (ha : a < t.size) :
    (t.metrics a).linesOfCode = some (t.metrics a).lines := by
  rw [Metrics.lines, h.linesOfCode_eq ha, Option.getD_some]

/-! ## Main statement -/

/-- Measuring counts what was counted before: whatever symbols were added below files and
symbols and whatever depends on what, every folder has the lines of the folder it was made
from and every file those of its text, and there are no folders and files besides. -/
theorem computeMetrics_agrees_with_scan (h : History f cs t) (hcs : Change.computeMetrics ∉ cs)
    (hbelow : ∀ scope file e, .addSymbol scope file e ∈ cs → (ofFolder f).isFolder scope = false)
    (choices : Nat → Graph.Choices) :
    ∃ t', t.computeMetricsWith choices = .ok t' ∧
      (∀ i item, f.items[i]? = some item → t'.label? i = some item.branch.label ∧
        (t'.metrics i).linesOfCode = some item.lineCount) ∧
      (∀ i, t'.isFolder i = true ∨ t'.isFile i = true → i < f.items.length) ∧
      t'.stats.folders = f.folderCount ∧ t'.stats.files = f.fileCount ∧
      (t'.metrics root).linesOfCode = some f.scan.lines := by
  have hrests : Rests f (t.measureAllWith choices) := (h.rests hbelow).measureAllWith choices
  have hadds := h.wellFormed.addsUp_measureAllWith choices
  have hitems : ∀ i item, f.items[i]? = some item →
      ((t.measureAllWith choices).metrics i).linesOfCode = some item.lineCount := by
    intro i item hitem
    have hi : i < (t.measureAllWith choices).size := Nat.lt_of_lt_of_le
      (size_ofFolder f ▸ (List.getElem?_eq_some_iff.mp hitem).1) hrests.extends_ofFolder.size_le
    rw [hadds.linesOfCode_eq_some hi]
    congr 1
    have hbears := bears_of_getElem?_items hitem
    cases item with
    | folder g => exact hbears.lines_folder (fun _ _ => hrests.lines_eq hadds) g
    | file g => exact hbears.lines_file fun _ _ => hrests.lines_eq hadds
  refine ⟨_, h.computeMetricsWith_eq_ok hcs choices,
    fun i item hitem => ⟨hrests.label?_eq hitem, hitems i item hitem⟩, fun i hi => ?_,
    hrests.stats_eq.1, hrests.stats_eq.2, hitems root _ (Folder.getElem?_items_zero f)⟩
  by_contra hle
  rw [← size_ofFolder, Nat.not_lt] at hle
  rcases hi with hfolder | hfile
  · have hsymbol := hrests.isSymbol i hle (lt_size_of_isFolder hfolder)
    exact not_isFile_or_isSymbol_of_isFolder hfolder (.inr hsymbol)
  · have hsymbol := hrests.isSymbol i hle (lt_size_of_isFile hfile)
    exact Bool.false_ne_true ((not_isSymbol_of_isFile hfile).symm.trans hsymbol)

/-- A file of two lines in a folder of its own, and one of one line. -/
def countedFolder : Folder :=
  ⟨"app", ⟨"/app"⟩,
    [⟨"core", ⟨"/app/core"⟩, [], [⟨"core.swift", ⟨"/app/core/core.swift"⟩, "one\ntwo\n"⟩]⟩],
    [⟨"main.swift", ⟨"/app/main.swift"⟩, "one"⟩]⟩

/-- Functions that are said to be longer than their files, one of them around another. -/
def countedChanges : List Change :=
  [.addSymbol 2 2 (linesEntry "walk" 0 19 [linesEntry "down" 0 30 []]),
    .addSymbol 3 3 (linesEntry "main" 0 7 []), .addDependency 4 6]

/-- The lines of a folder are not those that are reported for symbols. -/
theorem computeMetrics_agrees_with_scan_countedFolder :
    ∃ t', ((ofFolder countedFolder).run countedChanges).computeMetricsWith (fun _ => .standard) =
        .ok t' ∧
      (t'.metrics 1).linesOfCode = some 2 ∧ (t'.metrics 2).linesOfCode = some 2 ∧
      t'.stats.folders = 2 ∧ (t'.metrics root).linesOfCode = some 3 := by
  have h : History countedFolder countedChanges ((ofFolder countedFolder).run countedChanges) :=
    history_run (by decide +kernel)
  have hbelow : ∀ scope file e, .addSymbol scope file e ∈ countedChanges →
      (ofFolder countedFolder).isFolder scope = false := by
    intro scope file e hmem
    simp only [countedChanges, List.mem_cons, List.not_mem_nil, or_false, Change.addSymbol.injEq,
      reduceCtorEq] at hmem
    rcases hmem with ⟨rfl, -, -⟩ | ⟨rfl, -, -⟩ <;> decide
  obtain ⟨t', hok, hitems, -, hfolders, -, hlines⟩ :=
    computeMetrics_agrees_with_scan h (by simp [countedChanges]) hbelow fun _ => .standard
  exact ⟨t', hok, (hitems 1 _ rfl).2, (hitems 2 _ rfl).2, hfolders, hlines⟩

end Tree

end SourceAtlas
