import SourceAtlas.Proofs.Tree.WellFormed
/-!
# Histories of trees

A history leads from the tree of a loaded folder through a list of changes, each
naming artifacts that are there. What one change keeps, a history keeps: the tree
stays well formed (`History.wellFormed`), nothing an artifact was when it was added
is ever changed (`extends_apply`), and the artifacts are those that the additions
alone give (`History.alike_run`).

Folders and symbols are added with all that is below them, one artifact after
another. `keeps_addFolder` and `keeps_addSymbol` reduce what they keep to what
adding one artifact keeps.
-/

namespace SourceAtlas

namespace Tree

variable {t t' t'' : Tree}

/-! ## Extensions and trees with the same artifacts -/

/-- A tree has all artifacts of another one, with their origins. -/
structure Extends (t t' : Tree) : Prop where
  size_le : t.size ≤ t'.size
  origin? : ∀ i < t.size, t'.origin? i = t.origin? i

theorem Extends.refl (t : Tree) : Extends t t :=
  ⟨Nat.le_refl _, fun _ _ => rfl⟩

theorem Extends.trans (h : Extends t t') (h' : Extends t' t'') : Extends t t'' where
  size_le := Nat.le_trans h.size_le h'.size_le
  origin? i hi := (h'.origin? i (Nat.lt_of_lt_of_le hi h.size_le)).trans (h.origin? i hi)

theorem extends_push (t : Tree) (scope : Option Nat) (name : String) (content : Content)
    (code : Option String) (ownLines : Option Nat) :
    Extends t (t.push scope name content code ownLines) where
  size_le := by simp
  origin? _ hi := origin?_push_of_ne (Nat.ne_of_lt hi)

theorem extends_addFile (t : Tree) (s : Nat) (f : SourceFile) : Extends t (t.addFile s f) :=
  have h := extends_push t (some s) f.name (.file f.path (Uri.ofPath f.path)) (some f.code)
    (some f.lineCount)
  ⟨h.size_le, h.origin?⟩

/-- Two trees have the same artifacts with the same origins. -/
structure Alike (t t' : Tree) : Prop where
  size_eq : t.size = t'.size
  origin? : ∀ i, t.origin? i = t'.origin? i

namespace Alike

theorem refl (t : Tree) : Alike t t := ⟨rfl, fun _ => rfl⟩

theorem symm (h : Alike t t') : Alike t' t :=
  ⟨h.size_eq.symm, fun i => (h.origin? i).symm⟩

theorem trans {t'' : Tree} (h : Alike t t') (h' : Alike t' t'') : Alike t t'' :=
  ⟨h.size_eq.trans h'.size_eq, fun i => (h.origin? i).trans (h'.origin? i)⟩

theorem to_extends (h : Alike t t') : Extends t t' :=
  ⟨Nat.le_of_eq h.size_eq, fun i _ => (h.origin? i).symm⟩

theorem facts? (h : Alike t t') (i : Nat) : t.facts? i = t'.facts? i := by
  rw [facts?_eq_origin?, h.origin?, ← facts?_eq_origin?]

theorem push (h : Alike t t') (scope : Option Nat) (name : String) (content : Content)
    (code : Option String) (ownLines : Option Nat) :
    Alike (t.push scope name content code ownLines) (t'.push scope name content code ownLines) where
  size_eq := by rw [size_push, size_push, h.size_eq]
  origin? i := by rw [origin?_push, origin?_push, h.size_eq, h.origin? i]

theorem code_eq (h : Alike t t') (i : Nat) :
    (t.get? i).bind Artifact.code = (t'.get? i).bind Artifact.code := by
  have hcode : ∀ u : Tree, (u.get? i).bind Artifact.code = (u.origin? i).bind Artifact.code := by
    intro u
    cases hu : u.get? i <;> simp [Tree.origin?, hu, Artifact.origin]
  rw [hcode, hcode, h.origin? i]

mutual

theorem addSymbol (file : Nat) : ∀ (e : Outline.Entry) {t t' : Tree} (s : Nat), Alike t t' →
    Alike (t.addSymbol s file e) (t'.addSymbol s file e)
  | ⟨name, _, kind, range, selection, none⟩, t, t', s, h => by
      rw [Tree.addSymbol, Tree.addSymbol, h.code_eq file]
      exact h.push _ _ _ _ _
  | ⟨name, _, kind, range, selection, some entries⟩, t, t', s, h => by
      rw [Tree.addSymbol, Tree.addSymbol, h.code_eq file, h.size_eq]
      exact addSymbols file entries _ (h.push _ _ _ _ _)

theorem addSymbols (file : Nat) : ∀ (es : List Outline.Entry) {t t' : Tree} (s : Nat),
    Alike t t' → Alike (t.addSymbols s file es) (t'.addSymbols s file es)
  | [], _, _, _, h => h
  | e :: es, _, _, s, h => addSymbols file es s (addSymbol file e s h)

end

end Alike

/-! ## Adding folders and symbols -/

section Keeps

variable {P : Tree → Prop}

theorem keeps_addFiles (hfile : ∀ t s f, P t → t.isFolder s = true → P (t.addFile s f))
    (files : List SourceFile) {s : Nat} (h : P t) (hs : t.isFolder s = true) :
    P (files.foldl (fun t f => t.addFile s f) t) ∧
      Extends t (files.foldl (fun t f => t.addFile s f) t) := by
  induction files generalizing t with
  | nil => exact ⟨h, .refl t⟩
  | cons f files ih =>
      have hext := extends_addFile t s f
      have hs' : (t.addFile s f).isFolder s = true :=
        (isFolder_congr (hext.origin? s (lt_size_of_isFolder hs))).trans hs
      obtain ⟨hfiles, hextfiles⟩ := ih (hfile t s f h hs) hs'
      exact ⟨hfiles, hext.trans hextfiles⟩

mutual

/-- What adding one folder and adding one file keep, a whole folder keeps. -/
theorem keeps_addFolder
    (hfolder : ∀ t s name, P t → t.isFolder s = true → P (t.push (some s) name .folder none none))
    (hfile : ∀ t s f, P t → t.isFolder s = true → P (t.addFile s f)) :
    ∀ (f : Folder) {t : Tree} {s : Nat}, P t → t.isFolder s = true →
      P (t.addFolder (some s) f) ∧ Extends t (t.addFolder (some s) f)
  | ⟨name, _, folders, files⟩, t, s, h, hs => by
      have hext := extends_push t (some s) name .folder none none
      have hid : (t.push (some s) name .folder none none).isFolder t.size = true :=
        isFolder_push_size
      obtain ⟨hfolders, hextfolders⟩ :=
        keeps_addFolders hfolder hfile folders (hfolder t s name h hs) hid
      have hid' := (isFolder_congr (hextfolders.origin? t.size (lt_size_of_isFolder hid))).trans hid
      obtain ⟨hfiles, hextfiles⟩ := keeps_addFiles hfile files hfolders hid'
      exact ⟨hfiles, (hext.trans hextfolders).trans hextfiles⟩

theorem keeps_addFolders
    (hfolder : ∀ t s name, P t → t.isFolder s = true → P (t.push (some s) name .folder none none))
    (hfile : ∀ t s f, P t → t.isFolder s = true → P (t.addFile s f)) :
    ∀ (fs : List Folder) {t : Tree} {s : Nat}, P t → t.isFolder s = true →
      P (t.addFolders s fs) ∧ Extends t (t.addFolders s fs)
  | [], t, _, h, _ => ⟨h, .refl t⟩
  | f :: fs, t, s, h, hs => by
      obtain ⟨hf, hextf⟩ := keeps_addFolder hfolder hfile f h hs
      have hs' := (isFolder_congr (hextf.origin? s (lt_size_of_isFolder hs))).trans hs
      obtain ⟨hfs, hextfs⟩ := keeps_addFolders hfolder hfile fs hf hs'
      exact ⟨hfs, hextf.trans hextfs⟩

end

/-- What holds of the root folder and is kept by adding one folder and one file
holds of the tree of a loaded folder. -/
theorem keeps_ofFolder
    (hroot : ∀ name, P (empty.push none name .folder none none))
    (hfolder : ∀ t s name, P t → t.isFolder s = true → P (t.push (some s) name .folder none none))
    (hfile : ∀ t s f, P t → t.isFolder s = true → P (t.addFile s f)) (f : Folder) :
    P (ofFolder f) := by
  obtain ⟨name, path, folders, files⟩ := f
  have hid : (empty.push none name .folder none none).isFolder root = true := isFolder_push_size
  obtain ⟨hfolders, hext⟩ := keeps_addFolders hfolder hfile folders (hroot name) hid
  have hid' := (isFolder_congr (hext.origin? root (lt_size_of_isFolder hid))).trans hid
  exact (keeps_addFiles hfile files hfolders hid').1

mutual

/-- What adding one symbol keeps, an outline entry with all nested ones keeps. -/
theorem keeps_addSymbol
    (hsymbol : ∀ t s name facts code lines, P t → s < t.size →
      P (t.push (some s) name (.symbol facts) code lines)) (file : Nat) :
    ∀ (e : Outline.Entry) {t : Tree} {s : Nat}, P t → s < t.size →
      P (t.addSymbol s file e) ∧ t.size < (t.addSymbol s file e).size
  | ⟨name, _, kind, range, selection, none⟩, t, s, h, hs => by
      refine ⟨hsymbol t s _ _ _ _ h hs, ?_⟩
      simp [addSymbol]
  | ⟨name, _, kind, range, selection, some entries⟩, t, s, h, hs => by
      rw [addSymbol]
      obtain ⟨hentries, hle⟩ := keeps_addSymbols hsymbol file entries
        (s := t.size) (hsymbol t s name ⟨kind, range, selection, file⟩ _ _ h hs) (by simp)
      exact ⟨hentries, Nat.lt_of_lt_of_le (by simp) hle⟩

theorem keeps_addSymbols
    (hsymbol : ∀ t s name facts code lines, P t → s < t.size →
      P (t.push (some s) name (.symbol facts) code lines)) (file : Nat) :
    ∀ (es : List Outline.Entry) {t : Tree} {s : Nat}, P t → s < t.size →
      P (t.addSymbols s file es) ∧ t.size ≤ (t.addSymbols s file es).size
  | [], t, _, h, _ => ⟨h, Nat.le_refl _⟩
  | e :: es, t, s, h, hs => by
      obtain ⟨he, hlt⟩ := keeps_addSymbol hsymbol file e h hs
      obtain ⟨hes, hle⟩ := keeps_addSymbols hsymbol file es he (Nat.lt_trans hs hlt)
      exact ⟨hes, Nat.le_trans (Nat.le_of_lt hlt) hle⟩

end

end Keeps

/-! ## What added symbols leave alone -/

section AddSymbol

variable {s : Nat} (hs : s < t.size) (file : Nat) (e : Outline.Entry)

include hs

theorem links_addSymbol (i : Nat) : (t.addSymbol s file e).links i = t.links i := by
  refine (keeps_addSymbol (P := fun u => u.links i = t.links i) ?_ file e rfl hs).1
  intro u s name facts code lines hu _
  rw [links_push, hu]

theorem metrics_addSymbol (i : Nat) : (t.addSymbol s file e).metrics i = t.metrics i := by
  refine (keeps_addSymbol (P := fun u => u.metrics i = t.metrics i) ?_ file e rfl hs).1
  intro u s name facts code lines hu _
  rw [metrics_push, hu]

theorem measured_addSymbol : (t.addSymbol s file e).measured = t.measured := by
  refine (keeps_addSymbol (P := fun u => u.measured = t.measured) ?_ file e rfl hs).1
  intro u s name facts code lines hu _
  rw [measured_push, hu]

theorem files_addSymbol : (t.addSymbol s file e).files = t.files := by
  refine (keeps_addSymbol (P := fun u => u.files = t.files) ?_ file e rfl hs).1
  intro u s name facts code lines hu _
  rw [files_push, hu]

end AddSymbol

theorem wellFormed_ofFolder (f : Folder) : (ofFolder f).WellFormed := by
  refine keeps_ofFolder (fun _ => wellFormed_push_root) ?_ ?_ f
  · intro t s name h hs
    refine h.push (lt_size_of_isFolder hs) fun hkind => ?_
    exact absurd hkind (not_isFile_or_isSymbol_of_isFolder hs)
  · intro t s f h hs
    have hpush : (t.push (some s) f.name (.file f.path (Uri.ofPath f.path)) (some f.code)
        (some f.lineCount)).WellFormed := h.push (lt_size_of_isFolder hs) fun hkind =>
      absurd hkind (not_isFile_or_isSymbol_of_isFolder hs)
    exact hpush.congr rfl (fun _ => rfl) fun _ => .refl _

/-! ## Changes -/

/-- One change to a tree. -/
inductive Change where
  | addSymbol (scope file : Nat) (entry : Outline.Entry)
  | addDependency (referencing declaring : Nat)
  | computeMetrics
  | sort

namespace Change

/-- Whether the artifacts that a change names are there. -/
def Admissible (t : Tree) : Change → Prop
  | .addSymbol scope _ _ => scope < t.size
  | .addDependency r d => r < t.size ∧ d < t.size
  | .computeMetrics => True
  | .sort => True

/-- The tree after a change. Metrics that are refused change nothing. -/
def apply (t : Tree) : Change → Tree
  | .addSymbol scope file e => t.addSymbol scope file e
  | .addDependency r d => t.addDependency r d
  | .computeMetrics =>
      match t.computeMetrics with
      | .ok measured => measured
      | .error _ => t
  | .sort => t.sort

/-- Whether a change adds artifacts. -/
def isAddition : Change → Bool
  | .addSymbol _ _ _ => true
  | _ => false

theorem eq_addSymbol {c : Change} (h : c.isAddition = true) :
    ∃ scope file e, c = .addSymbol scope file e := by
  cases c with
  | addSymbol scope file e => exact ⟨scope, file, e, rfl⟩
  | addDependency r d => cases h
  | computeMetrics => cases h
  | sort => cases h

end Change

/-- The changes that lead from a loaded folder to a tree. -/
inductive History (f : Folder) : List Change → Tree → Prop
  | loaded : History f [] (ofFolder f)
  | change {cs : List Change} {t : Tree} (c : Change) : History f cs t → c.Admissible t →
      History f (cs ++ [c]) (c.apply t)

/-! ## Running changes -/

/-- The tree after some changes, one after another. -/
def run (t : Tree) (cs : List Change) : Tree := cs.foldl (fun t c => c.apply t) t

theorem run_append (t : Tree) (cs ds : List Change) : t.run (cs ++ ds) = (t.run cs).run ds :=
  List.foldl_append

/-- Whether every change names artifacts that are there when its turn comes. -/
def Admits (t : Tree) : List Change → Prop
  | [] => True
  | c :: cs => c.Admissible t ∧ (c.apply t).Admits cs

instance (t : Tree) (c : Change) : Decidable (c.Admissible t) :=
  match c with
  | .addSymbol _ _ _ => inferInstanceAs (Decidable (_ < _))
  | .addDependency _ _ => inferInstanceAs (Decidable (_ ∧ _))
  | .computeMetrics => inferInstanceAs (Decidable True)
  | .sort => inferInstanceAs (Decidable True)

instance decidableAdmits (t : Tree) : (cs : List Change) → Decidable (t.Admits cs)
  | [] => inferInstanceAs (Decidable True)
  | c :: cs =>
      have := decidableAdmits (c.apply t) cs
      inferInstanceAs (Decidable (_ ∧ _))

theorem History.append {f : Folder} {cs : List Change} (h : History f cs t) {ds : List Change}
    (hds : t.Admits ds) : History f (cs ++ ds) (t.run ds) := by
  induction ds generalizing cs t with
  | nil => rwa [List.append_nil]
  | cons d ds ih =>
      have happend := ih (h.change d hds.1) hds.2
      rwa [List.append_assoc, List.singleton_append] at happend

/-- Changes that a loaded folder admits are a history. -/
theorem history_run {f : Folder} {cs : List Change} (h : (ofFolder f).Admits cs) :
    History f cs ((ofFolder f).run cs) :=
  History.loaded.append h

/-! ## What changes keep -/

theorem addDependency_cases (t : Tree) (r d : Nat) :
    (t.classify? r d = none ∧ t.addDependency r d = t) ∨
      ∃ k, t.classify? r d = some k ∧ t.addDependency r d = t.link k r d := by
  cases h : t.classify? r d with
  | none => exact .inl ⟨rfl, addDependency_of_classify?_eq_none h⟩
  | some k => exact .inr ⟨k, rfl, addDependency_of_classify?_eq_some h⟩

theorem computeMetricsWith_cases (choices : Nat → Graph.Choices) (t : Tree) :
    (t.measured = true ∧ t.computeMetricsWith choices = .error .alreadyMeasured) ∨
      (t.measured = false ∧ t.computeMetricsWith choices = .ok (t.measureAllWith choices)) := by
  cases h : t.measured with
  | true => exact .inl ⟨rfl, by simp [computeMetricsWith, h]⟩
  | false => exact .inr ⟨rfl, by simp [computeMetricsWith, h]⟩

/-- Computing metrics measures a tree or leaves it as it was. -/
theorem apply_computeMetrics_cases (t : Tree) :
    (t.measured = true ∧ Change.computeMetrics.apply t = t) ∨
      (t.measured = false ∧
        Change.computeMetrics.apply t = t.measureAllWith fun _ => .standard) := by
  rcases computeMetricsWith_cases (fun _ => .standard) t with ⟨hm, h⟩ | ⟨hm, h⟩
  · exact .inl ⟨hm, by rw [Change.apply, computeMetrics, h]⟩
  · exact .inr ⟨hm, by rw [Change.apply, computeMetrics, h]⟩

/-- A change that adds nothing keeps the artifacts and only rearranges parts. -/
theorem alike_apply (t : Tree) {c : Change} (hc : c.isAddition = false) :
    Alike (c.apply t) t ∧ ∀ i, ((c.apply t).parts i).Perm (t.parts i) := by
  cases c with
  | addSymbol scope file e => cases hc
  | addDependency r d =>
      rcases addDependency_cases t r d with ⟨-, h⟩ | ⟨k, -, h⟩
      · rw [Change.apply, h]
        exact ⟨.refl t, fun _ => .refl _⟩
      · rw [Change.apply, h]
        exact ⟨⟨size_link t k r d, origin?_link t k r d⟩, fun i => .of_eq (parts_link t k r d i)⟩
  | computeMetrics =>
      rcases apply_computeMetrics_cases t with ⟨-, h⟩ | ⟨-, h⟩
      · rw [h]
        exact ⟨.refl t, fun _ => .refl _⟩
      · rw [h]
        exact ⟨⟨size_measureAllWith _ t, origin?_measureAllWith _ t⟩,
          fun i => .of_eq (parts_measureAllWith _ t i)⟩
  | sort =>
      exact ⟨⟨size_sort t, origin?_sort t⟩,
        fun i => parts_sort t i ▸ perm_stableSort t.order (t.parts i)⟩

/-- No change takes an artifact away or alters what it was when it was added. -/
theorem extends_apply {c : Change} (hc : c.Admissible t) : Extends t (c.apply t) := by
  cases hadd : c.isAddition with
  | false => exact (alike_apply t hadd).1.symm.to_extends
  | true =>
      obtain ⟨scope, file, e, rfl⟩ := Change.eq_addSymbol hadd
      refine (keeps_addSymbol (P := Extends t) ?_ file e (.refl t) hc).1
      intro u s name facts code lines hu _
      exact hu.trans (extends_push u _ _ _ _ _)

/-- Every change keeps a tree well formed. -/
theorem WellFormed.apply (h : t.WellFormed) {c : Change} (hc : c.Admissible t) :
    (c.apply t).WellFormed := by
  cases hadd : c.isAddition with
  | false =>
      obtain ⟨hsame, hparts⟩ := alike_apply t hadd
      exact h.congr hsame.size_eq hsame.origin? hparts
  | true =>
      obtain ⟨scope, file, e, rfl⟩ := Change.eq_addSymbol hadd
      refine (keeps_addSymbol ?_ file e h hc).1
      intro u s name facts code lines hu hs
      exact hu.push hs fun _ => rfl

namespace History

variable {f : Folder} {cs : List Change}

/-- Every tree with a history is well formed. -/
theorem wellFormed (h : History f cs t) : t.WellFormed := by
  induction h with
  | loaded => exact wellFormed_ofFolder f
  | change c _ hc ih => exact ih.apply hc

/-- The artifacts of a tree are those that the additions alone would have given. -/
theorem alike_run (h : History f cs t) :
    Alike t ((ofFolder f).run (cs.filter Change.isAddition)) := by
  induction h with
  | loaded => exact .refl _
  | @change cs t c _ hc ih =>
      rw [List.filter_append]
      cases hadd : c.isAddition with
      | false =>
          simpa [hadd] using (alike_apply t hadd).1.trans ih
      | true =>
          obtain ⟨scope, file, e, rfl⟩ := Change.eq_addSymbol hadd
          rw [List.filter_cons_of_pos hadd, List.filter_nil, run, List.foldl_append]
          exact ih.addSymbol file e scope

/-- A tree whose metrics were never computed has none. -/
theorem measured_eq_false (h : History f cs t) (hcs : Change.computeMetrics ∉ cs) :
    t.measured = false := by
  induction h with
  | loaded =>
      refine keeps_ofFolder (P := fun t => t.measured = false) (fun _ => rfl) ?_ ?_ f
      · intro t s name h _
        rw [measured_push, h]
      · intro t s f h _
        exact h
  | @change cs t c _ hc ih =>
      rw [List.mem_append, List.mem_singleton, not_or] at hcs
      have hm := ih hcs.1
      cases c with
      | addSymbol scope file e => rw [Change.apply, measured_addSymbol hc, hm]
      | addDependency r d =>
          rcases addDependency_cases t r d with ⟨-, h⟩ | ⟨k, -, h⟩
          · rwa [Change.apply, h]
          · rw [Change.apply, h, measured_link, hm]
      | computeMetrics => exact absurd rfl hcs.2
      | sort => rw [Change.apply, measured_sort, hm]

/-- Before its metrics are computed a tree has none of any artifact. -/
theorem metrics_eq_absent (h : History f cs t) (hcs : Change.computeMetrics ∉ cs) (i : Nat) :
    t.metrics i = Metrics.absent := by
  induction h with
  | loaded =>
      refine keeps_ofFolder (P := fun t => t.metrics i = Metrics.absent) ?_ ?_ ?_ f
      · exact fun _ => metrics_push empty _ _ _ _ _ i
      · intro t s name h _
        rw [metrics_push, h]
      · intro t s f h _
        rw [metrics_addFile, h]
  | @change cs t c _ hc ih =>
      rw [List.mem_append, List.mem_singleton, not_or] at hcs
      have hi := ih hcs.1
      cases c with
      | addSymbol scope file e => rw [Change.apply, metrics_addSymbol hc, hi]
      | addDependency r d =>
          rcases addDependency_cases t r d with ⟨-, h⟩ | ⟨k, -, h⟩
          · rwa [Change.apply, h]
          · rw [Change.apply, h, metrics_link, hi]
      | computeMetrics => exact absurd rfl hcs.2
      | sort => rw [Change.apply, metrics_sort, hi]

/-- Metrics that were never computed can be, whatever is left open. -/
theorem computeMetricsWith_eq_ok (h : History f cs t) (hcs : Change.computeMetrics ∉ cs)
    (choices : Nat → Graph.Choices) :
    t.computeMetricsWith choices = .ok (t.measureAllWith choices) := by
  rw [computeMetricsWith, h.measured_eq_false hcs]
  rfl

end History

/-! ## A small history -/

/-- A folder with one file of two lines. -/
def smallFolder : Folder :=
  ⟨"app", ⟨"/app"⟩, [], [⟨"cycle.swift", ⟨"/app/cycle.swift"⟩, "one\ntwo"⟩]⟩

def smallEntry (name : String) : Outline.Entry :=
  ⟨name, none, .function, ⟨⟨0, 0⟩, ⟨1, 0⟩⟩, ⟨⟨0, 0⟩, ⟨0, 3⟩⟩, none⟩

/-- Four functions: 2 and 3 call each other, 5 calls 2 twice, and 4 calls nobody. -/
def smallChanges : List Change :=
  [.addSymbol 1 1 (smallEntry "even"), .addSymbol 1 1 (smallEntry "odd"),
    .addSymbol 1 1 (smallEntry "help"), .addSymbol 1 1 (smallEntry "main"),
    .addDependency 2 3, .addDependency 3 2, .addDependency 5 2, .addDependency 5 2,
    .addDependency 5 1]

def smallTree : Tree := (ofFolder smallFolder).run smallChanges

end Tree

end SourceAtlas
