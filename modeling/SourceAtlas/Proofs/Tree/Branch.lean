import SourceAtlas.Proofs.Folder.Walk
import SourceAtlas.Proofs.Tree.History
/-!
# Branches of a tree

Folders and outlines are trees of their own, and adding one of them to a tree of artifacts
writes it down artifact by artifact, each before its parts. A branch is what is added
(`Branch`), and `Grafted` says what adding branches below a scope comes to: the new artifacts
are numbered on from the size of the tree in that order, every one of them has its parts where
the branch has them (`Tree.Bears`), and all that was there stays as it was but for the parts
of the scope.

`grafted_addFolder` and `grafted_addSymbols` are the two ways in which branches are added.
-/

namespace SourceAtlas

/-- What an artifact is, apart from where it stands in a tree. -/
structure Label where
  name : String
  content : Content
  code : Option String
  ownLines : Option Nat
  deriving DecidableEq

def Artifact.label (a : Artifact) : Label := ⟨a.name, a.content, a.code, a.ownLines⟩

inductive Branch where
  | node (label : Label) (parts : List Branch)

namespace Branch

def label : Branch → Label
  | .node label _ => label

mutual

/-- A branch and all branches in it, each before those in it. -/
def preorder : Branch → List Branch
  | .node label parts => .node label parts :: preorderAll parts

def preorderAll : List Branch → List Branch
  | [] => []
  | b :: bs => preorder b ++ preorderAll bs

end

def size (b : Branch) : Nat := b.preorder.length

def sizeAll (bs : List Branch) : Nat := (preorderAll bs).length

/-- The numbers at which branches start that are numbered on from `n`. -/
def starts (n : Nat) : List Branch → List Nat
  | [] => []
  | b :: bs => n :: starts (n + b.size) bs

theorem size_node (label : Label) (parts : List Branch) :
    (node label parts).size = sizeAll parts + 1 := rfl

@[simp] theorem sizeAll_nil : sizeAll [] = 0 := rfl

@[simp] theorem sizeAll_cons (b : Branch) (bs : List Branch) :
    sizeAll (b :: bs) = b.size + sizeAll bs := List.length_append

theorem preorderAll_eq (bs : List Branch) : preorderAll bs = bs.flatMap preorder := by
  induction bs with
  | nil => rfl
  | cons b bs ih => rw [preorderAll, List.flatMap_cons, ih]

theorem sizeAll_append (bs cs : List Branch) : sizeAll (bs ++ cs) = sizeAll bs + sizeAll cs := by
  simp only [sizeAll, preorderAll_eq, List.flatMap_append, List.length_append]

theorem starts_append (n : Nat) (bs cs : List Branch) :
    starts n (bs ++ cs) = starts n bs ++ starts (n + sizeAll bs) cs := by
  induction bs generalizing n with
  | nil => rfl
  | cons b bs ih =>
      rw [List.cons_append, starts, starts, ih, List.cons_append, sizeAll_cons, Nat.add_assoc]

end Branch

namespace Tree

open Branch (starts sizeAll preorderAll)

variable {t t' t'' : Tree} {scope : Option Nat} {bs cs : List Branch} {n : Nat}

/-! ## Labels -/

def label? (t : Tree) (i : Nat) : Option Label := (t.get? i).map Artifact.label

theorem label?_eq_origin? (t : Tree) (i : Nat) :
    t.label? i = (t.origin? i).map Artifact.label := by
  cases h : t.get? i <;> simp [label?, origin?, h, Artifact.origin, Artifact.label]

theorem label?_congr {i : Nat} (h : t'.origin? i = t.origin? i) : t'.label? i = t.label? i := by
  rw [label?_eq_origin?, h, ← label?_eq_origin?]

theorem any_content (t : Tree) (P : Content → Bool) (i : Nat) :
    (t.get? i).any (fun a => P a.content) = (t.label? i).any fun l => P l.content := by
  cases h : t.get? i <;> simp [label?, h, Artifact.label]

theorem code_congr {i : Nat} (h : t'.origin? i = t.origin? i) :
    (t'.get? i).bind Artifact.code = (t.get? i).bind Artifact.code := by
  have hcode (u : Tree) : (u.get? i).bind Artifact.code = (u.label? i).bind Label.code := by
    cases hu : u.get? i <;> simp [label?, hu, Artifact.label]
  rw [hcode, hcode, label?_congr h]

/-! ## Bearing a branch -/

mutual

/-- The artifact with the given number and all that is below it make up a branch. -/
def Bears (t : Tree) (i : Nat) : Branch → Prop
  | .node label parts =>
      t.label? i = some label ∧ t.parts i = starts (i + 1) parts ∧ BearsAll t (i + 1) parts

def BearsAll (t : Tree) (n : Nat) : List Branch → Prop
  | [] => True
  | b :: bs => Bears t n b ∧ BearsAll t (n + b.size) bs

end

theorem bearsAll_append_iff :
    t.BearsAll n (bs ++ cs) ↔ t.BearsAll n bs ∧ t.BearsAll (n + sizeAll bs) cs := by
  induction bs generalizing n with
  | nil => exact ⟨fun h => ⟨trivial, h⟩, And.right⟩
  | cons b bs ih =>
      rw [List.cons_append, BearsAll, BearsAll, ih, Branch.sizeAll_cons, Nat.add_assoc, and_assoc]

mutual

/-- A branch is borne by every tree with the same labels and parts in its place. -/
theorem Bears.congr : ∀ {b : Branch} {i : Nat},
    (∀ j, i ≤ j → j < i + b.size → t'.label? j = t.label? j ∧ t'.parts j = t.parts j) →
      t.Bears i b → t'.Bears i b
  | .node label parts, i, h, ⟨hlabel, hparts, hbears⟩ => by
      rw [Branch.size_node] at h
      have hself := h i (Nat.le_refl i) (by omega)
      exact ⟨hself.1.trans hlabel, hself.2.trans hparts,
        BearsAll.congr (fun j hij hj => h j (by omega) (by omega)) hbears⟩

theorem BearsAll.congr : ∀ {bs : List Branch} {n : Nat},
    (∀ j, n ≤ j → j < n + sizeAll bs → t'.label? j = t.label? j ∧ t'.parts j = t.parts j) →
      t.BearsAll n bs → t'.BearsAll n bs
  | [], _, _, _ => trivial
  | b :: bs, n, h, ⟨hb, hbs⟩ => by
      rw [Branch.sizeAll_cons] at h
      exact ⟨Bears.congr (fun j hij hj => h j hij (by omega)) hb,
        BearsAll.congr (fun j hij hj => h j (by omega) (by omega)) hbs⟩

end

theorem Bears.label?_eq {b : Branch} {i : Nat} (h : t.Bears i b) : t.label? i = some b.label := by
  cases b
  exact h.1

mutual

/-- The branches in a branch are borne at the numbers that follow on its own. -/
theorem Bears.preorder : ∀ {b : Branch} {i k : Nat} {c : Branch}, t.Bears i b →
    b.preorder[k]? = some c → t.Bears (i + k) c
  | .node label parts, i, 0, c, h, hc => by
      cases hc
      exact h
  | .node label parts, i, k + 1, c, ⟨_, _, hbears⟩, hc => by
      rw [Nat.add_comm k 1, ← Nat.add_assoc]
      exact hbears.preorder hc

theorem BearsAll.preorder : ∀ {bs : List Branch} {n k : Nat} {c : Branch}, t.BearsAll n bs →
    (preorderAll bs)[k]? = some c → t.Bears (n + k) c
  | b :: bs, n, k, c, ⟨hb, hbs⟩, hc => by
      rw [preorderAll] at hc
      rcases Nat.lt_or_ge k b.size with hlt | hge
      · rw [List.getElem?_append_left hlt] at hc
        exact hb.preorder hc
      · rw [List.getElem?_append_right hge] at hc
        have hk : n + b.size + (k - b.size) = n + k := by omega
        exact hk ▸ hbs.preorder hc

end

/-! ## Grafting -/

/-- A tree after branches were added below a scope. -/
structure Grafted (t t' : Tree) (scope : Option Nat) (bs : List Branch) : Prop where
  size_eq : t'.size = t.size + sizeAll bs
  origin? : ∀ i < t.size, t'.origin? i = t.origin? i
  parts_eq : ∀ i < t.size,
    t'.parts i = if scope = some i then t.parts i ++ starts t.size bs else t.parts i
  bears : t'.BearsAll t.size bs

namespace Grafted

theorem nil (t : Tree) (scope : Option Nat) : Grafted t t scope [] where
  size_eq := rfl
  origin? _ _ := rfl
  parts_eq i _ := by
    rw [starts, List.append_nil, ite_self]
  bears := trivial

theorem lt_size (h : Grafted t t' scope bs) {i : Nat} (hi : i < t.size) : i < t'.size :=
  Nat.lt_of_lt_of_le hi (h.size_eq ▸ Nat.le_add_right _ _)

theorem append (h : Grafted t t' scope bs) (h' : Grafted t' t'' scope cs)
    (hscope : ∀ s ∈ scope, s < t.size) : Grafted t t'' scope (bs ++ cs) where
  size_eq := by rw [h'.size_eq, h.size_eq, Branch.sizeAll_append, Nat.add_assoc]
  origin? i hi := (h'.origin? i (h.lt_size hi)).trans (h.origin? i hi)
  parts_eq i hi := by
    rw [h'.parts_eq i (h.lt_size hi), h.parts_eq i hi, h.size_eq, Branch.starts_append]
    split <;> simp
  bears := by
    refine bearsAll_append_iff.mpr ⟨h.bears.congr fun j hj hj' => ?_, h.size_eq ▸ h'.bears⟩
    have hlt : j < t'.size := h.size_eq ▸ hj'
    -- the scope is older than the new artifacts, so their parts stay
    have hne : scope ≠ some j := fun heq => Nat.not_lt.mpr hj (hscope j heq)
    exact ⟨label?_congr (h'.origin? j hlt), by rw [h'.parts_eq j hlt, if_neg hne]⟩

/-- An artifact is added first, and what is below it afterwards. -/
theorem node {l : Label} {parts : List Branch}
    (h : Grafted (t.push scope l.name l.content l.code l.ownLines) t' (some t.size) parts) :
    Grafted t t' scope [.node l parts] where
  size_eq := by
    rw [h.size_eq, size_push, Branch.sizeAll_cons, Branch.size_node, Branch.sizeAll_nil]
    omega
  origin? i hi := by
    rw [h.origin? i (by rw [size_push]; omega), origin?_push_of_ne (Nat.ne_of_lt hi)]
  parts_eq i hi := by
    have hne : some t.size ≠ some i := fun heq => Nat.ne_of_gt hi (Option.some.inj heq)
    rw [h.parts_eq i (by rw [size_push]; omega), if_neg hne, parts_push]
    simp only [hi, and_true]
    rfl
  bears := by
    have hlt : t.size < (t.push scope l.name l.content l.code l.ownLines).size := by
      rw [size_push]
      exact Nat.lt_succ_self _
    refine ⟨⟨?_, ?_, ?_⟩, trivial⟩
    · rw [label?_eq_origin?, h.origin? t.size hlt, origin?_push, if_pos rfl]
      rfl
    · rw [h.parts_eq t.size hlt, if_pos rfl, parts_push, if_neg fun hlt => Nat.lt_irrefl _ hlt.2,
        parts_of_size_le (Nat.le_refl _), size_push, List.nil_append]
    · have hbears := h.bears
      rwa [size_push] at hbears

theorem leaf (t : Tree) (scope : Option Nat) (l : Label) :
    Grafted t (t.push scope l.name l.content l.code l.ownLines) scope [.node l []] :=
  node (nil _ _)

end Grafted

end Tree

/-! ## Folders as branches -/

def SourceFile.branch (f : SourceFile) : Branch :=
  .node ⟨f.name, .file f.path (Uri.ofPath f.path), some f.code, some f.lineCount⟩ []

namespace Folder

mutual

/-- What a folder adds to a tree: itself, its subfolders, and its files behind them. -/
def branch : Folder → Branch
  | ⟨name, _, folders, files⟩ =>
      .node ⟨name, .folder, none, none⟩ (branches folders ++ files.map SourceFile.branch)

def branches : List Folder → List Branch
  | [] => []
  | f :: fs => branch f :: branches fs

end

def Item.branch : Item → Branch
  | .folder f => f.branch
  | .file f => f.branch

theorem label_branch (f : Folder) : f.branch.label = ⟨f.name, .folder, none, none⟩ := by
  cases f
  rfl

theorem Item.isFolder_label (item : Item) :
    item.branch.label.content.isFolder = item.isFolder := by
  cases item with
  | folder f => rw [branch, label_branch]; rfl
  | file f => rfl

theorem Item.isFile_label (item : Item) : item.branch.label.content.isFile = item.isFile := by
  cases item with
  | folder f => rw [branch, label_branch]; rfl
  | file f => rfl

theorem branches_eq (fs : List Folder) : branches fs = fs.map branch := by
  induction fs with
  | nil => rfl
  | cons f fs ih => rw [branches, List.map_cons, ih]

/-- The artifacts of a folder are its items, in the order of a walk. -/
theorem preorder_branch (f : Folder) : f.branch.preorder = f.items.map Item.branch := by
  induction f using induct with
  | h name path folders files ih =>
      have hfiles : (files.flatMap fun f => f.branch.preorder) =
          files.map (Item.branch ∘ Item.file) := List.map_eq_flatMap.symm
      rw [branch, Branch.preorder, Branch.preorderAll_eq, List.flatMap_append, branches_eq,
        List.flatMap_map, List.flatMap_map, List.flatMap_congr ih, hfiles, ← branches_eq, items_mk,
        List.map_cons, List.map_append, List.map_flatMap, List.map_map]
      rfl

end Folder

namespace Tree

variable {t : Tree}

theorem grafted_addFile (t : Tree) (s : Nat) (f : SourceFile) :
    Grafted t (t.addFile s f) (some s) [f.branch] :=
  have h := Grafted.leaf t (some s)
    ⟨f.name, .file f.path (Uri.ofPath f.path), some f.code, some f.lineCount⟩
  ⟨h.size_eq, h.origin?, h.parts_eq, h.bears⟩

theorem grafted_addFiles (files : List SourceFile) {s : Nat} (hs : s < t.size) :
    Grafted t (files.foldl (fun t f => t.addFile s f) t) (some s)
      (files.map SourceFile.branch) := by
  induction files generalizing t with
  | nil => exact .nil t _
  | cons f files ih =>
      have hfile := grafted_addFile t s f
      exact hfile.append (ih (hfile.lt_size hs)) (by rintro _ ⟨⟩; exact hs)

mutual

/-- Adding a folder adds its branch. -/
theorem grafted_addFolder : ∀ (f : Folder) (t : Tree) (scope : Option Nat),
    Grafted t (t.addFolder scope f) scope [f.branch]
  | ⟨name, _, folders, files⟩, t, scope => by
      have hid : t.size < (t.push scope name .folder none none).size := by
        rw [size_push]
        exact Nat.lt_succ_self _
      have hfolders := grafted_addFolders folders hid
      have hfiles := grafted_addFiles files (hfolders.lt_size hid)
      exact (hfolders.append hfiles (by rintro _ ⟨⟩; exact hid)).node

theorem grafted_addFolders : ∀ (fs : List Folder) {t : Tree} {s : Nat}, s < t.size →
    Grafted t (t.addFolders s fs) (some s) (Folder.branches fs)
  | [], t, _, _ => .nil t _
  | f :: fs, t, s, hs => by
      have hf := grafted_addFolder f t (some s)
      exact hf.append (grafted_addFolders fs (hf.lt_size hs)) (by rintro _ ⟨⟩; exact hs)

end

/-- The tree of a folder is the branch of that folder. -/
theorem bears_ofFolder (f : Folder) : (ofFolder f).Bears root f.branch :=
  (grafted_addFolder f empty none).bears.1

end Tree

/-! ## Outlines as branches -/

namespace Outline

namespace Entry

mutual

/-- What an outline entry of a file with the given text adds to a tree. -/
def branch (file : Nat) (text : Option String) : Entry → Branch
  | ⟨name, _, kind, range, selection, none⟩ =>
      .node ⟨name, .symbol ⟨kind, range, selection, file⟩,
        text.map fun text => Tree.snippet text range, some range.lineCount⟩ []
  | ⟨name, _, kind, range, selection, some entries⟩ =>
      .node ⟨name, .symbol ⟨kind, range, selection, file⟩,
        text.map fun text => Tree.snippet text range, some range.lineCount⟩
        (branches file text entries)

def branches (file : Nat) (text : Option String) : List Entry → List Branch
  | [] => []
  | e :: es => branch file text e :: branches file text es

end

end Entry

end Outline

namespace Tree

variable {t : Tree} {file : Nat} {text : Option String}

mutual

@[simp] theorem size_addSymbol (file : Nat) : ∀ (e : Outline.Entry) (t : Tree) (s : Nat),
    (t.addSymbol s file e).size = t.size + e.count
  | ⟨name, _, kind, range, selection, none⟩, t, s => by
      rw [addSymbol, size_push, Outline.Entry.count]
  | ⟨name, _, kind, range, selection, some entries⟩, t, s => by
      rw [addSymbol, size_addSymbols, size_push, Outline.Entry.count, Nat.add_assoc]

@[simp] theorem size_addSymbols (file : Nat) : ∀ (es : List Outline.Entry) (t : Tree) (s : Nat),
    (t.addSymbols s file es).size = t.size + Outline.Entry.countAll es
  | [], _, _ => rfl
  | e :: es, t, s => by
      rw [addSymbols_cons, size_addSymbols, size_addSymbol, Outline.Entry.countAll_cons,
        Nat.add_assoc]

end

mutual

/-- Of what was there before only the scope gets another part. -/
theorem parts_addSymbol_of_ne (file : Nat) : ∀ (e : Outline.Entry) {t : Tree} {s i : Nat},
    i < t.size → i ≠ s → (t.addSymbol s file e).parts i = t.parts i
  | ⟨name, _, kind, range, selection, none⟩, t, s, i, _, hs => by
      rw [addSymbol, parts_push, if_neg fun h => hs (Option.some.inj h.1).symm]
  | ⟨name, _, kind, range, selection, some entries⟩, t, s, i, hi, hs => by
      rw [addSymbol, parts_addSymbols_of_ne file entries _ (Nat.ne_of_lt hi), parts_push,
        if_neg fun h => hs (Option.some.inj h.1).symm]
      rw [size_push]
      exact Nat.lt_succ_of_lt hi

theorem parts_addSymbols_of_ne (file : Nat) : ∀ (es : List Outline.Entry) {t : Tree} {s i : Nat},
    i < t.size → i ≠ s → (t.addSymbols s file es).parts i = t.parts i
  | [], _, _, _, _, _ => rfl
  | e :: es, t, s, i, hi, hs => by
      rw [addSymbols_cons, parts_addSymbols_of_ne file es _ hs, parts_addSymbol_of_ne file e hi hs]
      rw [size_addSymbol]
      exact Nat.lt_add_right _ hi

end

/-- An artifact whose code is cut out of the text of a file leaves that text, also where there
is no such file yet and the artifact gets its number: there is nothing to cut then. -/
theorem code_push (t : Tree) (scope : Option Nat) (name : String) (content : Content)
    (file : Nat) (cut : String → String) (ownLines : Option Nat) :
    ((t.push scope name content (((t.get? file).bind Artifact.code).map cut) ownLines).get?
      file).bind Artifact.code = (t.get? file).bind Artifact.code := by
  rw [get?_push]
  split
  · next heq =>
      subst heq
      rw [(t.get?_eq_none_iff t.size).mpr (Nat.le_refl _)]
      rfl
  · cases t.get? file with
    | none => rfl
    | some a =>
        rw [Option.map_some, Option.bind_some, Option.bind_some]
        split <;> rfl

mutual

theorem code_addSymbol (file : Nat) : ∀ (e : Outline.Entry) (t : Tree) (s : Nat),
    ((t.addSymbol s file e).get? file).bind Artifact.code = (t.get? file).bind Artifact.code
  | ⟨name, _, kind, range, selection, none⟩, t, s => by
      rw [addSymbol, code_push]
  | ⟨name, _, kind, range, selection, some entries⟩, t, s => by
      rw [addSymbol, code_addSymbols, code_push]

theorem code_addSymbols (file : Nat) : ∀ (es : List Outline.Entry) (t : Tree) (s : Nat),
    ((t.addSymbols s file es).get? file).bind Artifact.code = (t.get? file).bind Artifact.code
  | [], _, _ => rfl
  | e :: es, t, s => by
      rw [addSymbols_cons, code_addSymbols, code_addSymbol]

end

mutual

/-- Adding an outline entry of a file adds its branch. -/
theorem grafted_addSymbol : ∀ (e : Outline.Entry) {t : Tree} (scope : Nat),
    (t.get? file).bind Artifact.code = text →
      Grafted t (t.addSymbol scope file e) (some scope) [e.branch file text]
  | ⟨name, _, kind, range, selection, none⟩, t, scope, htext => by
      rw [addSymbol, htext]
      exact .leaf t (some scope) ⟨name, _, _, _⟩
  | ⟨name, _, kind, range, selection, some entries⟩, t, scope, htext => by
      rw [addSymbol, htext]
      refine Grafted.node (grafted_addSymbols entries ?_ ?_)
      · rw [size_push]
        exact Nat.lt_succ_self _
      · rw [← htext]
        exact code_push ..

theorem grafted_addSymbols : ∀ (es : List Outline.Entry) {t : Tree} {scope : Nat},
    scope < t.size → (t.get? file).bind Artifact.code = text →
      Grafted t (t.addSymbols scope file es) (some scope) (Outline.Entry.branches file text es)
  | [], t, _, _, _ => .nil t _
  | e :: es, t, scope, hscope, htext => by
      have he := grafted_addSymbol e scope htext
      have hes := grafted_addSymbols es (he.lt_size hscope)
        ((code_addSymbol file e t scope).trans htext)
      exact he.append hes (by rintro _ ⟨⟩; exact hscope)

end

end Tree

end SourceAtlas
