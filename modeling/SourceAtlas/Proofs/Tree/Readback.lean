import SourceAtlas.Proofs.Tree.Branch
import SourceAtlas.Proofs.Tree.Containment
/-!
# Outlines read back

The symbols below an artifact can be read as outline entries again (`Tree.readBack?`). Of an
entry a tree does not keep the detail, nor whether a list of nested entries was empty or left
out; what is left is its plain form. Where a tree bears the branch of an entry, the plain
form of that entry is read (`Bears.readBack?_eq`), and the entries nested in it are read at the
numbers that follow, in preorder (`preorderAll_branches`).
-/

namespace SourceAtlas

namespace Outline

namespace Entry

mutual

/-- An entry without what a tree does not keep of it. -/
def plain : Entry → Entry
  | ⟨name, _, kind, range, selection, none⟩ => ⟨name, none, kind, range, selection, some []⟩
  | ⟨name, _, kind, range, selection, some entries⟩ =>
      ⟨name, none, kind, range, selection, some (plainAll entries)⟩

def plainAll : List Entry → List Entry
  | [] => []
  | e :: es => plain e :: plainAll es

end

mutual

/-- An entry and all entries nested in it, each before those in it. -/
def preorder : Entry → List Entry
  | ⟨name, detail, kind, range, selection, none⟩ =>
      [⟨name, detail, kind, range, selection, none⟩]
  | ⟨name, detail, kind, range, selection, some entries⟩ =>
      ⟨name, detail, kind, range, selection, some entries⟩ :: preorderAll entries

def preorderAll : List Entry → List Entry
  | [] => []
  | e :: es => preorder e ++ preorderAll es

end

theorem plainAll_eq (es : List Entry) : plainAll es = es.map plain := by
  induction es with
  | nil => rfl
  | cons e es ih => rw [plainAll, List.map_cons, ih]

mutual

theorem length_preorder : ∀ e : Entry, e.preorder.length = e.count
  | ⟨name, detail, kind, range, selection, none⟩ => rfl
  | ⟨name, detail, kind, range, selection, some entries⟩ => by
      rw [preorder, List.length_cons, length_preorderAll, count, Nat.add_comm]

theorem length_preorderAll : ∀ es : List Entry, (preorderAll es).length = countAll es
  | [] => rfl
  | e :: es => by
      rw [preorderAll, List.length_append, length_preorder, length_preorderAll, countAll_cons]

end

variable (file : Nat) (text : Option String)

mutual

/-- The artifacts of an entry are those of the entries in it, in the same order. -/
theorem preorder_branch : ∀ e : Entry,
    (e.branch file text).preorder = e.preorder.map (branch file text)
  | ⟨name, detail, kind, range, selection, none⟩ => rfl
  | ⟨name, detail, kind, range, selection, some entries⟩ => by
      rw [branch, Branch.preorder, preorderAll_branches, preorder, List.map_cons, branch]

theorem preorderAll_branches : ∀ es : List Entry,
    Branch.preorderAll (branches file text es) = (preorderAll es).map (branch file text)
  | [] => rfl
  | e :: es => by
      rw [branches, Branch.preorderAll, preorder_branch, preorderAll_branches, preorderAll,
        List.map_append]

end

theorem label_branch (e : Entry) : (e.branch file text).label =
    ⟨e.name, .symbol ⟨e.kind, e.range, e.selection, file⟩,
      text.map fun text => Tree.snippet text e.range, some e.range.lineCount⟩ := by
  obtain ⟨name, detail, kind, range, selection, children⟩ := e
  cases children <;> rfl

theorem sizeAll_branches (es : List Entry) :
    Branch.sizeAll (branches file text es) = (preorderAll es).length := by
  rw [Branch.sizeAll, preorderAll_branches, List.length_map]

end Entry

end Outline

namespace Tree

open Branch (starts)

variable {t : Tree} {file i n : Nat} {text : Option String}

/-- A symbol and what is below it as an outline entry; nothing where there is something else
than symbols. -/
def readBack? (t : Tree) (i : Nat) : Option Outline.Entry :=
  t.fold (fun j below => do
    let label ← t.label? j
    let facts ← label.content.facts?
    let entries ← below.mapM id
    return ⟨label.name, none, facts.kind, facts.range, facts.selection, some entries⟩) i

/-- The parts of a file as its outline. -/
def outline? (t : Tree) (file : Nat) : Option (List Outline.Entry) :=
  (t.parts file).mapM t.readBack?

theorem readBack?_eq (h : t.WellFormed) (i : Nat) : t.readBack? i = do
    let label ← t.label? i
    let facts ← label.content.facts?
    let entries ← t.outline? i
    return ⟨label.name, none, facts.kind, facts.range, facts.selection, some entries⟩ := by
  rw [readBack?, h.fold_eq, List.mapM_map]
  rfl

mutual

theorem Bears.readBack?_eq (h : t.WellFormed) : ∀ {e : Outline.Entry} {i : Nat},
    t.Bears i (e.branch file text) → t.readBack? i = some e.plain
  | ⟨name, _, kind, range, selection, none⟩, i, ⟨hlabel, hparts, _⟩ => by
      rw [Tree.readBack?_eq h, hlabel, outline?, hparts]
      rfl
  | ⟨name, _, kind, range, selection, some entries⟩, i, ⟨hlabel, hparts, hbears⟩ => by
      rw [Tree.readBack?_eq h, hlabel, outline?, hparts]
      simp only [BearsAll.mapM_readBack?_starts h hbears]
      rfl

theorem BearsAll.mapM_readBack?_starts (h : t.WellFormed) : ∀ {es : List Outline.Entry} {n : Nat},
    t.BearsAll n (Outline.Entry.branches file text es) →
      (starts n (Outline.Entry.branches file text es)).mapM t.readBack? =
        some (Outline.Entry.plainAll es)
  | [], _, _ => rfl
  | e :: es, n, ⟨he, hes⟩ => by
      rw [Outline.Entry.branches, starts, List.mapM_cons, he.readBack?_eq h,
        BearsAll.mapM_readBack?_starts h hes]
      rfl

end

/-- What is below the symbol of an entry is what is nested in the entry. -/
theorem Bears.outline?_eq (h : t.WellFormed) : ∀ {e : Outline.Entry} {i : Nat},
    t.Bears i (e.branch file text) → t.outline? i = some (e.nested.map Outline.Entry.plain)
  | ⟨_, _, _, _, _, none⟩, i, ⟨_, hparts, _⟩ => by
      rw [outline?, hparts]
      rfl
  | ⟨_, _, _, _, _, some entries⟩, i, ⟨_, hparts, hbears⟩ => by
      rw [outline?, hparts, hbears.mapM_readBack?_starts h, Outline.Entry.plainAll_eq]
      rfl

theorem facts?_eq_label? (t : Tree) (i : Nat) :
    t.facts? i = (t.label? i).bind fun l => l.content.facts? := by
  rw [facts?, label?, Option.bind_map]
  rfl

/-- The symbol of an entry records the file it was extracted from. -/
theorem Bears.facts?_eq {e : Outline.Entry} (h : t.Bears i (e.branch file text)) :
    t.facts? i = some ⟨e.kind, e.range, e.selection, file⟩ := by
  rw [facts?_eq_label?, h.label?_eq, Option.bind_some, Outline.Entry.label_branch]
  rfl

end Tree

end SourceAtlas
