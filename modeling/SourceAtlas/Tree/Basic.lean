import SourceAtlas.Folder
import SourceAtlas.Outline
import SourceAtlas.Tree.Artifact
import SourceAtlas.Uri
/-!
# Artifact trees

A tree is an array of artifacts; the number of an artifact is its place in the
array, and the root has number zero. Nothing is ever removed. An artifact is
added below an artifact that is already there, so its number is greater than the
number of its scope, and every walk down the parts or up the scopes ends.

`ofFolder` makes the folders and files of a tree, `addSymbol` adds the symbols
of an outline. Files are found again by the uri the server reports, through the
steps of the path that the uri stands for.
-/

namespace SourceAtlas

/-- Folders, files and symbols with their containment and their dependencies. -/
structure Tree where
  artifacts : Array Artifact
  files : List (List Path.Component × Nat)
  measured : Bool
  deriving Inhabited

namespace Tree

/-- The tree without artifacts, which every construction starts from. -/
def empty : Tree := ⟨#[], [], false⟩

def root : Nat := 0

def size (t : Tree) : Nat := t.artifacts.size

def get? (t : Tree) (id : Nat) : Option Artifact := t.artifacts[id]?

/-- The parts of an artifact; none where there is no such artifact. -/
def parts (t : Tree) (id : Nat) : List Nat :=
  match t.get? id with
  | some a => a.parts
  | none => []

def scopeOf? (t : Tree) (id : Nat) : Option Nat :=
  (t.get? id).bind Artifact.scope

def facts? (t : Tree) (id : Nat) : Option SymbolFacts :=
  (t.get? id).bind fun a => a.content.facts?

def isSymbol (t : Tree) (id : Nat) : Bool :=
  (t.facts? id).isSome

def isFile (t : Tree) (id : Nat) : Bool :=
  (t.get? id).any fun a => a.content.isFile

def isFolder (t : Tree) (id : Nat) : Bool :=
  (t.get? id).any fun a => a.content.isFolder

def links (t : Tree) (id : Nat) : Links :=
  match t.get? id with
  | some a => a.links
  | none => Links.empty

def metrics (t : Tree) (id : Nat) : Metrics :=
  match t.get? id with
  | some a => a.metrics
  | none => Metrics.absent

def update (t : Tree) (id : Nat) (f : Artifact → Artifact) : Tree :=
  { t with artifacts := t.artifacts.modify id f }

/-- Adds an artifact as the last part of its scope. Its number is the number of
artifacts there were before. -/
def push (t : Tree) (scope : Option Nat) (name : String) (content : Content)
    (code : Option String) (ownLines : Option Nat) : Tree :=
  let id := t.size
  let attached := match scope with
    | some s => t.update s fun a => { a with parts := a.parts ++ [id] }
    | none => t
  { attached with
    artifacts := attached.artifacts.push
      ⟨id, name, content, code, scope, [], Metrics.absent, Links.empty, ownLines⟩ }

@[simp] theorem size_update (t : Tree) (id : Nat) (f : Artifact → Artifact) :
    (t.update id f).size = t.size := by
  simp [update, size]

theorem get?_update (t : Tree) (id : Nat) (f : Artifact → Artifact) (i : Nat) :
    (t.update id f).get? i = if id = i then (t.get? i).map f else t.get? i := by
  rw [update, get?, Array.getElem?_modify]
  rfl

@[simp] theorem size_push (t : Tree) (scope : Option Nat) (name : String)
    (content : Content) (code : Option String) (ownLines : Option Nat) :
    (t.push scope name content code ownLines).size = t.size + 1 := by
  cases scope <;> simp [push, size, update]

theorem get?_eq_none_iff (t : Tree) (i : Nat) : t.get? i = none ↔ t.size ≤ i := by
  simp [get?, size]

theorem exists_get? (t : Tree) {i : Nat} (h : i < t.size) : ∃ a, t.get? i = some a :=
  ⟨t.artifacts[i], Array.getElem?_eq_getElem h⟩

/-- An added artifact stands last. Of the others only its scope is changed, and
that in its parts alone. -/
theorem get?_push (t : Tree) (scope : Option Nat) (name : String) (content : Content)
    (code : Option String) (ownLines : Option Nat) (i : Nat) :
    (t.push scope name content code ownLines).get? i =
      if i = t.size then
        some ⟨t.size, name, content, code, scope, [], Metrics.absent, Links.empty, ownLines⟩
      else
        (t.get? i).map fun a =>
          if scope = some i then { a with parts := a.parts ++ [t.size] } else a := by
  cases scope with
  | none => simp [push, get?, Array.getElem?_push, size]
  | some s =>
      have hsize := size_update t s fun a => { a with parts := a.parts ++ [t.size] }
      rw [size] at hsize
      simp only [push, get?, Array.getElem?_push, hsize]
      split
      · rfl
      · have := get?_update t s (fun a => { a with parts := a.parts ++ [t.size] }) i
        rw [get?, get?] at this
        rw [this]
        by_cases hs : s = i
        · simp [hs]
        · simp [hs]

/-! ## Folders and files -/

def addFile (t : Tree) (scope : Nat) (f : SourceFile) : Tree :=
  let id := t.size
  let added := t.push (some scope) f.name (.file f.path (Uri.ofPath f.path)) (some f.code)
    (some f.lineCount)
  { added with files := (f.path.components, id) :: added.files }

mutual

def addFolder (t : Tree) (scope : Option Nat) : Folder → Tree
  | ⟨name, _, folders, files⟩ =>
      let id := t.size
      files.foldl (fun t f => t.addFile id f)
        (addFolders (t.push scope name .folder none none) id folders)

def addFolders (t : Tree) (scope : Nat) : List Folder → Tree
  | [] => t
  | f :: fs => addFolders (addFolder t (some scope) f) scope fs

end

def ofFolder (f : Folder) : Tree :=
  empty.addFolder none f

/-! ## Symbols -/

/-- The lines of `text` that a range covers. -/
def snippet (text : String) (r : Range) : String :=
  Text.excerpt text r.start.line.toNat r.lineCount

mutual

/-- Adds a symbol below a scope, then the symbols nested in it. The file is the
one the outline was asked for; its text gives the code of the symbols. -/
def addSymbol (t : Tree) (scope file : Nat) : Outline.Entry → Tree
  | ⟨name, _, kind, range, selection, children⟩ =>
      let id := t.size
      let code := ((t.get? file).bind Artifact.code).map fun text => snippet text range
      let added := t.push (some scope) name (.symbol ⟨kind, range, selection, file⟩) code
        (some range.lineCount)
      match children with
      | none => added
      | some entries => addSymbols added id file entries

def addSymbols (t : Tree) (scope file : Nat) : List Outline.Entry → Tree
  | [] => t
  | e :: es => addSymbols (addSymbol t scope file e) scope file es

end

@[simp] theorem addSymbols_nil (t : Tree) (scope file : Nat) :
    t.addSymbols scope file [] = t := rfl

@[simp] theorem addSymbols_cons (t : Tree) (scope file : Nat) (e : Outline.Entry)
    (es : List Outline.Entry) :
    t.addSymbols scope file (e :: es) = (t.addSymbol scope file e).addSymbols scope file es := rfl

/-- Adds a symbol with all nested ones and tells the number it was given. -/
def placeSymbol (t : Tree) (scope file : Nat) (e : Outline.Entry) : Tree × Nat :=
  (t.addSymbol scope file e, t.size)

/-! ## Files by uri -/

def fileForUri? (t : Tree) (uri : String) : Option Nat :=
  (Uri.toPath? uri).bind fun p => t.files.lookup p.components

end Tree

end SourceAtlas
