import SourceAtlas.Ascending
import SourceAtlas.Folder
/-!
# Files by their steps

An index collects files one after another, each under the steps that lead to it
from a root folder. A folder exists in an index only once a file lands in it, and
names are ascending throughout, so the order in which files are entered leaves no
trace. `Index.toFolder` gives the folders their paths.
-/

namespace SourceAtlas

inductive Index where
  | node (folders : List (String × Index)) (files : List (String × SourceFile))
  deriving Inhabited

namespace Index

def empty : Index := .node [] []

/-- Enters a file under its steps, of which the last one is its name. Without any
step there is no place for it. -/
def insert (path : Path) (code : String) : List String → Index → Index
  | [], i => i
  | [name], .node folders files =>
      .node folders (Ascending.put name ⟨name, path, code⟩ files)
  | step :: steps, .node folders files =>
      .node
        (Ascending.alter step (fun below => insert path code steps (below.getD empty)) folders)
        files

@[simp] theorem insert_nil (path : Path) (code : String) (i : Index) :
    insert path code [] i = i := by
  simp [insert]

mutual

/-- The folder that an index describes, with the given name and path. -/
def toFolder (name : String) (path : Path) : Index → Folder
  | .node folders files => ⟨name, path, toFolders path folders, files.map Prod.snd⟩

def toFolders (path : Path) : List (String × Index) → List Folder
  | [] => []
  | (name, i) :: rest => toFolder name (path.join ⟨name⟩) i :: toFolders path rest

end

end Index

end SourceAtlas
