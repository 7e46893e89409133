import SourceAtlas.Path
import SourceAtlas.Text.Lines
import SourceAtlas.Total
/-!
# Folders of source files

A loaded folder holds its subfolders and its files, each with its name and its
path. Counts are recursions on the folder tree, and the summary line of a scan is
read off them.
-/

namespace SourceAtlas

structure SourceFile where
  name : String
  path : Path
  code : String
  deriving DecidableEq, Inhabited, Repr

def SourceFile.lineCount (f : SourceFile) : Nat :=
  Text.lineCount f.code

/-- A folder with its subfolders and its files, both in the order of their
names. -/
structure Folder where
  name : String
  path : Path
  folders : List Folder
  files : List SourceFile
  deriving Inhabited

namespace Folder

mutual

def fileCount : Folder → Nat
  | ⟨_, _, folders, files⟩ => files.length + fileCountAll folders

def fileCountAll : List Folder → Nat
  | [] => 0
  | f :: fs => fileCount f + fileCountAll fs

end

mutual

def folderCount : Folder → Nat
  | ⟨_, _, folders, _⟩ => 1 + folderCountAll folders

def folderCountAll : List Folder → Nat
  | [] => 0
  | f :: fs => folderCount f + folderCountAll fs

end

mutual

def lineCount : Folder → Nat
  | ⟨_, _, folders, files⟩ => total SourceFile.lineCount files + lineCountAll folders

def lineCountAll : List Folder → Nat
  | [] => 0
  | f :: fs => lineCount f + lineCountAll fs

end

structure Scan where
  files : Nat
  folders : Nat
  lines : Nat
  deriving DecidableEq, Inhabited, Repr

def scan (f : Folder) : Scan :=
  ⟨f.fileCount, f.folderCount, f.lineCount⟩

def Scan.render (s : Scan) : String :=
  s!"Found {s.files} source files in {s.folders} folders ({s.lines} lines)"

end Folder

end SourceAtlas
