import SourceAtlas.Disk.Walk
import SourceAtlas.Failure
import SourceAtlas.Folder.Index
/-!
# Loading a folder

The source files below a folder are the regular files with an accepted extension that a walk
from there comes to. Folders with an excluded name are not entered, and what the walk passes
over by itself is not seen: hidden entries where that is wanted, and entries that ignore rules
say no to, where these count. Links are neither followed nor listed; only the root itself may
be reached through one.

Loading fails when the root cannot be reached or is no folder, and when there is no
source file at all.
-/

namespace SourceAtlas

namespace Load

structure Options where
  root : Path
  extensions : List String
  excluded : List String
  respectIgnoreRules : Bool
  skipHidden : Bool
  deriving DecidableEq, Inhabited, Repr

namespace Options

/-- All source files with the given extensions, hidden ones apart. An extension may
be written with its dot. -/
def ofExtensions (root : Path) (extensions : List String) : Options :=
  ⟨root, extensions.map Text.dropLeadingDots, [], false, true⟩

def accepts (o : Options) (name : String) : Bool :=
  (Path.extensionOf? name).any fun e => o.extensions.contains e

end Options

/-- A source file: the steps that lead to it from the root, and its octets. -/
structure Found where
  steps : List String
  octets : List UInt8
  deriving DecidableEq, Inhabited, Repr

namespace Options

/-- Whether a walk from the root does not pass an entry over: not where it is a folder with an
excluded name. -/
def enters (o : Options) (e : Disk.Walk.Entry) : Bool :=
  match e.steps.getLast? with
  | some name => !(e.node.isFolder && o.excluded.contains name)
  | none => true

def settings (o : Options) (place : List String) : Disk.Walk.Settings :=
  ⟨place, o.skipHidden, o.respectIgnoreRules, o.enters⟩

/-- What a walk has come to, where it is a source file. -/
def found? (o : Options) (e : Disk.Walk.Entry) : Option Found :=
  match e.node, e.steps.getLast? with
  | .file octets _, some name => if o.accepts name then some ⟨e.steps, octets⟩ else none
  | _, _ => none

end Options

/-- The source files that a walk from a place comes to. -/
def collect (walk : Disk.Walk) (d : Disk) (o : Options) (place : List String) : List Found :=
  (walk d (o.settings place)).filterMap o.found?

def enter (place : List String) (i : Index) (f : Found) : Index :=
  i.insert (Disk.pathOf (place ++ f.steps)) (Utf8.decodeLossy f.octets) f.steps

/-- The folder that source files of the folder at a place make up. -/
def assemble (place : List String) (found : List Found) : Folder :=
  let path := Disk.pathOf place
  (found.foldl (enter place) Index.empty).toFolder path.displayName path

end Load

/-- The folder that the root of the options leads to, as a walk finds it. -/
def Folder.loadWith (walk : Disk.Walk) (d : Disk) (o : Load.Options) : Except Failure Folder :=
  match d.resolve o.root with
  | .error e => .error (.input (.inaccessible o.root e))
  | .ok place =>
      match d.node? place with
      | some (.folder _) =>
          let folder := Load.assemble place (Load.collect walk d o place)
          if folder.fileCount = 0 then
            .error (.input (.noMatchingFiles (Disk.pathOf place) o.extensions))
          else .ok folder
      | _ => .error (.input (.notAFolder (Disk.pathOf place)))

def Folder.load (d : Disk) (o : Load.Options) : Except Failure Folder :=
  Folder.loadWith .standard d o

end SourceAtlas
