import SourceAtlas.CommandLine.Run
/-!
# The program

Copies the part of the disk that a command line is about, lets `CommandLine.run`
look at the copy and prints the output.

The copy holds the way to every path in question, with its links, the rule files of
all folders that were passed, and the tree below the project folder. Only files
whose text may count are read.
-/

namespace SourceAtlas

namespace Copy

/-- Copies an entry of a folder. A link becomes a link to the end of its way, which
is given as well. -/
def entry (d : Disk) (e : IO.FS.DirEntry) : IO (Disk × Option String) := do
  let path : Path := ⟨e.path.toString⟩
  match ← e.path.symlinkMetadata.toBaseIO with
  | .error _ => return (d, none)
  | .ok facts =>
      match facts.type with
      | .dir => return (d.makeFolder path, none)
      | .file => return (d.write path (← IO.FS.readBinFile e.path).toList true, none)
      | .symlink =>
          match ← (IO.FS.realPath e.path).toBaseIO with
          | .error _ => return (d, none)
          | .ok target => return (d.makeLink path ⟨target.toString⟩, some target.toString)
      | .other => return (d, none)

def names (path : String) : List String :=
  (path.splitOn "/").filter fun name => name ≠ ""

/-- Copies the way from a folder to what is below it, and the ways that the links on
it lead. -/
partial def way (d : Disk) (folder : String) : List String → IO Disk
  | [] => return d
  | name :: rest => do
      let (d, target) ← entry d ⟨folder, name⟩
      let d ← match target with
        | some target => way d "/" (names target)
        | none => pure d
      way d (folder ++ "/" ++ name) rest

def rules (d : Disk) (folder : String) : IO Disk := do
  let d ← way d folder [".gitignore"]
  way d folder [".git", "info", "exclude"]

/-- Copies the rule files of a folder that names lead to, and of the folders on the
way to it. -/
def rulesOnWay (d : Disk) (folder : String) : List String → IO Disk
  | [] => rules d folder
  | name :: rest => do
      let d ← rules d folder
      rulesOnWay d (folder ++ "/" ++ name) rest

/-- Copies the folders below a folder, with the files in them that may be loaded. -/
partial def tree (d : Disk) (o : Load.Options) (folder : String) : IO Disk := do
  let mut d ← rules d folder
  for found in ← (IO.FS.DirEntry.mk folder ".").path.readDir do
    let e : IO.FS.DirEntry := ⟨folder, found.fileName⟩
    match (← e.path.symlinkMetadata).type with
    | .dir =>
        d := (← entry d e).1
        if !o.excluded.contains e.fileName then
          d ← tree d o e.path.toString
    | .file =>
        if o.accepts e.fileName then
          d := (← entry d e).1
    | _ => pure ()
  return d

/-- Copies the way to a path, which may start from the current folder. -/
def path (d : Disk) (here : String) (p : Path) : IO Disk :=
  way d (if p.isAbsolute then "/" else here) (names p.text)

def project (d : Disk) (here : String) (c : Config) : IO Disk := do
  let d ← path d here c.root
  match d.resolve c.root with
  | .ok place =>
      if d.hasFolder c.root then
        let d ← tree d c.loadOptions (Disk.pathOf place).text
        rulesOnWay d "" place
      else return d
  | .error _ => return d

def all (i : CommandLine.Invocation) : IO Disk := do
  let here := (← IO.FS.realPath ".").toString
  let d ← way Disk.empty "/" (names here)
  let d := { d with current := names here }
  let d ← path d here ((i.root.elim ⟨""⟩ Path.mk).join ⟨Config.fileName⟩)
  let d ← path d here ⟨i.config.getD ""⟩
  match i.configuration d with
  | .ok c => project d here c
  | .error _ => return d

end Copy

/-- The starter of this program, which can tell why a server does not start but
starts none. -/
def CommandLine.Starter.none (d : Disk) : CommandLine.Starter := fun c =>
  (d.mayRun c.command c.arguments c.root).bind fun _ => .error .cannotStart

end SourceAtlas

open SourceAtlas in
def main (args : List String) : IO UInt32 := do
  let output ← match CommandLine.read args with
    | .error e => pure (CommandLine.Output.refusal e)
    | .ok i => do
        let d ← Copy.all i
        pure (CommandLine.run d (.none d) 0 i)
  IO.print output.out
  IO.eprint output.err
  return output.exitCode
