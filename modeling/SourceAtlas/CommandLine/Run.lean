import SourceAtlas.CommandLine.Arguments
import SourceAtlas.Json.Writer
import SourceAtlas.Project
import SourceAtlas.Tree.Export
/-!
# Running commands

A command runs on a disk and gives what is to be printed. `scan` prints one line of
counts, `analyze` the tree as indented text or as a JSON snapshot. Every failure is
one line of its own, and nothing is printed besides it.
-/

namespace SourceAtlas

namespace CommandLine

def FileFilter.apply (f : FileFilter) (c : Config) : Config :=
  { c with
    extensions := if f.extensions.isEmpty then c.extensions else f.extensions
    excludedFolders := c.excludedFolders ++ f.excluded }

structure Output where
  exitCode : UInt32
  out : String
  err : String
  deriving DecidableEq, Inhabited, Repr

namespace Output

def success (text : String) : Output := ⟨0, text, ""⟩

def failure (text : String) : Output := ⟨1, "", "Error: " ++ text ++ "\n"⟩

def usage : String :=
  "Usage: archlens [--root DIR] [--config FILE] analyze [--server COMMAND] [--server-arg ARG]\n"
    ++ "         [--ext EXT] [--exclude NAME] [--json] [--depth LEVELS]\n"
    ++ "       archlens [--root DIR] [--config FILE] scan [--ext EXT] [--exclude NAME]\n"

/-- The output for a command line that asks for nothing that can be done. -/
def refusal : Refusal → Output
  | .help => ⟨0, usage, ""⟩
  | _ => ⟨2, "", usage⟩

end Output

def scan (d : Disk) (c : Config) : Output :=
  match Folder.load d c.loadOptions with
  | .error e => .failure e.chain
  | .ok folder => .success (folder.scan.render ++ "\n")

def printTree (t : Tree) (json : Bool) (depth : Option Nat) : String :=
  if json then
    match t.snapshot? Tree.root depth with
    | some s => s.toJson.writeIndented ++ "\n"
    | none => ""
  else t.render depth

def Starter : Type := Config → Except Disk.Error Server

def analyze (d : Disk) (start : Starter) (processId : Nat) (c : Config) (json : Bool)
    (depth : Option Nat) : Output :=
  match Project.create d c with
  | .error e => .failure e.chain
  | .ok project =>
      match project.analyze d (start c) processId (.start false) with
      | (_, _, .error e) => .failure e.chain
      | (_, _, .ok tree) => .success (printTree tree json depth)

def Command.apply (command : Command) (c : Config) : Config :=
  match command with
  | .scan filter => filter.apply c
  | .analyze server serverArguments filter _ _ =>
      { filter.apply c with
        command := server.getD c.command
        arguments := if serverArguments.isEmpty then c.arguments else serverArguments }

def Invocation.configuration (d : Disk) (i : Invocation) : Except Failure Config :=
  (Config.find d (i.root.map Path.mk) (i.config.map Path.mk)).map i.command.apply

def run (d : Disk) (start : Starter) (processId : Nat) (i : Invocation) : Output :=
  match i.configuration d with
  | .error e => .failure ("failed to load configuration: " ++ e.chain)
  | .ok c =>
      match i.command with
      | .scan _ => scan d c
      | .analyze _ _ _ json depth => analyze d start processId c json depth

def output (d : Disk) (start : Starter) (processId : Nat) (args : List String) : Output :=
  match read args with
  | .error e => .refusal e
  | .ok i => run d start processId i

end CommandLine

end SourceAtlas
