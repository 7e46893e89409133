import SourceAtlas.Analysis.Extract
import SourceAtlas.Load
import SourceAtlas.Toml.Document
/-!
# Configurations

A configuration says which files belong to a project and which language server is
asked about them. It is read from a file, and every setting that the file leaves out
has a default. A relative project folder counts from the folder of the file.

`validate` names the first thing that keeps an analysis from running. Configurations
that are read from a file are validated; the default one need not be.
-/

namespace SourceAtlas

structure Config where
  root : Path
  extensions : List String
  excludedFolders : List String
  respectIgnoreRules : Bool
  skipHidden : Bool
  command : String
  arguments : List String
  language : String
  maxRequests : Nat
  openDocuments : Bool
  deriving DecidableEq, Inhabited, Repr

namespace Config

def standard : Config where
  root := ⟨"."⟩
  extensions := ["swift"]
  excludedFolders := [".build", ".git"]
  respectIgnoreRules := false
  skipHidden := true
  command := "sourcekit-lsp"
  arguments := []
  language := "swift"
  maxRequests := 8
  openDocuments := true

def normalizedExtensions (c : Config) : List String :=
  c.extensions.map Text.dropLeadingDots

def validate (c : Config) : Except ConfigFault Unit :=
  if c.extensions.isEmpty then .error .noExtensions
  else if (Text.trim c.command).isEmpty then .error .emptyCommand
  else if c.maxRequests = 0 then .error .noConcurrency
  else .ok ()

def loadOptions (c : Config) : Load.Options :=
  ⟨c.root, c.normalizedExtensions, c.excludedFolders, c.respectIgnoreRules, c.skipHidden⟩

def extractOptions (c : Config) : Extract.Options :=
  ⟨c.language, c.openDocuments⟩

/-! ## Reading a configuration -/

def readProject? (c : Config) (v : Toml.Value) : Option Config :=
  match v.record? ["root", "extensions", "excluded_folders", "respect_gitignore",
    "skip_hidden"] with
  | some [root, extensions, excluded, respect, skip] => do
      let root ← Toml.Value.orElse? Toml.Value.text? c.root.text root
      let extensions ← Toml.Value.orElse? Toml.Value.texts? c.extensions extensions
      let excluded ← Toml.Value.orElse? Toml.Value.texts? c.excludedFolders excluded
      let respect ← Toml.Value.orElse? Toml.Value.boolean? c.respectIgnoreRules respect
      let skip ← Toml.Value.orElse? Toml.Value.boolean? c.skipHidden skip
      return { c with
        root := ⟨root⟩, extensions := extensions, excludedFolders := excluded,
        respectIgnoreRules := respect, skipHidden := skip }
  | _ => none

def readServer? (c : Config) (v : Toml.Value) : Option Config :=
  match v.record? ["command", "args", "language_id", "max_concurrent_requests",
    "open_documents"] with
  | some [command, arguments, language, maxRequests, openDocuments] => do
      let command ← Toml.Value.orElse? Toml.Value.text? c.command command
      let arguments ← Toml.Value.orElse? Toml.Value.texts? c.arguments arguments
      let language ← Toml.Value.orElse? Toml.Value.text? c.language language
      let maxRequests ← Toml.Value.orElse? Toml.Value.nat? c.maxRequests maxRequests
      let openDocuments ← Toml.Value.orElse? Toml.Value.boolean? c.openDocuments openDocuments
      return { c with
        command := command, arguments := arguments, language := language,
        maxRequests := maxRequests, openDocuments := openDocuments }
  | _ => none

def ofToml? (v : Toml.Value) : Option Config :=
  match v.record? ["project", "lsp"] with
  | some [project, server] => do
      let c ← match project with
        | none => some standard
        | some v => readProject? standard v
      match server with
      | none => some c
      | some v => readServer? c v
  | _ => none

def ofText? (text : String) : Option Config :=
  (Toml.Document.read? text).bind ofToml?

def unreadable : String := "unexpected content"

def load (d : Disk) (p : Path) : Except Failure Config :=
  match d.readText p with
  | .error e => .error (.disk e)
  | .ok text =>
      match ofText? text with
      | none => .error (.toml unreadable)
      | some c =>
          let c := { c with root := (p.parent?.getD ⟨"."⟩).join c.root }
          match c.validate with
          | .ok () => .ok c
          | .error fault => .error (.config fault)

/-- The configuration in the file at a path, if there is something there, and the
standard one otherwise. -/
def loadOrStandard (d : Disk) (p : Path) : Except Failure Config :=
  if d.has p then load d p else .ok standard

def fileName : String := "archlens.toml"

/-- The configuration for a project folder and a file, either of which may be left
open. A file that is named has to be there. Otherwise the file in the project folder
counts, or the one in the current folder, if there is one. The project folder that
is named counts for more than the one in a file. -/
def find (d : Disk) (root file : Option Path) : Except Failure Config :=
  let found := match file, root with
    | some file, _ => load d file
    | none, some root => loadOrStandard d (root.join ⟨fileName⟩)
    | none, none => loadOrStandard d ⟨fileName⟩
  match root with
  | some root => found.map fun c => { c with root := root }
  | none => found

end Config

end SourceAtlas
