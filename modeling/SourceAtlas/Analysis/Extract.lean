import SourceAtlas.Failure
import SourceAtlas.Server.Basic
import SourceAtlas.Tree.Walk
/-!
# Extracting symbols

Every file of a tree is announced with its text, where that is wanted, and then
asked for its outline. The entries of an outline become symbols below the file,
in the order the server gave them.

Files are taken in tree order. A file the server refuses is counted and stays
without symbols. A broken connection or a cancelled run ends the extraction, and
the symbols of the files before stay where they are.
-/

namespace SourceAtlas

namespace Extract

structure Options where
  language : String
  /-- Whether a file is announced with its text before it is outlined. -/
  openDocuments : Bool
  deriving DecidableEq, Inhabited, Repr

structure Report where
  files : Nat
  symbols : Nat
  failedFiles : Nat
  deriving DecidableEq, Inhabited, Repr

structure Job where
  file : Nat
  uri : String
  text : String
  deriving DecidableEq, Inhabited, Repr

def jobs (t : Tree) : List Job :=
  t.fileIds.filterMap fun id =>
    (t.get? id).bind fun a =>
      match a.content with
      | .file _ uri => some ⟨id, uri, a.code.getD ""⟩
      | _ => none

/-- Announces a file, where that is wanted, and asks for its outline. -/
def outline (server : Server) (options : Options) (s : Session) (job : Job) :
    Session × Except CallError (List Outline.Entry) :=
  if s.cancelled then (s, .error .cancelled)
  else if options.openDocuments then
    match s.openDocument server job.uri options.language job.text with
    | (s, .ok ()) => s.outline server job.uri
    | (s, .error e) => (s, .error e)
  else s.outline server job.uri

/-- Takes in what came of a file: its symbols, or that the server refused it. -/
def absorb (t : Tree) (report : Report) (job : Job) :
    Except CallError (List Outline.Entry) → Except Failure (Tree × Report)
  | .ok entries =>
      .ok (t.addSymbols job.file job.file entries,
        { report with symbols := report.symbols + Outline.Entry.countAll entries })
  | .error e =>
      if e.isFatal then .error (.ofCall e)
      else .ok (t, { report with failedFiles := report.failedFiles + 1 })

def run (server : Server) (options : Options) :
    List Job → Report → Session → Tree → Session × Tree × Except Failure Report
  | [], report, s, t => (s, t, .ok report)
  | job :: jobs, report, s, t =>
      match outline server options s job with
      | (s, outcome) =>
          if s.cancelled then (s, t, .error .cancelled)
          else
            match absorb t report job outcome with
            | .ok (t, report) => run server options jobs report s t
            | .error e => (s, t, .error e)

end Extract

def Tree.extractSymbols (t : Tree) (server : Server) (options : Extract.Options) (s : Session) :
    Session × Tree × Except Failure Extract.Report :=
  let jobs := Extract.jobs t
  Extract.run server options jobs ⟨jobs.length, 0, 0⟩ s t

end SourceAtlas
