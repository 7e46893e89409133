import SourceAtlas.Analysis.Run
import SourceAtlas.Config
/-!
# Projects

A project is a folder that is analysed again and again. It remembers where its
latest analysis stands and the tree of the latest one that succeeded, which no later
failure takes away.
-/

namespace SourceAtlas

inductive AnalysisState where
  /-- There was none yet, or it was cancelled. -/
  | stopped
  | running
  | succeeded (tree : Tree)
  | failed (message : String)
  deriving Inhabited

def AnalysisState.isRunning : AnalysisState → Bool
  | .running => true
  | _ => false

structure Project where
  config : Config
  state : AnalysisState
  lastTree : Option Tree
  deriving Inhabited

namespace Project

/-- A project that was never analysed. Its configuration has to be valid and its
folder has to exist. -/
def create (d : Disk) (c : Config) : Except Failure Project :=
  match c.validate with
  | .error fault => .error (.config fault)
  | .ok () =>
      if d.hasFolder c.root then .ok ⟨c, .stopped, none⟩
      else .error (.input (.missingProjectFolder c.root))

def begin (p : Project) : Project :=
  { p with state := .running }

def conclude (p : Project) : Except Failure Tree → Project
  | .ok tree => { p with state := .succeeded tree, lastTree := some tree }
  | .error .cancelled => { p with state := .stopped }
  | .error e => { p with state := .failed e.message }

@[simp] theorem conclude_ok (p : Project) (t : Tree) :
    p.conclude (.ok t) = { p with state := .succeeded t, lastTree := some t } := rfl

@[simp] theorem state_conclude_cancelled (p : Project) :
    (p.conclude (.error .cancelled)).state = .stopped := rfl

@[simp] theorem lastTree_conclude_error (p : Project) (e : Failure) :
    (p.conclude (.error e)).lastTree = p.lastTree := by
  cases e <;> rfl

/-- Analyses a project with a server that is running already. -/
def analyzeWith (p : Project) (d : Disk) (server : Server) (processId : Nat) (s : Session) :
    Session × Project × Except Failure Tree :=
  let p := p.begin
  let (s, result) := Analysis.run (Folder.load d p.config.loadOptions) p.config.extractOptions
    server processId s
  (s, p.conclude result, result)

def startFailure (command : String) (reason : Disk.Error) : Failure :=
  .transport s!"failed to start {command}: {reason.message}"

/-- Analyses a project with the server that its configuration names, if starting it
gave one. -/
def analyze (p : Project) (d : Disk) (started : Except Disk.Error Server) (processId : Nat)
    (s : Session) : Session × Project × Except Failure Tree :=
  match started with
  | .error reason =>
      let e := startFailure p.config.command reason
      (s, { p with state := .failed e.message }, .error e)
  | .ok server => p.analyzeWith d server processId s

end Project

end SourceAtlas
