import SourceAtlas.Analysis.Extract
import SourceAtlas.Analysis.Resolve
import SourceAtlas.Tree.Metrics
import SourceAtlas.Tree.Order
/-!
# Running an analysis

A run takes a loaded folder through all its steps: the handshake, the outlines of
its files, the uses of its symbols, the metrics and the order of the parts. It gives
the finished tree or nothing at all.

Between the steps a run looks at whether it was cancelled. A folder that could not
be loaded is reported before that.
-/

namespace SourceAtlas

namespace Analysis

def ensureRunning (s : Session) : Except Failure Unit :=
  if s.cancelled then .error .cancelled else .ok ()

def finish (t : Tree) : Except Failure Tree :=
  t.computeMetrics.map Tree.sort

def resolve (server : Server) (s : Session) (t : Tree) : Session × Except Failure Tree :=
  match ensureRunning s with
  | .error e => (s, .error e)
  | .ok () =>
      match t.resolveDependencies server s with
      | (s, _, .error e) => (s, .error e)
      | (s, t, .ok _) =>
          match ensureRunning s with
          | .error e => (s, .error e)
          | .ok () => (s, finish t)

def analyze (folder : Folder) (options : Extract.Options) (server : Server) (processId : Nat)
    (s : Session) : Session × Except Failure Tree :=
  match ensureRunning s with
  | .error e => (s, .error e)
  | .ok () =>
      match s.handshake server folder.path processId with
      | (s, .error e) => (s, .error (.ofCall e))
      | (s, .ok ()) =>
          match (Tree.ofFolder folder).extractSymbols server options s with
          | (s, _, .error e) => (s, .error e)
          | (s, t, .ok _) => resolve server s t

def run (loaded : Except Failure Folder) (options : Extract.Options) (server : Server)
    (processId : Nat) (s : Session) : Session × Except Failure Tree :=
  match loaded with
  | .error e => (s, .error e)
  | .ok folder => analyze folder options server processId s

end Analysis

end SourceAtlas
