import SourceAtlas.Disk.Error
import SourceAtlas.Path
import SourceAtlas.Server.CallError
import SourceAtlas.Text.Quoted
/-!
# How an analysis fails

Every failure is kept as its cause, and `Failure.message` is the one place where
the causes are put into words.
-/

namespace SourceAtlas

/-- What is wrong with the folder an analysis is asked to look at. -/
inductive InputFault where
  | inaccessible (root : Path) (reason : Disk.Error)
  | notAFolder (root : Path)
  | noMatchingFiles (root : Path) (extensions : List String)
  | missingProjectFolder (root : Path)
  deriving DecidableEq, Inhabited, Repr

def InputFault.message : InputFault → String
  | .inaccessible root reason =>
      s!"project folder {root.text} is not accessible: {reason.message}"
  | .notAFolder root => s!"project path {root.text} is not a folder"
  | .noMatchingFiles root extensions =>
      s!"project folder {root.text} contains no files with extensions {Text.quoteList extensions}"
  | .missingProjectFolder root => s!"project folder does not exist: {root.text}"

inductive ConfigFault where
  | noExtensions
  | emptyCommand
  | noConcurrency
  deriving DecidableEq, Inhabited, Repr

def ConfigFault.message : ConfigFault → String
  | .noExtensions => "no file extensions configured"
  | .emptyCommand => "language server command is empty"
  | .noConcurrency => "max_concurrent_requests must be at least 1"

/-- Why an analysis, or one of its steps, failed. -/
inductive Failure where
  | input (fault : InputFault)
  | transport (reason : String)
  | cancelled
  | alreadyMeasured
  | config (fault : ConfigFault)
  | disk (reason : Disk.Error)
  | toml (reason : String)
  deriving DecidableEq, Inhabited, Repr

namespace Failure

def message : Failure → String
  | .input fault => "Input error: " ++ fault.message
  | .transport reason => "Language server transport error: " ++ reason
  | .cancelled => "Analysis cancelled"
  | .alreadyMeasured => "Metrics have already been computed for this tree"
  | .config fault => "Configuration error: " ++ fault.message
  | .disk reason => "IO error: " ++ reason.message
  | .toml reason => "TOML error: " ++ reason

/-- The text of a failure with its cause after it, where the cause has a text of its
own. -/
def chain (f : Failure) : String :=
  match f with
  | .disk reason => f.message ++ ": " ++ reason.message
  | .toml reason => f.message ++ ": " ++ reason
  | _ => f.message

/-- The failure of a run that one of its calls ends: a cancelled call cancels
the run, and every other failure counts as a broken connection. -/
def ofCall : CallError → Failure
  | .transport reason => .transport reason
  | .cancelled => .cancelled
  | other => .transport other.message

end Failure

end SourceAtlas
