/-!
# How a call to a language server fails

A call fails in one of four ways. A broken connection and a cancelled call end
the whole run they belong to; a call the server answered with an error, and one
it answered with a result of the wrong shape, cost only what was asked for.
-/

namespace SourceAtlas

inductive CallError where
  /-- The connection is broken; every later call fails as well. -/
  | transport (reason : String)
  | response (code : Int) (message : String)
  /-- The server answered, but the result of `method` has the wrong shape. -/
  | decode (method : String) (reason : String)
  | cancelled
  deriving DecidableEq, Inhabited, Repr

namespace CallError

def message : CallError → String
  | .transport reason => "transport failure: " ++ reason
  | .response code message => s!"server error {code}: {message}"
  | .decode method reason => s!"unexpected result for {method}: {reason}"
  | .cancelled => "request cancelled"

def isFatal : CallError → Bool
  | .transport _ | .cancelled => true
  | .response _ _ | .decode _ _ => false

end CallError

end SourceAtlas
