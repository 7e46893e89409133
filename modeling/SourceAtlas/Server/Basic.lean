import SourceAtlas.Outline
import SourceAtlas.Server.CallError
import SourceAtlas.Wire.Request
/-!
# Language servers as an analysis sees them

An analysis makes four kinds of calls: one handshake, the announcement of a
document, the request for an outline and the request for the uses of a symbol. A
server is what it answers to them, given all calls it was sent before, so it may
change its answers in the course of a run as any server may.

While a call is answered the run may be cancelled from outside. An answer tells
whether that happened, and the session of a run remembers it together with the
calls that were made.
-/

namespace SourceAtlas

structure Served (α : Type) where
  result : Except CallError α
  cancels : Bool
  deriving Inhabited

/-- A language server: its answer to every call, given the calls before it. -/
structure Server where
  handshake : List Call → Path → Nat → Served Unit
  openDocument : List Call → String → String → String → Served Unit
  outline : List Call → String → Served (List Outline.Entry)
  references : List Call → String → Position → Served (List Location)

/-- What a run has done so far: the calls it made, in their order, and whether it
was cancelled. -/
structure Session where
  calls : List Call
  cancelled : Bool

namespace Session

/-- The start of a run, which may be cancelled already. -/
def start (cancelled : Bool) : Session := ⟨[], cancelled⟩

def record {α : Type} (s : Session) (call : Call) (answer : Served α) : Session :=
  ⟨s.calls ++ [call], s.cancelled || answer.cancels⟩

def handshake (s : Session) (server : Server) (root : Path) (processId : Nat) :
    Session × Except CallError Unit :=
  let answer := server.handshake s.calls root processId
  (s.record (.handshake root processId) answer, answer.result)

def openDocument (s : Session) (server : Server) (uri language text : String) :
    Session × Except CallError Unit :=
  let answer := server.openDocument s.calls uri language text
  (s.record (.openDocument uri language text) answer, answer.result)

def outline (s : Session) (server : Server) (uri : String) :
    Session × Except CallError (List Outline.Entry) :=
  let answer := server.outline s.calls uri
  (s.record (.outline uri) answer, answer.result)

def references (s : Session) (server : Server) (uri : String) (position : Position) :
    Session × Except CallError (List Location) :=
  let answer := server.references s.calls uri position
  (s.record (.references uri position) answer, answer.result)

end Session

end SourceAtlas
