import SourceAtlas.Json.Writer
import SourceAtlas.Server.CallError
import SourceAtlas.Wire.Message
import SourceAtlas.Wire.Outline
import SourceAtlas.Wire.Request
/-!
# The course of a call

A call is one request, one notification, or a request and the notification that
follows it. It takes its course in small stages: between any two of them the reader,
the server and every other call may act on the connection. A request is entered on
the table before it is written, so it can be told its answer before it is on its
way, and it goes on only when it comes to look.
-/

namespace SourceAtlas

inductive Purpose where
  | handshake | outline | references | raw | shutdown
  deriving DecidableEq, Inhabited, Repr

inductive Reply where
  | nothing
  | outline (entries : List Outline.Entry)
  | locations (locations : List Location)
  | value (v : Json)
  deriving Inhabited

/-- What a call sends first. -/
inductive Errand where
  | ask (purpose : Purpose) (method : String) (params : Json)
  | tell (method : String) (params : Json)

def Call.errand : Call → Errand
  | .handshake root processId => .ask .handshake "initialize" (Wire.handshakeParams root processId)
  | .openDocument uri language text =>
      .tell "textDocument/didOpen" (Wire.openParams uri language text)
  | .outline uri => .ask .outline "textDocument/documentSymbol" (Wire.outlineParams uri)
  | .references uri position =>
      .ask .references "textDocument/references" (Wire.referencesParams uri position)
  | .shutdown => .ask .shutdown "shutdown" .null
  | .notify method params => .tell method params
  | .request method params => .ask .raw method params

structure Request where
  id : Nat
  call : Nat
  purpose : Purpose
  method : String
  /-- When it was started, in seconds. -/
  since : Nat
  deriving DecidableEq, Inhabited, Repr

/-- What a request is told: what the server answered, or why there is no answer. -/
abbrev Verdict := Except CallError Json

def Verdict.ofAnswer : Except ServerError Json → Verdict
  | .ok result => .ok result
  | .error e => .error (.response e.code e.message)

namespace Request

def decode (r : Request) (result : Json) : Except CallError Reply :=
  let wrong : Except CallError Reply := .error (.decode r.method "unexpected shape")
  match r.purpose with
  | .handshake | .shutdown => .ok .nothing
  | .raw => .ok (.value result)
  | .outline => match Outline.ofJson? result with
      | some entries => .ok (.outline entries)
      | none => wrong
  | .references => match Location.listOfJson? result with
      | some locations => .ok (.locations locations)
      | none => wrong

/-- How long a shutdown waits for its answer, in seconds. -/
def shutdownLimit : Nat := 5

def isLate (r : Request) (clock : Nat) : Bool :=
  r.purpose == .shutdown && r.since + shutdownLimit ≤ clock

end Request

/-- What becomes of a call once its notification is out, or could not be sent. -/
inductive Aftermath where
  /-- The call tells how that went. -/
  | report
  /-- The call was cancelled, however that went. -/
  | cancelled
  /-- The connection is closed, and then the call tells how that went. -/
  | close
  deriving DecidableEq, Inhabited, Repr

inductive Stage where
  /-- The request has its id and is not on the table yet. -/
  | enrolling (r : Request) (params : Json)
  /-- The request is not written yet, and may be told something already. -/
  | posting (r : Request) (params : Json) (told : Option Verdict)
  | waiting (r : Request) (told : Option Verdict)
  /-- The call is about to look whether the connection is closed. -/
  | notifying (method : String) (params : Json) (after : Aftermath)
  | sending (method : String) (params : Json) (after : Aftermath)
  /-- The connection is about to be closed. -/
  | leaving (result : Except CallError Reply)
  deriving Inhabited

namespace Stage

/-- The request that is told what comes in for it. -/
def request? : Stage → Option Request
  | .posting r _ _ | .waiting r _ => some r
  | _ => none

/-- Tells a call what became of its request. Only the first word counts, and a call
that has given its request up hears nothing. -/
def tell (verdict : Verdict) : Stage → Stage
  | .posting r params none => .posting r params (some verdict)
  | .waiting r none => .waiting r (some verdict)
  | s => s

/-- Nothing a call is told later takes the place of the first word. -/
@[simp] theorem tell_tell (verdict later : Verdict) (s : Stage) :
    (s.tell verdict).tell later = s.tell verdict := by
  match s with
  | .posting _ _ none | .waiting _ none => rfl
  | .posting _ _ (some _) | .waiting _ (some _) => rfl
  | .enrolling _ _ | .notifying _ _ _ | .sending _ _ _ | .leaving _ => rfl

def isLate (clock : Nat) : Stage → Bool
  | .posting r _ _ | .waiting r _ => r.isLate clock
  | _ => false

end Stage

end SourceAtlas
