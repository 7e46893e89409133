import SourceAtlas.Connection.Stage
import Std.Data.ExtTreeMap
/-!
# The moves on a connection

A connection keeps a table of the requests that wait for an answer, each under an
id of its own, and hands every answer to the request it names. Requests of the
server are answered with nothing, notifications and answers nobody waits for are
passed over.

When the stream breaks or ends, every waiting request fails with the reason, and
so does everything that is started later. A connection that is closed stays
closed, under the reason it was closed for first.

`move` takes one action that nothing can interrupt: a call takes its next step, the
reader takes in a message or gives up, a token is cancelled, the writer breaks. A
move that cannot be made leaves the connection as it is, so any list of moves is an
interleaving.
-/

namespace SourceAtlas

structure Connection where
  /-- The id of the next request, a 64-bit word. -/
  nextId : Nat
  nextCall : Nat
  /-- Why the connection is closed, once it is. -/
  closed : Option String
  /-- The requests that wait for an answer: their ids, each with its call. -/
  waiting : Std.ExtTreeMap Nat Nat
  /-- How far the calls are that have not finished. -/
  stages : Std.ExtTreeMap Nat Stage
  /-- The calls whose token is cancelled. -/
  revoked : List Nat
  /-- The time, in seconds. -/
  clock : Nat
  unread : List UInt8
  reading : Bool
  /-- Why nothing can be written, while that is so. -/
  fault : Option String
  sent : List Json
  finished : List (Nat × Except CallError Reply)
  deriving Inhabited

namespace Connection

/-- A connection on which nothing has happened. -/
def fresh : Connection :=
  { nextId := 1
    nextCall := 0
    closed := none
    waiting := ∅
    stages := ∅
    revoked := []
    clock := 0
    unread := []
    reading := true
    fault := none
    sent := []
    finished := [] }

def isClosed (c : Connection) : Bool :=
  c.closed.isSome

/-! ## What happens to the calls -/

def assign (c : Connection) (n : Nat) (s : Stage) : Connection :=
  { c with stages := c.stages.insert n s }

def finish (c : Connection) (n : Nat) (result : Except CallError Reply) : Connection :=
  { c with stages := c.stages.erase n, finished := c.finished ++ [(n, result)] }

@[simp] theorem stages_assign (c : Connection) (n k : Nat) (s : Stage) :
    (c.assign n s).stages[k]? = if n = k then some s else c.stages[k]? := by
  simp [assign, Std.ExtTreeMap.getElem?_insert]

@[simp] theorem stages_finish (c : Connection) (n k : Nat) (result : Except CallError Reply) :
    (c.finish n result).stages[k]? = if n = k then none else c.stages[k]? := by
  simp [finish, Std.ExtTreeMap.getElem?_erase]

/-- Takes a request off the table and tells its call why. -/
def release (c : Connection) (id : Nat) (verdict : Verdict) : Connection :=
  match c.waiting[id]? with
  | none => c
  | some n =>
      { c with waiting := c.waiting.erase id, stages := c.stages.modify n (Stage.tell verdict) }

theorem release_of_none {c : Connection} {id : Nat} (h : c.waiting[id]? = none)
    (verdict : Verdict) : c.release id verdict = c := by
  simp [release, h]

theorem waiting_release {c : Connection} {id n : Nat} (h : c.waiting[id]? = some n)
    (verdict : Verdict) (other : Nat) :
    (c.release id verdict).waiting[other]? = if id = other then none else c.waiting[other]? := by
  simp [release, h, Std.ExtTreeMap.getElem?_erase]

theorem stages_release {c : Connection} {id n : Nat} (h : c.waiting[id]? = some n)
    (verdict : Verdict) (k : Nat) :
    (c.release id verdict).stages[k]? =
      if n = k then (c.stages[n]?).map (Stage.tell verdict) else c.stages[k]? := by
  simp [release, h, Std.ExtTreeMap.getElem?_modify]

/-- Whether a call at this stage is on the table. -/
def awaits (c : Connection) (n : Nat) (s : Stage) : Bool :=
  s.request?.any fun r => c.waiting[r.id]? == some n

/-- Closes a connection: everything that waits fails with the reason. The first
reason is kept for what is started later. -/
def close (c : Connection) (reason : String) : Connection :=
  { c with
    closed := c.closed.or (some reason)
    waiting := ∅
    stages := c.stages.map fun n s =>
      if c.awaits n s then s.tell (.error (.transport reason)) else s }

@[simp] theorem isClosed_close (c : Connection) (reason : String) :
    (c.close reason).isClosed = true := by
  cases h : c.closed <;> simp [close, isClosed, h]

@[simp] theorem stages_close (c : Connection) (reason : String) (n : Nat) :
    (c.close reason).stages[n]? =
      (c.stages[n]?).map fun s =>
        if c.awaits n s then s.tell (.error (.transport reason)) else s := by
  simp [close, Std.ExtTreeMap.getElem?_map]

/-! ## Writing -/

def write (c : Connection) (message : Json) : Connection × Except CallError Unit :=
  match c.fault with
  | none => ({ c with sent := c.sent ++ [message] }, .ok ())
  | some fault => (c, .error (.transport ("failed to write message: " ++ fault)))

/-- Writes a message of our own; when that fails, the connection is closed. -/
def writeOrClose (c : Connection) (message : Json) : Connection × Except CallError Unit :=
  match c.write message with
  | (c, .ok ()) => (c, .ok ())
  | (c, .error e) => (c.close e.message, .error e)

theorem writeOrClose_cases (c : Connection) (message : Json) :
    c.writeOrClose message = ({ c with sent := c.sent ++ [message] }, .ok ()) ∨
      ∃ reason fault,
        c.writeOrClose message = (c.close reason, .error (.transport fault)) := by
  cases h : c.fault with
  | none => exact .inl (by simp [writeOrClose, write, h])
  | some fault => exact .inr ⟨_, _, by rw [writeOrClose, write, h]⟩

/-! ## The steps of a call -/

/-- What a call gets instead of a request: nothing is left to shut down on a closed
connection, and a call that was cancelled before does not even use up an id. -/
def refusal? (c : Connection) (n : Nat) (purpose : Purpose) : Option (Except CallError Reply) :=
  if purpose = .shutdown then
    if c.isClosed then some (.ok .nothing) else none
  else
    if n ∈ c.revoked then some (.error .cancelled) else none

def nextRequest (c : Connection) (purpose : Purpose) (method : String) : Request :=
  ⟨c.nextId, c.nextCall, purpose, method, c.clock⟩

/-- Starts a call. Only requests look at whether the caller cancelled it. -/
def start (c : Connection) (call : Call) : Connection :=
  let n := c.nextCall
  let begun := { c with nextCall := n + 1 }
  match call.errand with
  | .tell method params => begun.assign n (.notifying method params .report)
  | .ask purpose method params =>
      match c.refusal? n purpose with
      | some result => begun.finish n result
      | none =>
          { begun with nextId := (c.nextId + 1) % UInt64.size }.assign n
            (.enrolling (c.nextRequest purpose method) params)

def dropped : CallError :=
  .transport "response channel dropped"

/-- Enters the request of a call on the table. It takes the place of a request of the
same id. -/
def enrol (c : Connection) (n : Nat) (r : Request) (params : Json) : Connection :=
  let c := c.release r.id (.error dropped)
  { c with waiting := c.waiting.insert r.id n }.assign n (.posting r params none)

/-- Goes on with a call whose request has its result. -/
def resume (c : Connection) (r : Request) (n : Nat) (result : Json) : Connection :=
  match r.purpose with
  | .handshake => c.assign n (.notifying "initialized" (.ofFields []) .report)
  | .shutdown => c.assign n (.notifying "exit" .null .close)
  | .outline | .references | .raw => c.finish n (r.decode result)

def conclude (c : Connection) (n : Nat) (after : Aftermath) (outcome : Except CallError Unit) :
    Connection :=
  let result := outcome.map fun _ => Reply.nothing
  match after with
  | .report => c.finish n result
  | .cancelled => c.finish n (.error .cancelled)
  | .close => c.assign n (.leaving result)

def shutDown : String := "client shut down"

/-- The next step of a call at a stage. A call that waits for an answer stays where
it is. -/
def perform (c : Connection) (n : Nat) : Stage → Connection
  | .enrolling r params =>
      match c.closed with
      | some reason => c.finish n (.error (.transport reason))
      | none => c.enrol n r params
  | .posting r params told =>
      match c.writeOrClose (Wire.request r.id r.method params) with
      | (c, .error e) => c.finish n (.error e)
      | (c, .ok ()) => c.assign n (.waiting r told)
  | .waiting _ none => c
  | .waiting _ (some (.error e)) => c.finish n (.error e)
  | .waiting r (some (.ok result)) => c.resume r n result
  | .notifying method params after =>
      match c.closed with
      | some reason => c.conclude n after (.error (.transport reason))
      | none => c.assign n (.sending method params after)
  | .sending method params after =>
      match c.writeOrClose (Wire.notification method params) with
      | (c, outcome) => c.conclude n after outcome
  | .leaving result => (c.close shutDown).finish n result

def proceed (c : Connection) (n : Nat) : Connection :=
  match c.stages[n]? with
  | none => c
  | some s => c.perform n s

/-- A call that waits looks at its token and gives its request up. The server is told,
and whether that works makes no difference. A shutdown cannot be cancelled. -/
def withdraw (c : Connection) (n : Nat) : Connection :=
  match c.stages[n]? with
  | some (.waiting r _) =>
      if n ∈ c.revoked ∧ r.purpose ≠ .shutdown then
        { c with waiting := c.waiting.erase r.id }.assign n
          (.notifying "$/cancelRequest" (.ofFields [("id", .nat r.id)]) .cancelled)
      else c
  | _ => c

/-- A shutdown that has waited long enough goes on without its answer. -/
def expire (c : Connection) (n : Nat) : Connection :=
  match c.stages[n]? with
  | some s => if s.isLate c.clock then c.assign n (.notifying "exit" .null .close) else c
  | none => c

/-! ## The reader -/

/-- The reader gives up, and the connection is closed. -/
def stop (c : Connection) (reason : String) : Connection :=
  if c.reading then { c with reading := false, unread := [] }.close reason else c

/-- Takes in a message of the server: an answer leaves the table, and a request of the
server is answered. When that answer cannot be written, the stream is given up. -/
def hear (c : Connection) (message : Option Message) : Connection :=
  if c.reading then
    match message with
    | some (.response id outcome) => c.release id (Verdict.ofAnswer outcome)
    | some (.request id _) =>
        match c.write (Wire.emptyAnswer id) with
        | (c, .ok ()) => c
        | (c, .error e) => c.stop e.message
    | some (.notification _ _) | none => c
  else c

/-! ## Moves -/

inductive Move where
  | start (call : Call)
  /-- The token of a call is cancelled. -/
  | revoke (n : Nat)
  | proceed (n : Nat)
  | withdraw (n : Nat)
  | expire (n : Nat)
  /-- The caller drops a call and never hears of it again. -/
  | abandon (n : Nat)
  | hear (message : Option Message)
  | stop (reason : String)
  /-- Octets arrive that make no message yet. -/
  | keep (octets : List UInt8)
  /-- From now on writing fails for a reason, or works. -/
  | turn (fault : Option String)
  | elapse (seconds : Nat)

def move (c : Connection) : Move → Connection
  | .start call => c.start call
  | .revoke n => { c with revoked := n :: c.revoked }
  | .proceed n => c.proceed n
  | .withdraw n => c.withdraw n
  | .expire n => c.expire n
  | .abandon n => { c with stages := c.stages.erase n }
  | .hear message => c.hear message
  | .stop reason => c.stop reason
  | .keep octets => { c with unread := octets }
  | .turn fault => { c with fault }
  | .elapse seconds => { c with clock := c.clock + seconds }

def play (c : Connection) (moves : List Move) : Connection :=
  moves.foldl move c

end Connection

end SourceAtlas
