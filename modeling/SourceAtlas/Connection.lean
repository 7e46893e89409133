import SourceAtlas.Connection.Move
import SourceAtlas.Wire.Frame
/-!
# The client side of a connection

A connection as it runs on its own: `step` takes one event from outside, and then
every call goes on as far as it can. The octets that have arrived are read as far as
they make frames before any of the calls they answer goes on, so a call that has more
to send sends it after everything that was read. What was sent and which calls have
finished is kept in the order it happened.
-/

namespace SourceAtlas

namespace Connection

def endOfStream : String := "language server closed the connection"

def malformed : String := "malformed message from language server: unexpected content"

/-- The call that a message answers. -/
def answered? (c : Connection) : Option Message → Option Nat
  | some (.response id _) => c.waiting[id]?
  | _ => none

/-- Reads the frames that have arrived, and gives the calls they answer in the order
they were read. `ended` tells whether the stream has ended. -/
def readFrames (ended : Bool) (c : Connection) (bs : List UInt8) : Connection × List Nat :=
  match _read : Frame.read ended bs with
  | .waiting => ({ c with unread := bs }, [])
  | .ended => (c.stop endOfStream, [])
  | .broken fault => (c.stop (CallError.message (.transport fault.message)), [])
  | .body body rest =>
      match Incoming.read? body with
      | none => (c.stop malformed, [])
      | some incoming =>
          let heard := c.hear incoming.classify?
          if heard.reading then
            let (last, calls) := readFrames ended heard rest
            (last, (c.answered? incoming.classify?).toList ++ calls)
          else (heard, [])
termination_by bs.length
decreasing_by exact Frame.length_of_read _read

/-- Lets a call go on as far as it can: no call has more than six steps. -/
def drive (c : Connection) (n : Nat) : Connection :=
  Nat.repeat (proceed · n) 6 c

/-- Lets all calls go on as far as they can, some of them first. -/
def settle (c : Connection) (first : List Nat) : Connection :=
  (first ++ c.stages.keys).foldl drive c

/-- Reads what there is to read, then goes on with the calls that were answered. -/
def advance (c : Connection) (ended : Bool) (octets : List UInt8) : Connection :=
  if c.reading then
    let (c, calls) := c.readFrames ended (c.unread ++ octets)
    c.settle calls
  else c

/-- The shutdowns that have waited long enough. -/
def late (c : Connection) : List Nat :=
  c.stages.keys.filter fun n => c.stages[n]?.any (Stage.isLate c.clock)

inductive Event where
  | start (call : Call) (cancelled : Bool)
  | cancel (call : Nat)
  | arrive (octets : List UInt8)
  | endStream
  | breakWriter
  | elapse (seconds : Nat)

def step (c : Connection) : Event → Connection
  | .start call cancelled =>
      let n := c.nextCall
      let c := if cancelled then { c with revoked := n :: c.revoked } else c
      (c.start call).settle [n]
  | .cancel n =>
      if n < c.nextCall then ({ c with revoked := n :: c.revoked }.withdraw n).settle [n] else c
  | .arrive octets => c.advance false octets
  | .endStream => c.advance true []
  | .breakWriter => { c with fault := some "broken pipe" }
  | .elapse seconds =>
      let c := { c with clock := c.clock + seconds }
      (c.late.foldl expire c).settle c.late

def run (c : Connection) (events : List Event) : Connection :=
  events.foldl step c

end Connection

end SourceAtlas
