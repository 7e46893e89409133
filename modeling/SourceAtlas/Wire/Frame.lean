import SourceAtlas.Text.Blank
import SourceAtlas.Text.Number
import SourceAtlas.Text.Quoted
import SourceAtlas.Text.Utf8
/-!
# Frames

A message travels as a block of header lines, a blank line and a body. One header
counts: the length of the body in octets. Blank lines before a block are skipped,
names of headers are compared without regard to case, and where the length is
given twice the last one holds.

`read` looks at the octets that have arrived so far. It gives a body and the
octets after it, or says that the stream ended between messages, that more octets
are needed, or that the stream is broken. Once the stream has ended nothing can be
needed any more, so then it always decides.
-/

namespace SourceAtlas

namespace Frame

/-- Why a stream of frames is broken. -/
inductive Fault where
  | headerNotText
  | malformedHeader (line : String)
  | invalidLength (value : String)
  | missingLength
  /-- The body is longer than any message has to be. -/
  | tooLong (length : Nat)
  | endedInHeader
  | endedInBody
  deriving DecidableEq, Inhabited, Repr

def Fault.message : Fault → String
  | .headerNotText => "failed to read header: stream did not contain valid UTF-8"
  | .malformedHeader line => "malformed header line: " ++ Text.quote line
  | .invalidLength value => "invalid Content-Length: " ++ Text.quote value
  | .missingLength => "message without Content-Length"
  | .tooLong length => s!"message body of {length} bytes exceeds limit"
  | .endedInHeader => "stream ended inside a message header"
  | .endedInBody => "failed to read body: early eof"

/-- The greatest length of a body: 64 mebibytes. -/
def maxLength : Nat := 64 * 1024 * 1024

inductive Step where
  | body (bytes rest : List UInt8)
  | waiting
  | ended
  | broken (fault : Fault)
  deriving DecidableEq, Inhabited

/-- The first line of some octets with its line feed, and the octets after it. At
the end of a stream a line may lack its line feed. -/
def takeLine? (ended : Bool) (bs : List UInt8) : Option (List UInt8 × List UInt8) :=
  match bs.dropWhile (· ≠ 0x0A) with
  | feed :: rest => some (bs.takeWhile (· ≠ 0x0A) ++ [feed], rest)
  | [] => if ended && !bs.isEmpty then some (bs, []) else none

theorem length_of_takeLine? {ended : Bool} {bs line rest : List UInt8}
    (h : takeLine? ended bs = some (line, rest)) : rest.length < bs.length := by
  unfold takeLine? at h
  split at h
  · rename_i feed tail heq
    have hle := (List.dropWhile_sublist (l := bs) (fun b => decide (b ≠ 0x0A))).length_le
    rw [heq] at hle
    simp only [Option.some.injEq, Prod.mk.injEq] at h
    have longer : tail.length + 1 ≤ bs.length := by simpa using hle
    rw [← h.2]
    exact longer
  · split at h
    · rename_i hne
      simp only [Option.some.injEq, Prod.mk.injEq] at h
      rw [← h.2]
      cases bs with
      | nil => simp at hne
      | cons b bs => simp
    · simp at h

def dropLineEnd (line : List Char) : List Char :=
  (line.reverse.dropWhile fun c => c == '\r' || c == '\n').reverse

/-- The name and the value of a header: what stands before and after the first
colon. -/
def splitHeader? (line : List Char) : Option (List Char × List Char) :=
  match line.dropWhile (· ≠ ':') with
  | _ :: value => some (line.takeWhile (· ≠ ':'), value)
  | [] => none

def isLengthHeader (name : List Char) : Bool :=
  Text.asciiLower (Text.trimChars name) == "content-length".toList

/-- What a line of a header block says. -/
inductive Line where
  | blank
  | length (n : Nat)
  /-- A header that makes no difference. -/
  | other
  deriving DecidableEq, Inhabited, Repr

def readLine (line : List UInt8) : Except Fault Line :=
  match Utf8.decode? line with
  | none => .error .headerNotText
  | some text =>
      let header := dropLineEnd text.toList
      if header.isEmpty then .ok .blank
      else
        match splitHeader? header with
        | none => .error (.malformedHeader (String.ofList header))
        | some (name, value) =>
            if isLengthHeader name then
              let given := Text.trimChars value
              match Text.number? given with
              | none => .error (.invalidLength (String.ofList given))
              | some n => .ok (.length n)
            else .ok .other

def readBody (ended : Bool) (length : Option Nat) (bs : List UInt8) : Step :=
  match length with
  | none => .broken .missingLength
  | some n =>
      if maxLength < n then .broken (.tooLong n)
      else if n ≤ bs.length then .body (bs.take n) (bs.drop n)
      else if ended then .broken .endedInBody
      else .waiting

/-- Reads header lines and the body after them. `seen` tells whether the block has
a header already, and `length` is the length it gave last. -/
def readHeaders (ended : Bool) (seen : Bool) (length : Option Nat) (bs : List UInt8) : Step :=
  match _taken : takeLine? ended bs with
  | none =>
      if !ended then .waiting
      else if seen then .broken .endedInHeader
      else .ended
  | some (line, rest) =>
      match readLine line with
      | .error fault => .broken fault
      | .ok .blank =>
          if seen then readBody ended length rest
          else readHeaders ended false length rest
      | .ok (.length n) => readHeaders ended true (some n) rest
      | .ok .other => readHeaders ended true length rest
termination_by bs.length
decreasing_by all_goals exact length_of_takeLine? _taken

/-- Reads the frame at the start of the octets at hand; `ended` tells whether the
stream has no more of them. -/
def read (ended : Bool) (bs : List UInt8) : Step :=
  readHeaders ended false none bs

theorem length_of_readBody {ended : Bool} {length : Option Nat} {bs body rest : List UInt8}
    (h : readBody ended length bs = .body body rest) : rest.length ≤ bs.length := by
  unfold readBody at h
  split at h
  · simp at h
  · split at h
    · simp at h
    · split at h
      · simp only [Step.body.injEq] at h
        rw [← h.2]
        simp
      · split at h <;> simp at h

theorem length_of_readHeaders {ended seen : Bool} {length : Option Nat}
    {bs body rest : List UInt8} (h : readHeaders ended seen length bs = .body body rest) :
    rest.length < bs.length := by
  fun_induction readHeaders ended seen length bs with
  | case1 | case2 | case3 | case4 => simp at h
  | case5 _ _ _ _ taken =>
      exact Nat.lt_of_le_of_lt (length_of_readBody h) (length_of_takeLine? taken)
  | case6 _ _ _ _ _ taken _ _ ih => exact Nat.lt_trans (ih h) (length_of_takeLine? taken)
  | case7 _ _ _ _ _ taken _ _ ih => exact Nat.lt_trans (ih h) (length_of_takeLine? taken)
  | case8 _ _ _ _ _ taken _ ih => exact Nat.lt_trans (ih h) (length_of_takeLine? taken)

/-- A body that is read takes at least one octet from the stream. -/
theorem length_of_read {ended : Bool} {bs body rest : List UInt8}
    (h : read ended bs = .body body rest) : rest.length < bs.length :=
  length_of_readHeaders h

/-- The bodies of all frames up to the end of a stream, and why the stream is broken if it
is. -/
def readAll (bs : List UInt8) : List (List UInt8) × Option Fault :=
  match _read : read true bs with
  | .body body rest =>
      let (bodies, fault) := readAll rest
      (body :: bodies, fault)
  | .broken fault => ([], some fault)
  | .waiting | .ended => ([], none)
termination_by bs.length
decreasing_by exact length_of_read _read

def write (body : List UInt8) : List UInt8 :=
  Utf8.encode s!"Content-Length: {body.length}\r\n\r\n" ++ body

end Frame

end SourceAtlas
