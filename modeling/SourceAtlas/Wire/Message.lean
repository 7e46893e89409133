import SourceAtlas.Json.Draft
/-!
# Messages

A message from the server is a record of five fields that may all be missing.
What it is follows from the two fields that say whom it concerns: an answer has
an id and no method, a request has both, a notification has a method only. An
answer whose id is not one of ours, and a message with neither field, fit none of
these and are ignored.

Fields that are not among the five are ignored, whatever they hold. A field that
occurs twice makes the message unreadable.
-/

namespace SourceAtlas

structure ServerError where
  code : Int
  message : String
  data : Option Json
  deriving Inhabited

structure Incoming where
  id : Option Json
  method : Option String
  params : Json
  result : Option Json
  error : Option ServerError
  deriving Inhabited

inductive Message where
  | response (id : Nat) (outcome : Except ServerError Json)
  | request (id : Json) (method : String)
  | notification (method : String) (params : Json)

namespace Json

/-- The value of the only field with the given name: `none` when it occurs twice,
and nothing inside when it is missing. -/
def uniqueField? (name : String) (fields : List (Option String × Draft)) : Option (Option Draft) :=
  match fields.filter fun f => f.1 == some name with
  | [] => some none
  | [f] => some (some f.2)
  | _ => none

/-- The fields of a record in a draft, each one absent where it is missing. Every
key has to be a text. -/
def Draft.record? (names : List String) : Draft → Option (List (Option Draft))
  | .object fields =>
      if fields.all fun f => f.1.isSome then names.mapM fun name => uniqueField? name fields
      else none
  | .array items =>
      if items.length ≤ names.length then
        some (items.map some ++ List.replicate (names.length - items.length) none)
      else none
  | _ => none

/-- Reads an optional part of a draft: null and a missing one are nothing. -/
def Draft.optional? {α : Type} (read : Draft → Option α) : Option Draft → Option (Option α)
  | none => some none
  | some .null => some none
  | some d => (read d).map some

def Draft.string? : Draft → Option String
  | .string s => s
  | _ => none

/-- A whole number in a draft that fits into a signed 64-bit word. -/
def Draft.int64? : Draft → Option Int
  | .number (some (.int n)) => if -(UInt64.size / 2 : Int) ≤ n ∧ n < UInt64.size / 2 then some n else none
  | _ => none

end Json

def Incoming.maxDepth : Nat := 127

/-- The error of an answer, nested at most `room` deep, from its draft. -/
def ServerError.ofDraft? (room : Nat) (d : Json.Draft) : Option ServerError :=
  match d.record? ["code", "message", "data"] with
  | some [some code, some message, data] => do
      let c ← code.int64?
      let m ← message.string?
      let value ← Json.Draft.optional? (Json.Draft.value? (room - 1)) data
      return ⟨c, m, value⟩
  | _ => none

/-- A message nested at most `room` deep from its draft. -/
def Incoming.ofDraft? (room : Nat) (d : Json.Draft) : Option Incoming :=
  match d.record? ["id", "method", "params", "result", "error"] with
  | some [id, method, params, result, error] => do
      let i ← Json.Draft.optional? (Json.Draft.value? (room - 1)) id
      let m ← Json.Draft.optional? Json.Draft.string? method
      let p ← match params with
        | some d => Json.Draft.value? (room - 1) d
        | none => some .null
      let r ← Json.Draft.optional? (Json.Draft.value? (room - 1)) result
      let e ← Json.Draft.optional? (ServerError.ofDraft? (room - 1)) error
      return ⟨i, m, p, r, e⟩
  | _ => none

def Incoming.read? (body : List UInt8) : Option Incoming :=
  (Json.Draft.read? body).bind (Incoming.ofDraft? Incoming.maxDepth)

def Incoming.classify? (m : Incoming) : Option Message :=
  match m.id, m.method with
  | some id, none =>
      id.word64?.map fun n =>
        .response n <|
          match m.error with
          | some e => .error e
          | none => .ok (m.result.getD .null)
  | some id, some method => some (.request id method)
  | none, some method => some (.notification method m.params)
  | none, none => none

end SourceAtlas
