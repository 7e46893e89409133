import SourceAtlas.Connection.Move
import SourceAtlas.Proofs.Wire.Result
/-!
# What a run of moves did

The connection itself forgets a request once its call has gone on. What a run of
moves did is read off the moves instead: which requests were started, and which
answer was the first to arrive under an id while a request of that id was waiting.

`Outcome` says what may become of a request, given that answer: what the request gets out
of the result in it, the error in it, a cancellation by its own token, a broken connection,
or a shutdown that was not answered in time.
-/

namespace SourceAtlas

namespace Connection

abbrev Answer := Except ServerError Json

@[simp] theorem play_nil (c : Connection) : c.play [] = c := rfl

@[simp] theorem play_cons (c : Connection) (m : Move) (ms : List Move) :
    c.play (m :: ms) = (c.move m).play ms := rfl

theorem play_append (c : Connection) (ms ms' : List Move) :
    c.play (ms ++ ms') = (c.play ms).play ms' :=
  List.foldl_append

theorem play_concat (c : Connection) (ms : List Move) (m : Move) :
    c.play (ms ++ [m]) = (c.play ms).move m := by
  rw [play_append, play_cons, play_nil]

/-! ## The requests that were started -/

/-- The request that a move starts. -/
def started? (c : Connection) : Move → Option Request
  | .start call =>
      match call.errand with
      | .tell _ _ => none
      | .ask purpose method _ =>
          match c.refusal? c.nextCall purpose with
          | some _ => none
          | none => some (c.nextRequest purpose method)
  | _ => none

/-- All requests that are started in the course of some moves, in their order. -/
def requests (c : Connection) : List Move → List Request
  | [] => []
  | m :: ms => (c.started? m).toList ++ (c.move m).requests ms

theorem requests_append (c : Connection) (ms ms' : List Move) :
    c.requests (ms ++ ms') = c.requests ms ++ (c.play ms).requests ms' := by
  induction ms generalizing c with
  | nil => rfl
  | cons m ms ih => simp [requests, ih]

theorem requests_concat (c : Connection) (ms : List Move) (m : Move) :
    c.requests (ms ++ [m]) = c.requests ms ++ ((c.play ms).started? m).toList := by
  simp [requests_append, requests]

theorem length_requests_le (c : Connection) (ms : List Move) :
    (c.requests ms).length ≤ ms.length := by
  induction ms generalizing c with
  | nil => simp [requests]
  | cons m ms ih =>
      have rest := ih (c.move m)
      have one : (c.started? m).toList.length ≤ 1 := by
        cases c.started? m <;> simp
      simp only [requests, List.length_append, List.length_cons]
      omega

/-! ## The first answer to a request -/

/-- The answer that a move brings in for a request that waits under an id. -/
def answer? (c : Connection) (id : Nat) : Move → Option Answer
  | .hear (some (.response given answer)) =>
      if c.reading ∧ given = id ∧ id ∈ c.waiting then some answer else none
  | _ => none

/-- The first answer that arrives under an id while a request of that id is waiting. -/
def firstAnswer? (c : Connection) (id : Nat) : List Move → Option Answer
  | [] => none
  | m :: ms => (c.answer? id m).or ((c.move m).firstAnswer? id ms)

theorem firstAnswer?_append (c : Connection) (id : Nat) (ms ms' : List Move) :
    c.firstAnswer? id (ms ++ ms') =
      (c.firstAnswer? id ms).or ((c.play ms).firstAnswer? id ms') := by
  induction ms generalizing c with
  | nil => rfl
  | cons m ms ih => simp [firstAnswer?, ih, Option.or_assoc]

theorem firstAnswer?_concat (c : Connection) (id : Nat) (ms : List Move) (m : Move) :
    c.firstAnswer? id (ms ++ [m]) = (c.firstAnswer? id ms).or ((c.play ms).answer? id m) := by
  simp [firstAnswer?_append, firstAnswer?]

theorem firstAnswer?_concat_of_eq_some {c : Connection} {id : Nat} {ms : List Move} {a : Answer}
    (h : c.firstAnswer? id ms = some a) (m : Move) : c.firstAnswer? id (ms ++ [m]) = some a := by
  rw [firstAnswer?_concat, h, Option.some_or]

/-! ## What may become of a request -/

/-- What may become of a request by now, given the first answer it was sent. -/
inductive Outcome (c : Connection) (r : Request) (answer : Option Answer) :
    Except CallError Reply → Prop where
  | answered {result : Json} {outcome : Except CallError Reply} :
      answer = some (.ok result) → r.Gets result outcome → Outcome c r answer outcome
  | refused {e : ServerError} : answer = some (.error e) →
      Outcome c r answer (.error (.response e.code e.message))
  | cancelled : r.call ∈ c.revoked → r.purpose ≠ .shutdown →
      Outcome c r answer (.error .cancelled)
  | broken (reason : String) : c.isClosed → Outcome c r answer (.error (.transport reason))
  | late : r.isLate c.clock → Outcome c r answer (.ok .nothing)

end Connection

end SourceAtlas
