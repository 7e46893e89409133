import Mathlib.Data.List.Induction
import SourceAtlas.Proofs.Ascending
import SourceAtlas.Proofs.Connection.Trace
/-!
# What a connection writes

No move looks at what was sent before. So what a move writes (`written`) depends on the rest
of the connection only, and a connection with another record of what was sent makes the same
move and adds the same to its record: `move_withSent`, `play_withSent`.

Among what is written, the answers to requests of the server are those messages that name no
method. There is one for every such request that is read while writing works, in the order
they were read, under the id that came with it: `filter_isAnswer_sent`.
-/

namespace SourceAtlas

/-- What an object holds under a key is the last value that the key was given. -/
theorem Json.field?_ofFields (key : String) (fields : List (String × Json)) :
    (Json.ofFields fields).field? key = fields.reverse.lookup key := by
  have ascending (fields : List (String × Json)) :
      IsAscending (fields.foldl (fun acc f => Ascending.put f.1 f.2 acc) []) := by
    induction fields using List.reverseRecOn with
    | nil => exact .nil
    | append_singleton fields f ih =>
        rw [List.foldl_concat]
        exact Ascending.isAscending_alter ih
  induction fields using List.reverseRecOn with
  | nil => rfl
  | append_singleton fields f ih =>
      obtain ⟨name, value⟩ := f
      rw [Json.ofFields, field?] at ih
      rw [Json.ofFields, field?, List.foldl_concat, List.reverse_concat, List.lookup_cons]
      by_cases h : key = name
      · rw [h, beq_self_eq_true, Ascending.put, Ascending.lookup_alter_self (ascending fields)]
      · rw [beq_eq_false_iff_ne.mpr h, Ascending.put, Ascending.lookup_alter_of_ne h, ih]

namespace Connection

variable (c : Connection) (sent : List Json)

/-- A connection with another record of what was sent. -/
def withSent (c : Connection) (sent : List Json) : Connection :=
  { c with sent }

@[simp] theorem sent_withSent : (c.withSent sent).sent = sent := rfl

@[simp] theorem withSent_withSent (later : List Json) :
    (c.withSent sent).withSent later = c.withSent later := rfl

@[simp] theorem withSent_self : c.withSent c.sent = c := rfl

/-- What comes out of a message that is to be written. -/
def passed (c : Connection) (message : Json) : List Json :=
  if c.fault = none then [message] else []

/-- What a move writes. -/
def written (c : Connection) : Move → List Json
  | .proceed n =>
      match c.stages[n]? with
      | some (.posting r params _) => c.passed (Wire.request r.id r.method params)
      | some (.sending method params _) => c.passed (Wire.notification method params)
      | _ => []
  | .hear (some (.request id _)) => if c.reading then c.passed (Wire.emptyAnswer id) else []
  | _ => []

/-- What some moves write, one after another. -/
def writtenIn (c : Connection) : List Move → List Json
  | [] => []
  | m :: ms => c.written m ++ (c.move m).writtenIn ms

@[simp] theorem written_withSent (m : Move) : (c.withSent sent).written m = c.written m := rfl

/-! ## Moves and the record -/

theorem write_withSent (message : Json) :
    (c.withSent sent).write message =
      ((c.write message).1.withSent (sent ++ c.passed message), (c.write message).2) := by
  cases h : c.fault with
  | none => simp [write, withSent, passed, h]
  | some fault => simp [write, withSent, passed, h]

theorem close_withSent (reason : String) :
    (c.withSent sent).close reason = (c.close reason).withSent sent := rfl

theorem writeOrClose_withSent (message : Json) :
    (c.withSent sent).writeOrClose message =
      ((c.writeOrClose message).1.withSent (sent ++ c.passed message),
        (c.writeOrClose message).2) := by
  cases h : c.fault with
  | none => simp [writeOrClose, write, withSent, passed, h]
  | some fault =>
      have broken : (c.withSent sent).fault = some fault := h
      simp [writeOrClose, write, passed, h, broken, close_withSent]

theorem release_withSent (id : Nat) (verdict : Verdict) :
    (c.withSent sent).release id verdict = (c.release id verdict).withSent sent := by
  have same : (c.withSent sent).waiting[id]? = c.waiting[id]? := rfl
  rw [release, release, same]
  cases c.waiting[id]? <;> rfl

theorem stop_withSent (reason : String) :
    (c.withSent sent).stop reason = (c.stop reason).withSent sent := by
  have same : (c.withSent sent).reading = c.reading := rfl
  rw [stop, stop, same]
  cases c.reading <;> rfl

theorem resume_withSent (r : Request) (n : Nat) (result : Json) :
    (c.withSent sent).resume r n result = (c.resume r n result).withSent sent := by
  rw [resume, resume]
  cases r.purpose <;> rfl

theorem conclude_withSent (n : Nat) (after : Aftermath) (outcome : Except CallError Unit) :
    (c.withSent sent).conclude n after outcome = (c.conclude n after outcome).withSent sent := by
  cases after <;> rfl

theorem enrol_withSent (n : Nat) (r : Request) (params : Json) :
    (c.withSent sent).enrol n r params = (c.enrol n r params).withSent sent := by
  rw [enrol, release_withSent]
  rfl

theorem start_withSent (call : Call) :
    (c.withSent sent).start call = (c.start call).withSent sent := by
  rw [start, start]
  cases call.errand with
  | tell method params => rfl
  | ask purpose method params =>
      have same : (c.withSent sent).refusal? (c.withSent sent).nextCall purpose =
        c.refusal? c.nextCall purpose := rfl
      simp only [same]
      cases c.refusal? c.nextCall purpose <;> rfl

theorem withdraw_withSent (n : Nat) :
    (c.withSent sent).withdraw n = (c.withdraw n).withSent sent := by
  have same : (c.withSent sent).stages[n]? = c.stages[n]? := rfl
  have revoked : (c.withSent sent).revoked = c.revoked := rfl
  simp only [withdraw, same, revoked]
  split
  · split <;> rfl
  · rfl

theorem expire_withSent (n : Nat) :
    (c.withSent sent).expire n = (c.expire n).withSent sent := by
  have same : (c.withSent sent).stages[n]? = c.stages[n]? := rfl
  have clock : (c.withSent sent).clock = c.clock := rfl
  simp only [expire, same, clock]
  split
  · split <;> rfl
  · rfl

/-- The next step of a call adds what it writes. -/
theorem proceed_withSent (n : Nat) :
    (c.withSent sent).proceed n = (c.proceed n).withSent (sent ++ c.written (.proceed n)) := by
  have same : (c.withSent sent).stages[n]? = c.stages[n]? := rfl
  rw [proceed, proceed, written, same]
  cases hs : c.stages[n]? with
  | none => simp
  | some s =>
      cases s with
      | enrolling r params =>
          have closed : (c.withSent sent).closed = c.closed := rfl
          simp only [perform, closed, List.append_nil]
          cases c.closed with
          | some reason => rfl
          | none => exact enrol_withSent c sent n r params
      | posting r params told =>
          simp only [perform, writeOrClose_withSent]
          rcases c.writeOrClose (Wire.request r.id r.method params) with ⟨c', ⟨e⟩ | ⟨⟩⟩ <;> rfl
      | waiting r told =>
          simp only [List.append_nil]
          match told with
          | none => rfl
          | some (.error e) => rfl
          | some (.ok result) => exact resume_withSent c sent r n result
      | notifying method params after =>
          have closed : (c.withSent sent).closed = c.closed := rfl
          simp only [perform, closed, List.append_nil]
          cases c.closed with
          | some reason => exact conclude_withSent c sent n after _
          | none => rfl
      | sending method params after =>
          simp only [perform, writeOrClose_withSent]
          exact conclude_withSent _ _ n after _
      | leaving result => rw [List.append_nil]; rfl

/-- Nothing is answered once nobody reads. -/
theorem written_hear_of_unread (h : c.reading = false) (message : Option Message) :
    c.written (.hear message) = [] := by
  match message with
  | some (.request id method) => rw [written, h]; rfl
  | some (.response _ _) | some (.notification _ _) | none => rfl

/-- The reader adds its answer to a request of the server. -/
theorem hear_withSent (message : Option Message) :
    (c.withSent sent).hear message =
      (c.hear message).withSent (sent ++ c.written (.hear message)) := by
  have same : (c.withSent sent).reading = c.reading := rfl
  cases hr : c.reading with
  | false => simp [hear, same, hr, written_hear_of_unread c hr]
  | true =>
      match message with
      | some (.response id outcome) =>
          simpa [hear, same, hr, written] using release_withSent c sent id _
      | some (.request id method) =>
          simp only [hear, same, hr, if_true, written, write_withSent]
          rcases c.write (Wire.emptyAnswer id) with ⟨c', ⟨e⟩ | ⟨⟩⟩
          · exact stop_withSent c' _ _
          · rfl
      | some (.notification method params) | none => simp [hear, same, hr, written]

/-- A move does the same whatever was sent before, and adds what it writes. -/
theorem move_withSent (m : Move) :
    (c.withSent sent).move m = (c.move m).withSent (sent ++ c.written m) := by
  cases m with
  | start call => simpa [written, move] using start_withSent c sent call
  | proceed n => exact proceed_withSent c sent n
  | withdraw n => simpa [written, move] using withdraw_withSent c sent n
  | expire n => simpa [written, move] using expire_withSent c sent n
  | hear message => exact hear_withSent c sent message
  | stop reason => simpa [written, move] using stop_withSent c sent reason
  | revoke n | abandon n | keep octets | turn fault | elapse seconds =>
      rw [written, List.append_nil]
      · rfl
      all_goals nofun

theorem sent_move (m : Move) : (c.move m).sent = c.sent ++ c.written m := by
  have h := congrArg Connection.sent (move_withSent c c.sent m)
  rwa [withSent_self, sent_withSent] at h

theorem play_withSent (ms : List Move) :
    (c.withSent sent).play ms = (c.play ms).withSent (sent ++ c.writtenIn ms) := by
  induction ms generalizing c sent with
  | nil => rw [writtenIn, List.append_nil]; rfl
  | cons m ms ih =>
      rw [play_cons, play_cons, move_withSent, ih, writtenIn, List.append_assoc]

/-! ## Answers to the server -/

/-- Whether a message is an answer: it names no method. -/
def isAnswer (message : Json) : Bool :=
  (message.field? "method").isNone

theorem isAnswer_emptyAnswer (id : Json) : isAnswer (Wire.emptyAnswer id) = true := by
  rw [isAnswer, Wire.emptyAnswer, Json.field?_ofFields]
  rfl

theorem isAnswer_request (id : Nat) (method : String) (params : Json) :
    isAnswer (Wire.request id method params) = false := by
  rw [isAnswer, Wire.request, Json.field?_ofFields]
  rfl

theorem isAnswer_notification (method : String) (params : Json) :
    isAnswer (Wire.notification method params) = false := by
  rw [isAnswer, Wire.notification, Json.field?_ofFields]
  rfl

/-- An answer to the server gives its id back as it came, and has nothing to tell. -/
theorem fields_emptyAnswer (id : Json) :
    (Wire.emptyAnswer id).field? "id" = some id ∧
      (Wire.emptyAnswer id).field? "result" = some .null := by
  rw [Wire.emptyAnswer, Json.field?_ofFields, Json.field?_ofFields]
  exact ⟨rfl, rfl⟩

/-- The id of the request of the server that a move reads. -/
def asks (c : Connection) : Move → List Json
  | .hear (some (.request id _)) => if c.reading then [id] else []
  | _ => []

/-- The ids of all requests of the server that some moves read, in their order. -/
def asksIn (c : Connection) : List Move → List Json
  | [] => []
  | m :: ms => c.asks m ++ (c.move m).asksIn ms

/-- Writing works wherever a request of the server is read. -/
def Answering (c : Connection) (ms : List Move) : Prop :=
  ∀ before id method after, ms = before ++ .hear (some (.request id method)) :: after →
    (c.play before).fault = none

theorem Answering.tail {m : Move} {ms : List Move} (h : c.Answering (m :: ms)) :
    (c.move m).Answering ms := by
  rintro before id method after rfl
  exact h (m :: before) id method after rfl

theorem filter_isAnswer_passed {message : Json} (h : isAnswer message = false) :
    (c.passed message).filter isAnswer = [] := by
  rw [passed]
  split
  · exact List.filter_cons_of_neg (by rw [h]; nofun)
  · rfl

/-- Where writing works, the one answer a move writes is that to the request it reads. -/
theorem filter_isAnswer_written (m : Move)
    (h : ∀ id method, m = .hear (some (.request id method)) → c.fault = none) :
    (c.written m).filter isAnswer = (c.asks m).map Wire.emptyAnswer := by
  match m with
  | .proceed n =>
      rw [written]
      split
      · exact filter_isAnswer_passed c (isAnswer_request _ _ _)
      · exact filter_isAnswer_passed c (isAnswer_notification _ _)
      · rfl
  | .hear (some (.request id method)) =>
      rw [written, asks, passed, if_pos (h id method rfl)]
      split
      · exact List.filter_cons_of_pos (isAnswer_emptyAnswer id)
      · rfl
  | .hear (some (.response _ _)) | .hear (some (.notification _ _)) | .hear none
  | .start _ | .revoke _ | .withdraw _ | .expire _ | .abandon _ | .stop _ | .keep _ | .turn _
  | .elapse _ => rfl

/-- Every request of the server is answered once, in its turn and under its own id, and
nothing else is answered. -/
theorem filter_isAnswer_sent (ms : List Move) (h : c.Answering ms) :
    (c.play ms).sent.filter isAnswer =
      c.sent.filter isAnswer ++ (c.asksIn ms).map Wire.emptyAnswer := by
  induction ms generalizing c with
  | nil => exact (List.append_nil _).symm
  | cons m ms ih =>
      have one := filter_isAnswer_written c m fun id method hm => h [] id method ms (by rw [hm]; rfl)
      rw [play_cons, ih (c.move m) h.tail, sent_move, List.filter_append, one, asksIn,
        List.map_append, List.append_assoc]

end Connection

end SourceAtlas
