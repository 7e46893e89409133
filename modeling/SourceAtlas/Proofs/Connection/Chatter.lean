import SourceAtlas.Proofs.Connection.Interleaving
import SourceAtlas.Proofs.Connection.Writing
/-!
# Chatter of the server

A server says more than it is asked for: it notifies, has requests of its own, answers under
ids that nobody waits for, and sends messages that are nothing at all. Such messages may come
between any two moves of a run.

Where no request waits for what comes in that way, and requests among it can be answered, the
reader does no more than add those answers to what was sent (`hear_chatter`). No move looks at
what was sent, so from there on the run goes as it would have gone without (`play_loud`), and
chatter changes no result and does not close the connection: `undisturbed_of_unawaited`. Where
an answer cannot be written the connection is given up, so there chatter does make a
difference: `chatter_closes_brokenSteps`.
-/

namespace SourceAtlas

namespace Connection

/-- A move of a run, or a message that is put in between moves. -/
inductive Step where
  | move (m : Move)
  | chatter (i : Incoming)

/-- The move that a step makes. -/
def Step.loud : Step → Move
  | .move m => m
  | .chatter i => .hear i.classify?

/-- The move that a step makes where chatter is left out. -/
def Step.quiet? : Step → Option Move
  | .move m => some m
  | .chatter _ => none

def loud (script : List Step) : List Move :=
  script.map Step.loud

def quiet (script : List Step) : List Move :=
  script.filterMap Step.quiet?

@[simp] theorem loud_append (script script' : List Step) :
    loud (script ++ script') = loud script ++ loud script' :=
  List.map_append

@[simp] theorem quiet_append (script script' : List Step) :
    quiet (script ++ script') = quiet script ++ quiet script' :=
  List.filterMap_append

/-- No request waits for a message. -/
def Unawaited (c : Connection) (i : Incoming) : Prop :=
  match i.classify? with
  | some (.response id _) => c.waiting[id]? = none
  | _ => True

/-- A message that is a request can be answered as long as there is somebody who reads it. -/
def Answerable (c : Connection) (i : Incoming) : Prop :=
  match i.classify? with
  | some (.request _ _) => c.reading = true → c.fault = none
  | _ => True

/-- All chatter of a run has a property where it comes in. -/
def Throughout (P : Connection → Incoming → Prop) (c : Connection) : List Step → Prop
  | [] => True
  | .move m :: rest => (c.move m).Throughout P rest
  | .chatter i :: rest => P c i ∧ (c.hear i.classify?).Throughout P rest

variable {c : Connection} {sent : List Json} {i : Incoming} {P : Connection → Incoming → Prop}

theorem throughout_append {script script' : List Step} :
    c.Throughout P (script ++ script') ↔
      c.Throughout P script ∧ (c.play (loud script)).Throughout P script' := by
  induction script generalizing c with
  | nil => exact (iff_of_eq (true_and _)).symm
  | cons step script ih =>
      cases step with
      | move m => exact ih
      | chatter i => exact (and_congr_right fun _ => ih).trans and_assoc.symm

/-- Chatter is answered if it is a request, and nothing else is written. -/
theorem written_chatter (h : c.Answerable i) :
    c.written (.hear i.classify?) = (c.asks (.hear i.classify?)).map Wire.emptyAnswer := by
  rw [Answerable] at h
  cases hclass : i.classify? with
  | none => rfl
  | some message =>
      cases message with
      | response id outcome => rfl
      | notification method params => rfl
      | request id method =>
          rw [hclass] at h
          rw [written, asks]
          split
          · next hreading => rw [passed, if_pos (h hreading)]; rfl
          · rfl

/-- The reader leaves all but what was sent as it is. -/
theorem hear_chatter (hi : c.Unawaited i) (ha : c.Answerable i) :
    c.hear i.classify? = c.withSent (c.sent ++ c.written (.hear i.classify?)) := by
  rw [Unawaited] at hi
  rw [Answerable] at ha
  cases hreading : c.reading with
  | false =>
      rw [written_hear_of_unread c hreading, List.append_nil, withSent_self]
      simp [hear, hreading]
  | true =>
      cases hclass : i.classify? with
      | none => simp [hear, hreading, written]
      | some message =>
          rw [hclass] at hi ha
          cases message with
          | response id outcome => simpa [hear, hreading, written] using release_of_none hi _
          | notification method params => simp [hear, hreading, written]
          | request id method =>
              have works : c.fault = none := ha hreading
              simp [hear, hreading, written, passed, write, works, withSent]

/-! ## Runs with and without chatter -/

/-- Properties that do not look at what was sent hold of chatter whatever was sent. -/
theorem throughout_withSent (hP : ∀ c sent i, P (withSent c sent) i ↔ P c i)
    {script : List Step} : (c.withSent sent).Throughout P script ↔ c.Throughout P script := by
  induction script generalizing c sent with
  | nil => exact Iff.rfl
  | cons step script ih =>
      cases step with
      | move m =>
          rw [Throughout, move_withSent, ih]
          rfl
      | chatter i =>
          rw [Throughout, hear_withSent, ih, hP]
          rfl

/-- A run with chatter is the run without, but for what was sent. -/
theorem play_loud (script : List Step) (hunawaited : c.Throughout Unawaited script)
    (hanswerable : c.Throughout Answerable script) :
    c.play (loud script) = (c.play (quiet script)).withSent (c.play (loud script)).sent := by
  induction script generalizing c with
  | nil => rfl
  | cons step script ih =>
      cases step with
      | move m => exact ih hunawaited hanswerable
      | chatter i =>
          obtain ⟨hi, hunawaited⟩ := hunawaited
          obtain ⟨ha, hanswerable⟩ := hanswerable
          have heard := hear_chatter hi ha
          rw [heard, throughout_withSent fun _ _ _ => Iff.rfl] at hunawaited hanswerable
          have step : c.play (loud (.chatter i :: script)) =
              (c.withSent (c.sent ++ c.written (.hear i.classify?))).play (loud script) := by
            rw [← heard]
            rfl
          rw [step, play_withSent, ih hunawaited hanswerable, sent_withSent, withSent_withSent]
          rfl

/-- What holds of a run with chatter, next to the run without it. -/
structure Undisturbed (c : Connection) (script : List Step) : Prop where
  /-- The calls have come to the same results at every point. -/
  results : ∀ before after, script = before ++ after →
    (c.play (loud before)).finished = (c.play (quiet before)).finished
  /-- The connection is closed at the same point, for the same reason. -/
  closing : ∀ before after, script = before ++ after →
    (c.play (loud before)).closed = (c.play (quiet before)).closed
  /-- And all else is the same, but for what was sent. -/
  rest : ∀ before after, script = before ++ after →
    c.play (loud before) = (c.play (quiet before)).withSent (c.play (loud before)).sent
  /-- A move writes the same in both runs. -/
  own : ∀ before m after, script = before ++ .move m :: after → ∃ messages,
    (c.play (quiet (before ++ [.move m]))).sent = (c.play (quiet before)).sent ++ messages ∧
      (c.play (loud (before ++ [.move m]))).sent = (c.play (loud before)).sent ++ messages
  /-- Chatter has the one answer written that it asks for, if it asks for one. -/
  inserted : ∀ before i after, script = before ++ .chatter i :: after →
    (c.play (loud (before ++ [.chatter i]))).sent = (c.play (loud before)).sent ++
      ((c.play (loud before)).asks (.hear i.classify?)).map Wire.emptyAnswer
  /-- While writing works, the answers are one to every request of the server that is read,
  in their order, each with the id of its request and a null result. -/
  answered : c.Answering (loud script) →
    (c.play (loud script)).sent.filter isAnswer =
      c.sent.filter isAnswer ++ (c.asksIn (loud script)).map Wire.emptyAnswer
  echoed : ∀ id, (Wire.emptyAnswer id).field? "id" = some id ∧
    (Wire.emptyAnswer id).field? "result" = some .null

/-- Chatter changes no answer: whatever a server says between the moves of a run that nobody
waits for, all calls come to the same results and the connection closes where it did, as long
as the requests among it can be answered. They are, each under its own id, and nothing else is
written that was not written before. -/
theorem undisturbed_of_unawaited (script : List Step)
    (hunawaited : c.Throughout Unawaited script) (hanswerable : c.Throughout Answerable script) :
    c.Undisturbed script := by
  have part {before after : List Step} (hscript : script = before ++ after) :
      c.play (loud before) = (c.play (quiet before)).withSent (c.play (loud before)).sent := by
    rw [hscript, throughout_append] at hunawaited hanswerable
    exact play_loud before hunawaited.1 hanswerable.1
  have next (ms : List Move) (m : Move) : c.play (ms ++ [m]) = (c.play ms).move m := by
    rw [play_append, play_cons, play_nil]
  constructor
  case results =>
    intro before after hscript
    rw [part hscript]
    rfl
  case closing =>
    intro before after hscript
    rw [part hscript]
    rfl
  case rest =>
    exact fun before after hscript => part hscript
  case own =>
    intro before m after hscript
    refine ⟨(c.play (quiet before)).written m, ?_, ?_⟩
    · rw [quiet_append, show quiet [.move m] = [m] from rfl, next, sent_move]
    · rw [loud_append, show loud [.move m] = [m] from rfl, next, sent_move,
        congrArg (written · m) (part hscript), written_withSent]
  case inserted =>
    intro before i after hscript
    rw [hscript, throughout_append] at hanswerable
    rw [loud_append, show loud [.chatter i] = [.hear i.classify?] from rfl, next, sent_move,
      written_chatter hanswerable.2.1]
  case answered => exact filter_isAnswer_sent c (loud script)
  case echoed => exact fields_emptyAnswer

/-- A request waits for its answer. Before that comes, the server has a request of its own
under the same id, notifies, answers a request nobody made, and sends a message that is
nothing. -/
def chattySteps : List Step :=
  [.move (.start (.request "first" .null)), .move (.proceed 0), .move (.proceed 0),
    .chatter ⟨some (.nat 1), some "workspace/configuration", .null, none, none⟩,
    .chatter ⟨none, some "window/logMessage", .null, none, none⟩,
    .chatter ⟨some (.nat 9), none, .null, some .null, none⟩,
    .chatter ⟨none, none, .null, some .null, none⟩,
    .move (.hear (some (.response 1 (.ok (.bool true))))), .move (.proceed 0),
    .move (.stop "the stream ended")]

theorem undisturbed_of_unawaited_chattySteps :
    fresh.Throughout Unawaited chattySteps ∧ fresh.Throughout Answerable chattySteps ∧
      fresh.Undisturbed chattySteps := by
  have free : (fresh.play (loud (chattySteps.take 5))).waiting[9]? = none := by decide
  have unawaited : fresh.Throughout Unawaited chattySteps := ⟨trivial, trivial, free, trivial, trivial⟩
  have answerable : fresh.Throughout Answerable chattySteps :=
    ⟨fun _ => rfl, trivial, trivial, trivial, trivial⟩
  exact ⟨unawaited, answerable, undisturbed_of_unawaited chattySteps unawaited answerable⟩

example : (fresh.asksIn (loud chattySteps)).length = 1 := by decide

/-- A request waits for its answer when writing breaks. Before the answer comes, the server
has a request of its own. -/
def brokenSteps : List Step :=
  [.move (.start (.request "first" .null)), .move (.proceed 0), .move (.proceed 0),
    .move (.turn (some "broken pipe")),
    .chatter ⟨some (.nat 9), some "workspace/configuration", .null, none, none⟩,
    .move (.hear (some (.response 1 (.ok (.bool true))))), .move (.proceed 0)]

/-- The request of the server cannot be answered. So the connection is closed, and the call
fails that would have had its answer. -/
theorem chatter_closes_brokenSteps :
    fresh.Throughout Unawaited brokenSteps ∧
      (fresh.play (loud brokenSteps)).isClosed = true ∧
      (fresh.play (quiet brokenSteps)).isClosed = false ∧
      (fresh.play (loud brokenSteps)).finished.map (fun f => (f.1, f.2.isOk)) = [(0, false)] ∧
      (fresh.play (quiet brokenSteps)).finished.map (fun f => (f.1, f.2.isOk)) = [(0, true)] := by
  have unawaited : fresh.Throughout Unawaited brokenSteps := ⟨trivial, trivial⟩
  exact ⟨unawaited, by decide, by decide, by decide, by decide⟩

end Connection

end SourceAtlas
