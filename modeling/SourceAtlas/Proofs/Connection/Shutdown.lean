import SourceAtlas.Proofs.Connection.Interleaving
import SourceAtlas.Proofs.Connection.Writing
/-!
# Shutting down

A shutdown is a request, and the notification that the server may exit. What becomes of it is
followed through the moves of a run: its request waits, it was settled and the notification is
on its way (`Settled`), the notification is written (`SaidExit`), or the connection was closed
by something else (`Broke`). `Stands` says which of these a stage of the call stands for, and
every move keeps it (`Stands.move`).

So a shutdown that has come to its end leaves the connection closed for good
(`closed_of_shutdown`), unless the server refuses: the call then ends with the error, the
connection stays open and nothing is written (`open_after_refusal`).
-/

namespace SourceAtlas

namespace Connection

variable {c c' : Connection} {ms : List Move} {m : Move} {n : Nat} {r : Request} {s : Stage}
  {result : Except CallError Reply}

/-! ## What the moves did -/

/-- The request of a shutdown is settled: it was answered with a result, or its time is up. -/
def Settled (ms : List Move) (r : Request) : Prop :=
  (∃ value, fresh.firstAnswer? r.id ms = some (.ok value)) ∨ r.isLate (fresh.play ms).clock

/-- A message is the notification that the server may exit. It has no id, and it has nothing
else to tell. -/
structure IsExit (message : Json) : Prop where
  version : message.field? "jsonrpc" = some (.string "2.0")
  method : message.field? "method" = some (.string "exit")
  params : message.field? "params" = some .null
  id : message.field? "id" = none

theorem isExit_notification : IsExit (Wire.notification "exit" .null) := by
  constructor <;> rw [Wire.notification, Json.field?_ofFields] <;> rfl

/-- A step of the call wrote the notification that the server may exit, when its request was
settled. -/
def SaidExit (ms : List Move) (n : Nat) (r : Request) : Prop :=
  ∃ before after message, ms = before ++ .proceed n :: after ∧ Settled before r ∧
    message = Wire.notification "exit" .null ∧ IsExit message ∧
      (fresh.play (before ++ [.proceed n])).sent = (fresh.play before).sent ++ [message]

/-- The connection was closed, and not by the last step of the call. -/
def Broke (ms : List Move) (n : Nat) : Prop :=
  ∃ before m after, ms = before ++ m :: after ∧ ¬ (fresh.play before).isClosed ∧
    (fresh.play (before ++ [m])).isClosed ∧
    ∀ result, m = .proceed n → (fresh.play before).stages[n]? ≠ some (.leaving result)

theorem Settled.concat (h : Settled ms r) (m : Move) : Settled (ms ++ [m]) r := by
  rcases h with ⟨value, hvalue⟩ | hlate
  · exact .inl ⟨value, firstAnswer?_concat_of_eq_some hvalue m⟩
  · rw [Settled, play_concat]
    exact .inr (isLate_mono hlate (grows_move _ m).clock)

theorem SaidExit.concat (h : SaidExit ms n r) (m : Move) : SaidExit (ms ++ [m]) n r := by
  obtain ⟨before, after, message, rfl, hsettled, hwritten⟩ := h
  exact ⟨before, after ++ [m], message, by rw [List.append_assoc, List.cons_append], hsettled,
    hwritten⟩

theorem Broke.concat (h : Broke ms n) (m : Move) : Broke (ms ++ [m]) n := by
  obtain ⟨before, m', after, rfl, hopen, hclosed, hother⟩ := h
  exact ⟨before, m', after ++ [m], by rw [List.append_assoc, List.cons_append], hopen, hclosed,
    hother⟩

/-! ## A closed connection with a call on its way -/

theorem isClosed_of_eq_some {reason : String} (h : c.closed = some reason) : c.isClosed := by
  rw [isClosed, h]
  rfl

/-- No move brings a call back that was there before. -/
theorem staged_of_move (hn : n < c.nextCall) (hs : (c.move m).stages[n]? = some s) :
    ∃ s', c.stages[n]? = some s' := by
  by_cases hown : c.owner? m = some n
  case neg =>
    rcases (spares_move c hown).stage with same | ⟨verdict, told⟩
    · exact ⟨s, same.symm.trans hs⟩
    · obtain ⟨s', hs', -⟩ := Option.map_eq_some_iff.mp (told.symm.trans hs)
      exact ⟨s', hs'⟩
  by_contra hnone
  have hnone : c.stages[n]? = none :=
    Option.eq_none_iff_forall_ne_some.mpr fun s' hs' => hnone ⟨s', hs'⟩
  cases m with
  | start call => exact absurd (Option.some.inj hown) (Nat.ne_of_lt hn).symm
  | proceed k | withdraw k | expire k =>
      obtain rfl := Option.some.inj hown
      simp [move, proceed, withdraw, expire, hnone] at hs
  | abandon k =>
      obtain rfl := Option.some.inj hown
      simp [move] at hs
  | revoke | hear | stop | keep | turn | elapse => cases hown

/-- The last step of a call takes it off the connection. -/
theorem stages_proceed_leaving (hs : c.stages[n]? = some (.leaving result)) :
    (c.proceed n).stages[n]? = none := by
  rw [proceed_of_stage hs, perform, stages_finish, if_pos rfl]

/-- Where a connection is closed while a call is on its way, something else has closed it. -/
theorem broke_of_staged {before : List Move} (hopen : ¬ (fresh.play before).isClosed)
    (hbegun : n < (fresh.play before).nextCall) {mid : List Move}
    (hclosed : (fresh.play (before ++ mid)).isClosed)
    (hs : (fresh.play (before ++ mid)).stages[n]? = some s) : Broke (before ++ mid) n := by
  induction mid using List.reverseRecOn generalizing s with
  | nil =>
      rw [List.append_nil] at hclosed
      exact absurd hclosed hopen
  | append_singleton mid m ih =>
      rw [← List.append_assoc] at hclosed hs ⊢
      by_cases hold : (fresh.play (before ++ mid)).isClosed
      · have hn := Nat.lt_of_lt_of_le hbegun (grows_play (fresh.play before) mid).nextCall
        rw [← play_append] at hn
        rw [play_concat] at hs
        obtain ⟨s', hs'⟩ := staged_of_move hn hs
        exact (ih hold hs').concat m
      · refine ⟨before ++ mid, m, [], rfl, hold, hclosed, fun result hm hleaving => ?_⟩
        subst hm
        rw [play_concat, move, stages_proceed_leaving hleaving] at hs
        cases hs

/-! ## Where a shutdown stands -/

/-- A shutdown leaves in one of two ways: the notification is written, or the connection broke
before. -/
def Leaves (ms : List Move) (n : Nat) (r : Request) (result : Except CallError Reply) : Prop :=
  result = .ok .nothing ∧ SaidExit ms n r ∨
    (∃ reason, result = .error (.transport reason)) ∧ Broke ms n

/-- The server answered the request with an error, and a step of the call did nothing but end
it with that error. -/
def Refused (ms : List Move) (n : Nat) (r : Request) (result : Except CallError Reply) : Prop :=
  (∃ e : ServerError, fresh.firstAnswer? r.id ms = some (.error e) ∧
    result = .error (.response e.code e.message)) ∧
  ∃ before after, ms = before ++ .proceed n :: after ∧
    fresh.play (before ++ [.proceed n]) = (fresh.play before).finish n result

/-- What the stages of a shutdown stand for. -/
def Course (ms : List Move) (n : Nat) (r : Request) : Stage → Prop
  | .enrolling r' _ | .posting r' _ _ | .waiting r' _ => r' = r
  | .notifying method params after | .sending method params after =>
      method = "exit" ∧ params = .null ∧ after = .close ∧ Settled ms r
  | .leaving result => Leaves ms n r result

/-- Where a shutdown stands after some moves. -/
structure Stands (ms : List Move) (n : Nat) (r : Request) (c : Connection) : Prop where
  staged : ∀ {s}, c.stages[n]? = some s → Course ms n r s
  finished : ∀ {result}, (n, result) ∈ c.finished →
    Refused ms n r result ∨ c.isClosed ∧ Leaves ms n r result

theorem Leaves.concat (h : Leaves ms n r result) (m : Move) : Leaves (ms ++ [m]) n r result :=
  h.imp (And.imp_right fun hsaid => hsaid.concat m) (And.imp_right fun hbroke => hbroke.concat m)

theorem Refused.concat (h : Refused ms n r result) (m : Move) :
    Refused (ms ++ [m]) n r result := by
  obtain ⟨⟨e, he, hresult⟩, before, after, rfl, hfinish⟩ := h
  refine ⟨⟨e, firstAnswer?_concat_of_eq_some he m, hresult⟩, before, after ++ [m], ?_, hfinish⟩
  rw [List.append_assoc, List.cons_append]

theorem Course.concat (h : Course ms n r s) (m : Move) : Course (ms ++ [m]) n r s := by
  cases s with
  | enrolling | posting | waiting => exact h
  | notifying | sending => exact ⟨h.1, h.2.1, h.2.2.1, h.2.2.2.concat m⟩
  | leaving => exact Leaves.concat h m

theorem Course.tell (h : Course ms n r s) (verdict : Verdict) : Course ms n r (s.tell verdict) := by
  cases s with
  | posting _ _ told | waiting _ told => cases told <;> exact h
  | enrolling | notifying | sending | leaving => exact h

namespace Stands

theorem concat (h : Stands ms n r c) (m : Move) : Stands (ms ++ [m]) n r c where
  staged hs := (h.staged hs).concat m
  finished hmem := (h.finished hmem).imp (·.concat m) (And.imp_right (·.concat m))

theorem spared (h : Stands ms n r c) (grows : Grows c c') (spares : Spares n c c') :
    Stands ms n r c' where
  staged := by
    intro s hs
    rcases spares.stage with same | ⟨verdict, told⟩
    · exact h.staged (same.symm.trans hs)
    · obtain ⟨s', hs', rfl⟩ := Option.map_eq_some_iff.mp (told.symm.trans hs)
      exact (h.staged hs').tell verdict
  finished hmem := (h.finished (spares.finished hmem)).imp_right (And.imp_left grows.isClosed)

theorem assign (h : Stands ms n r c) (hs : Course ms n r s) : Stands ms n r (c.assign n s) where
  staged := by
    intro s' hs'
    rw [stages_assign, if_pos rfl] at hs'
    exact Option.some.inj hs' ▸ hs
  finished := h.finished

theorem finish (h : Stands ms n r c)
    (hresult : Refused ms n r result ∨ c.isClosed ∧ Leaves ms n r result) :
    Stands ms n r (c.finish n result) where
  staged := by simp
  finished := by
    intro result' hmem
    simp only [Connection.finish, List.mem_append, List.mem_singleton, Prod.mk.injEq,
      true_and] at hmem
    rcases hmem with hmem | rfl
    · exact h.finished hmem
    · exact hresult

/-- The call ends with the reason of a connection that something else has closed. -/
theorem fail (h : Stands ms n r c) (hclosed : c.isClosed) (hbroke : Broke ms n)
    (reason : String) : Stands ms n r (c.finish n (.error (.transport reason))) :=
  h.finish (.inr ⟨hclosed, .inr ⟨⟨reason, rfl⟩, hbroke⟩⟩)

/-- The call is about to end with such a reason. -/
theorem falter (h : Stands ms n r c) (hbroke : Broke ms n) (reason : String) :
    Stands ms n r (c.assign n (.leaving (.error (.transport reason)))) :=
  h.assign (.inr ⟨⟨reason, rfl⟩, hbroke⟩)

theorem close (h : Stands ms n r c) (reason : String) : Stands ms n r (c.close reason) := by
  have alone : Action none c (c.close reason) := .close c reason
  exact h.spared (.of_action alone) (.of_action alone nofun)

theorem send (h : Stands ms n r c) (message : Json) :
    Stands ms n r { c with sent := c.sent ++ [message] } :=
  ⟨h.staged, h.finished⟩

end Stands

/-! ## The steps of a shutdown -/

section Step

variable {before mid : List Move} {rs : List Request}

/-- A call was told what the server answered, or that the connection is closed. -/
theorem Told.cases {answer : Option Answer} {verdict : Verdict}
    (h : c.Told r answer (some verdict)) :
    (∃ value, answer = some (.ok value) ∧ verdict = .ok value) ∨
      (∃ e : ServerError, answer = some (.error e) ∧
        verdict = .error (.response e.code e.message)) ∨
      c.isClosed ∧ ∃ reason, verdict = .error (.transport reason) := by
  obtain ⟨-, ⟨a, ha, hverdict⟩ | hbroken⟩ := h
  · cases a with
    | ok value => exact .inl ⟨value, ha, hverdict⟩
    | error e => exact .inr (.inl ⟨e, ha, hverdict⟩)
  · exact .inr (.inr hbroken)

/-- A step that finds the connection closed or closes it, and is not the last one, means that
something else has closed it. -/
theorem broke_of_step (hopen : ¬ (fresh.play before).isClosed)
    (hbegun : n < (fresh.play before).nextCall)
    (hs : (fresh.play (before ++ mid)).stages[n]? = some s)
    (hstage : ∀ result, s ≠ .leaving result)
    (hclosed : ((fresh.play (before ++ mid)).proceed n).isClosed) :
    Broke (before ++ mid ++ [.proceed n]) n := by
  by_cases hold : (fresh.play (before ++ mid)).isClosed
  · exact (broke_of_staged hopen hbegun hold hs).concat _
  · refine ⟨before ++ mid, .proceed n, [], rfl, hold, by rwa [play_concat, move], ?_⟩
    exact fun result _ hleaving => hstage result (Option.some.inj (hs.symm.trans hleaving))

/-- Every step of a shutdown takes it where it may stand. -/
theorem Stands.proceed (hopen : ¬ (fresh.play before).isClosed)
    (hbegun : n < (fresh.play before).nextCall) (hshutdown : r.purpose = .shutdown)
    (hinv : Invariant (fresh.play (before ++ mid)) rs
      fun id => fresh.firstAnswer? id (before ++ mid))
    (h : Stands (before ++ mid) n r (fresh.play (before ++ mid))) :
    Stands (before ++ mid ++ [.proceed n]) n r ((fresh.play (before ++ mid)).proceed n) := by
  cases hs : (fresh.play (before ++ mid)).stages[n]? with
  | none =>
      simp only [Connection.proceed, hs]
      exact h.concat _
  | some s =>
      have hbroke := broke_of_step hopen hbegun hs
      have hcourse := h.staged hs
      have hnext := h.concat (.proceed n)
      have hacc := (hinv.staged hs).2.2
      rw [proceed_of_stage hs] at hbroke ⊢
      generalize hc : fresh.play (before ++ mid) = c at *
      cases s with
      | enrolling r' params =>
          obtain rfl : r' = r := hcourse
          cases hclosed : c.closed with
          | some reason =>
              simp only [perform, hclosed] at hbroke ⊢
              have hisClosed := isClosed_of_eq_some hclosed
              exact hnext.fail hisClosed (hbroke (by simp) hisClosed) reason
          | none =>
              simp only [perform, hclosed, enrol]
              rw [release_of_none hacc.2.2.1]
              have entered : Stands (before ++ mid ++ [.proceed n]) n r'
                  { c with waiting := c.waiting.insert r'.id n } := ⟨hnext.staged, hnext.finished⟩
              exact entered.assign rfl
      | posting r' params told =>
          obtain rfl : r' = r := hcourse
          rcases c.writeOrClose_cases (Wire.request r'.id r'.method params) with
            written | ⟨reason, fault, failed⟩
          · simp only [perform, written]
            exact (hnext.send _).assign rfl
          · simp only [perform, failed] at hbroke ⊢
            have hisClosed := isClosed_close c reason
            exact (hnext.close reason).fail hisClosed (hbroke (by simp) hisClosed) fault
      | waiting r' told =>
          obtain rfl : r' = r := hcourse
          obtain ⟨-, -, htold⟩ := hacc
          cases told with
          | none => exact hnext
          | some verdict =>
              obtain ⟨value, ha, rfl⟩ | ⟨e, ha, rfl⟩ | ⟨hisClosed, reason, rfl⟩ := htold.cases
              · simp only [perform, resume, hshutdown]
                have hsettled : Settled (before ++ mid) r' := .inl ⟨value, ha⟩
                exact hnext.assign ⟨rfl, rfl, rfl, hsettled.concat _⟩
              · refine hnext.finish (.inl ⟨⟨e, firstAnswer?_concat_of_eq_some ha _, rfl⟩,
                  before ++ mid, [], rfl, ?_⟩)
                rw [play_concat, hc]
                exact proceed_of_stage hs
              · exact hnext.fail hisClosed (hbroke (by simp) hisClosed) reason
      | notifying method params after =>
          obtain ⟨rfl, rfl, rfl, hsettled⟩ := hcourse
          cases hclosed : c.closed with
          | some reason =>
              simp only [perform, hclosed, conclude] at hbroke ⊢
              exact hnext.falter (hbroke (by simp) (isClosed_of_eq_some hclosed)) reason
          | none =>
              simp only [perform, hclosed]
              exact hnext.assign ⟨rfl, rfl, rfl, hsettled.concat _⟩
      | sending method params after =>
          obtain ⟨rfl, rfl, rfl, hsettled⟩ := hcourse
          rcases c.writeOrClose_cases (Wire.notification "exit" .null) with
            written | ⟨reason, fault, failed⟩
          · have hsent : (c.proceed n).sent = c.sent ++ [Wire.notification "exit" .null] := by
              rw [proceed_of_stage hs, perform, written]
              rfl
            simp only [perform, written, conclude]
            refine (hnext.send _).assign
              (.inl ⟨rfl, before ++ mid, [], _, rfl, hsettled, rfl, isExit_notification, ?_⟩)
            rw [play_concat, hc]
            exact hsent
          · simp only [perform, failed, conclude] at hbroke ⊢
            have hisClosed := isClosed_close c reason
            exact (hnext.close reason).falter (hbroke (by simp) hisClosed) fault
      | leaving result =>
          have hleaves : Leaves (before ++ mid) n r result := hcourse
          exact (hnext.close shutDown).finish
            (.inr ⟨isClosed_close c shutDown, hleaves.concat _⟩)

/-- Every move takes a shutdown where it may stand, or leaves it where it is. -/
theorem Stands.move (hopen : ¬ (fresh.play before).isClosed)
    (hbegun : n < (fresh.play before).nextCall) (hshutdown : r.purpose = .shutdown)
    (hinv : Invariant (fresh.play (before ++ mid)) rs
      fun id => fresh.firstAnswer? id (before ++ mid))
    (h : Stands (before ++ mid) n r (fresh.play (before ++ mid))) (m : Move) :
    Stands (before ++ mid ++ [m]) n r ((fresh.play (before ++ mid)).move m) := by
  have hnext := h.concat m
  by_cases hown : (fresh.play (before ++ mid)).owner? m = some n
  case neg => exact hnext.spared (grows_move _ m) (spares_move _ hown)
  cases m with
  | start call =>
      have hgrows := grows_play (fresh.play before) mid
      rw [← play_append] at hgrows
      have hlt := Nat.lt_of_lt_of_le hbegun hgrows.nextCall
      exact absurd (Option.some.inj hown) (Nat.ne_of_lt hlt).symm
  | proceed k =>
      obtain rfl := Option.some.inj hown
      exact Stands.proceed hopen hbegun hshutdown hinv h
  | withdraw k =>
      obtain rfl := Option.some.inj hown
      simp only [Connection.move, withdraw]
      split
      · next r' told hs =>
          obtain rfl : r' = r := h.staged hs
          rw [if_neg fun hcancel => hcancel.2 hshutdown]
          exact hnext
      · exact hnext
  | expire k =>
      obtain rfl := Option.some.inj hown
      simp only [Connection.move, expire]
      split
      · next s hs =>
          split
          · next hlate =>
              have hcourse := h.staged hs
              cases s with
              | posting r' _ _ | waiting r' _ =>
                  obtain rfl : r' = r := hcourse
                  have hsettled : Settled (before ++ mid) r' := .inr hlate
                  exact hnext.assign ⟨rfl, rfl, rfl, hsettled.concat _⟩
              | enrolling | notifying | sending | leaving => cases hlate
          · exact hnext
      · exact hnext
  | abandon k =>
      obtain rfl := Option.some.inj hown
      exact ⟨by simp [Connection.move], hnext.finished⟩
  | revoke | hear | stop | keep | turn | elapse => cases hown

end Step

/-- On an open connection a shutdown draws its request and enters it next. -/
theorem start_shutdown (hopen : ¬ c.isClosed) :
    c.start .shutdown =
      { c with nextCall := c.nextCall + 1, nextId := (c.nextId + 1) % UInt64.size }.assign
        c.nextCall (.enrolling (c.nextRequest .shutdown "shutdown") .null) := by
  simp [start, Call.errand, refusal?, hopen]

theorem stands_start {ms : List Move} {rs : List Request} {heard : Nat → Option Answer}
    (hinv : Invariant (fresh.play ms) rs heard) (hopen : ¬ (fresh.play ms).isClosed) :
    Stands (ms ++ [.start .shutdown]) (fresh.play ms).nextCall
      ((fresh.play ms).nextRequest .shutdown "shutdown")
      (fresh.play (ms ++ [.start .shutdown])) := by
  rw [play_concat, Connection.move, start_shutdown hopen]
  refine ⟨fun hs => ?_, fun hmem => absurd (List.mem_map_of_mem hmem) hinv.free⟩
  rw [stages_assign, if_pos rfl] at hs
  obtain rfl := Option.some.inj hs
  rfl

/-- Wherever a run has got to, a shutdown stands where it may. -/
theorem stands_play {before mid : List Move} (hopen : ¬ (fresh.play before).isClosed)
    (hbegun : n < (fresh.play before).nextCall) (hshutdown : r.purpose = .shutdown)
    (h : Stands before n r (fresh.play before))
    (few : (fresh.requests (before ++ mid)).length < UInt64.size) :
    Stands (before ++ mid) n r (fresh.play (before ++ mid)) := by
  induction mid using List.reverseRecOn with
  | nil => rwa [List.append_nil]
  | append_singleton mid m ih =>
      rw [← List.append_assoc] at few ⊢
      have hfew : (fresh.requests (before ++ mid)).length < UInt64.size := by
        rw [requests_concat, List.length_append] at few
        omega
      rw [play_concat]
      exact (ih hfew).move hopen hbegun hshutdown (invariant_play _ hfew) m

/-! ## A connection that was left closed -/

/-- A connection that is closed for good: nothing waits on it, and what is started later comes
to a result and can only fail. -/
structure LeftClosed (ms : List Move) : Prop where
  closed : ∀ after, (fresh.play (ms ++ after)).isClosed
  table : ∀ after, (fresh.requests (ms ++ after)).length < UInt64.size →
    (fresh.play (ms ++ after)).waiting = ∅
  /-- Another shutdown has nothing to do. Every other call fails with the reason, or for a
  request because its token was cancelled before. -/
  fails : ∀ between call after, call ≠ .shutdown →
    (fresh.requests (ms ++ between ++ .start call :: after)).length < UInt64.size →
    ∀ result, ((fresh.play (ms ++ between)).nextCall, result) ∈
        (fresh.play (ms ++ between ++ .start call :: after)).finished →
      Fails ((∃ purpose method params, call.errand = .ask purpose method params) ∧
        (fresh.play (ms ++ between)).nextCall ∈ (fresh.play (ms ++ between)).revoked) result
  /-- Four steps of its own are enough. -/
  ends : ∀ between call after,
    (fresh.requests (ms ++ between ++ .start call :: after)).length < UInt64.size →
    (∀ m ∈ after, m ≠ .abandon (fresh.play (ms ++ between)).nextCall) →
    4 ≤ after.countP (Move.isStepOf (fresh.play (ms ++ between)).nextCall) →
    (fresh.play (ms ++ between)).nextCall ∈
      (fresh.play (ms ++ between ++ .start call :: after)).finished.map (·.1)

/-- A call that starts has a stage, or it has finished. -/
theorem staged_or_finished_start (c : Connection) (call : Call) :
    (∃ s, (c.start call).stages[c.nextCall]? = some s) ∨
      c.nextCall ∈ (c.start call).finished.map (·.1) := by
  simp only [start]
  split
  · exact .inl ⟨_, by rw [stages_assign, if_pos rfl]⟩
  · split
    · exact .inr (by simp [finish])
    · exact .inl ⟨_, by rw [stages_assign, if_pos rfl]⟩

theorem few_of_longer {before after : List Move}
    (few : (fresh.requests (before ++ after)).length < UInt64.size) :
    (fresh.requests before).length < UInt64.size := by
  rw [requests_append, List.length_append] at few
  omega

theorem leftClosed_of_isClosed (h : (fresh.play ms).isClosed) : LeftClosed ms := by
  have hclosed (after : List Move) : (fresh.play (ms ++ after)).isClosed := by
    rw [play_append]
    exact (grows_play (fresh.play ms) after).isClosed h
  constructor
  case closed => exact hclosed
  case table => exact fun after few => (invariant_play _ few).closed (hclosed after)
  case fails =>
    intro between call after hcall few result hmem
    rw [play_append, play_cons] at hmem
    have hdoomed := (invariant_play _ (few_of_longer few)).doomed_of_start (hclosed between) hcall
    exact (hdoomed.play after False.elim).finished hmem
  case ends =>
    intro between call after few kept steps
    rw [List.append_cons] at few ⊢
    have hinv := invariant_play _ (few_of_longer few)
    have hstarted := staged_or_finished_start (fresh.play (ms ++ between)) call
    have hclosed' := hclosed (between ++ [.start call])
    rw [← List.append_assoc] at hclosed'
    rw [play_append]
    rcases hstarted with ⟨s, hs⟩ | hdone
    · have hs' : (fresh.play (ms ++ between ++ [.start call])).stages[
          (fresh.play (ms ++ between)).nextCall]? = some s := by
        rw [play_concat]
        exact hs
      rw [requests_append] at few
      exact hinv.finished_of_steps hclosed' few hs' kept steps
    · obtain ⟨f, hf, hn⟩ := List.mem_map.mp hdone
      refine List.mem_map.mpr ⟨f, (grows_play _ after).finished.subset ?_, hn⟩
      rwa [play_concat]

/-! ## What a shutdown leaves behind -/

/-- A shutdown of an open connection that has come to its end leaves the connection closed for
good, and the server was told that it may exit unless the connection broke before. The one
exception is a server that refuses: the call then ends with the error. -/
theorem closed_of_shutdown {before mid : List Move} {result : Except CallError Reply}
    (few : (fresh.requests (before ++ .start .shutdown :: mid)).length < UInt64.size)
    (hopen : ¬ (fresh.play before).isClosed)
    (hresult : ((fresh.play before).nextCall, result) ∈
      (fresh.play (before ++ .start .shutdown :: mid)).finished) :
    let r := (fresh.play before).nextRequest .shutdown "shutdown"
    Refused (before ++ .start .shutdown :: mid) (fresh.play before).nextCall r result ∨
      LeftClosed (before ++ .start .shutdown :: mid) ∧
        Leaves (before ++ .start .shutdown :: mid) (fresh.play before).nextCall r result := by
  rw [List.append_cons] at few hresult ⊢
  have hinv := invariant_play _ (few_of_longer (few_of_longer few))
  have hplay : fresh.play (before ++ [.start .shutdown]) = (fresh.play before).start .shutdown :=
    play_concat _ _ _
  have hopen' : ¬ (fresh.play (before ++ [.start .shutdown])).isClosed := by
    rw [hplay, start_shutdown hopen]
    exact hopen
  have hbegun : (fresh.play before).nextCall <
      (fresh.play (before ++ [.start .shutdown])).nextCall := by
    rw [hplay, start_shutdown hopen]
    exact Nat.lt_succ_self _
  have hstands := stands_play hopen' hbegun rfl (stands_start hinv hopen) few
  exact (hstands.finished hresult).imp_right (And.imp_left leftClosed_of_isClosed)

/-- A request waits while the server acknowledges the shutdown. -/
theorem closed_of_shutdown_acknowledged :
    let before : List Move := [.start (.request "first" .null), .proceed 0, .proceed 0]
    let mid : List Move := [.proceed 1, .proceed 1, .hear (some (.response 2 (.ok .null))),
      .proceed 1, .proceed 1, .proceed 1, .proceed 1]
    let ms := before ++ .start .shutdown :: mid
    (fresh.requests ms).length < UInt64.size ∧ ¬ (fresh.play before).isClosed ∧
      (1, .ok .nothing) ∈ (fresh.play ms).finished ∧
      LeftClosed ms ∧ Leaves ms 1 ⟨2, 1, .shutdown, "shutdown", 0⟩ (.ok .nothing) := by
  intro before mid ms
  have few : (fresh.requests ms).length < UInt64.size :=
    Nat.lt_of_le_of_lt (length_requests_le fresh ms) (by decide)
  have hopen : ¬ (fresh.play before).isClosed := by decide
  have hresult : (1, .ok .nothing) ∈ (fresh.play ms).finished := List.mem_singleton.mpr rfl
  refine ⟨few, hopen, hresult, ?_⟩
  rcases closed_of_shutdown few hopen hresult with ⟨⟨e, -, hrefused⟩, -⟩ | hleft
  · cases hrefused
  · exact hleft

/-- A server that does not want to stop yet. -/
def refusedMoves : List Move :=
  [.start .shutdown, .proceed 0, .proceed 0,
    .hear (some (.response 1 (.error ⟨-32603, "not now", none⟩))), .proceed 0]

/-- After a refusal the connection is open, the server was not told that it may exit, and a
notification that is started then goes through. -/
theorem open_after_refusal :
    (fresh.play refusedMoves).finished = [(0, .error (.response (-32603) "not now"))] ∧
      (fresh.play refusedMoves).isClosed = false ∧
      (fresh.play refusedMoves).sent = [Wire.request 1 "shutdown" .null] ∧
      (fresh.play (refusedMoves ++ [.start (.notify "late" .null), .proceed 1,
        .proceed 1])).finished =
          [(0, .error (.response (-32603) "not now")), (1, .ok .nothing)] :=
  ⟨rfl, rfl, rfl, rfl⟩

end Connection

end SourceAtlas
