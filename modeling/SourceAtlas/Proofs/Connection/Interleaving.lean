import SourceAtlas.Proofs.Connection.Closing
/-!
# Every interleaving on a connection is orderly

Callers, the reader, the server and the writer act on a connection in any order.
`Orderly` says what holds of a run all the same: which request gets which answer, and
what becomes of the others. `orderly_play` is about all lists of moves that start fewer
than 2^64 requests.
-/

namespace SourceAtlas

namespace Connection

structure Orderly (ms : List Move) : Prop where
  /-- All requests have different ids. -/
  ids : ((fresh.requests ms).map (·.id)).Nodup
  /-- Every request has a call of its own. -/
  calls : ((fresh.requests ms).map (·.call)).Nodup
  /-- A call comes to one result at most. -/
  once : ((fresh.play ms).finished.map (·.1)).Nodup
  /-- A request comes to what it was answered first, or fails as it may. -/
  outcome : ∀ r ∈ fresh.requests ms, ∀ result, (r.call, result) ∈ (fresh.play ms).finished →
    Outcome (fresh.play ms) r (fresh.firstAnswer? r.id ms) result
  /-- An answer makes no difference to a call whose request has another id. -/
  delivery : ∀ before id a after, ms = before ++ .hear (some (.response id a)) :: after →
    ∀ (n : Nat) (s : Stage), (fresh.play before).stages[n]? = some s →
      (∀ r, s.current? = some r → r.id ≠ id) →
      (fresh.play (before ++ [.hear (some (.response id a))])).stages[n]? = some s
  /-- Nothing waits on a closed connection. -/
  table : (fresh.play ms).isClosed → (fresh.play ms).waiting = ∅
  /-- A connection stays closed, for the same reason. -/
  reason : ∀ before after reason, ms = before ++ after →
    (fresh.play before).closed = some reason → (fresh.play ms).closed = some reason
  /-- When the connection is closed, everything on the table is told so at once, and can
  only fail from then on. -/
  closing : ∀ before m after, ms = before ++ m :: after →
    ¬ (fresh.play before).isClosed → (fresh.play (before ++ [m])).isClosed →
    ∀ (n : Nat) (s : Stage), (fresh.play before).stages[n]? = some s →
      (fresh.play before).awaits n s →
      (∃ reason,
        (fresh.play (before ++ [m])).stages[n]? = some (s.tell (.error (.transport reason))) ∨
          (n, .error (.transport reason)) ∈ (fresh.play (before ++ [m])).finished) ∧
      ∀ result, (n, result) ∈ (fresh.play ms).finished →
        Fails (n ∈ (fresh.play ms).revoked) result
  /-- What is started on a closed connection can only fail: with the reason it is closed
  for, or for a request because its token was cancelled before. -/
  later : ∀ before call after, ms = before ++ .start call :: after →
    (fresh.play before).isClosed → call ≠ .shutdown →
    ∀ result, ((fresh.play before).nextCall, result) ∈ (fresh.play ms).finished →
      Fails ((∃ purpose method params, call.errand = .ask purpose method params) ∧
        (fresh.play before).nextCall ∈ (fresh.play before).revoked) result
  /-- It does come to a result, once it took four steps of its own. -/
  ends : ∀ before after, ms = before ++ after → (fresh.play before).isClosed →
    ∀ (n : Nat) (s : Stage), (fresh.play before).stages[n]? = some s →
      (∀ m ∈ after, m ≠ .abandon n) →
      4 ≤ after.countP (Move.isStepOf n) → n ∈ (fresh.play ms).finished.map (·.1)

variable {c : Connection} {rs : List Request} {heard : Nat → Option Answer} {n : Nat}

theorem few_of_append {ms before after : List Move}
    (few : (fresh.requests ms).length < UInt64.size) (h : ms = before ++ after) :
    (fresh.requests before ++ (fresh.play before).requests after).length < UInt64.size := by
  rwa [h, requests_append] at few

namespace Invariant

/-- An answer is told to the call that has a request of its id, and to no other. -/
theorem stages_hear_response (h : Invariant c rs heard) {id : Nat} (a : Answer) {s : Stage}
    (hs : c.stages[n]? = some s) (other : ∀ r, s.current? = some r → r.id ≠ id) :
    (c.hear (some (.response id a))).stages[n]? = some s := by
  simp only [Connection.hear]
  split
  case isFalse => exact hs
  case isTrue =>
    cases hw : c.waiting[id]? with
    | none => rwa [release_of_none hw]
    | some k =>
        rw [stages_release hw]
        split
        case isFalse => exact hs
        case isTrue same =>
          obtain rfl := same
          rw [hs, Option.map_some, Option.some.injEq]
          obtain ⟨-, -, hacc⟩ := h.staged hs
          obtain ⟨r, hr, hid, hcall⟩ := h.table hw
          -- a call that has not done with its request would have this one
          cases hcurrent : s.current? with
          | some r' =>
              obtain ⟨hr', hcall'⟩ := hacc.current hcurrent
              rw [h.eq_of_call hr' hr (hcall'.trans hcall.symm)] at hcurrent
              exact absurd hid (other r hcurrent)
          | none =>
              cases s <;> first | rfl | cases hcurrent

theorem doomed_of_start (h : Invariant c rs heard) (hclosed : c.isClosed) {call : Call}
    (hcall : call ≠ .shutdown) :
    Doomed c.nextCall False
      ((∃ purpose method params, call.errand = .ask purpose method params) ∧
        c.nextCall ∈ c.revoked)
      (c.start call) := by
  generalize hcancels : ((∃ purpose method params, call.errand = .ask purpose method params) ∧
    c.nextCall ∈ c.revoked) = cancels
  have unstaged {s : Stage} (hs : c.stages[c.nextCall]? = some s) : False :=
    Nat.lt_irrefl _ (h.staged hs).1
  have unfinished {result : Except CallError Reply} (hmem : (c.nextCall, result) ∈ c.finished) :
      False := h.free (List.mem_map_of_mem hmem)
  have begun (nextId : Nat) : Doomed c.nextCall False cancels
      { c with nextCall := c.nextCall + 1, nextId } :=
    ⟨hclosed, Nat.lt_succ_self _, fun hs => (unstaged hs).elim, fun hmem => (unfinished hmem).elim⟩
  cases herrand : call.errand with
  | tell method params =>
      simp only [Connection.start, herrand]
      exact (begun c.nextId).assign fun after => by cases after
  | ask purpose method params =>
      have notShutdown : purpose ≠ .shutdown := by
        rintro rfl
        cases call with
        | shutdown => exact hcall rfl
        | _ => cases herrand
      simp only [Connection.start, herrand]
      split
      · next result hrefusal =>
          by_cases hrevoked : c.nextCall ∈ c.revoked
          · simp only [refusal?, if_neg notShutdown, if_pos hrevoked, Option.some.injEq] at hrefusal
            have allowed : cancels := hcancels ▸ ⟨⟨purpose, method, params, herrand⟩, hrevoked⟩
            exact (begun c.nextId).finish (.inr ⟨hrefusal.symm, allowed⟩)
          · simp [refusal?, notShutdown, hrevoked] at hrefusal
      · exact (begun _).assign trivial

end Invariant

/-- Whatever callers, the reader, the server and the writer do in whatever order: requests
have ids of their own, each comes to one result at most, which is the first answer it was
sent or a failure it has cause for, and once the connection is closed everything fails. -/
theorem orderly_play (ms : List Move) (few : (fresh.requests ms).length < UInt64.size) :
    Orderly ms := by
  have whole := invariant_play ms few
  have part {before after : List Move} (h : ms = before ++ after) :
      Invariant (fresh.play before) (fresh.requests before)
        fun id => fresh.firstAnswer? id before := by
    refine invariant_play before ?_
    have most := few_of_append few h
    rw [List.length_append] at most
    omega
  have one {before : List Move} {m : Move} {after : List Move} (h : ms = before ++ m :: after) :
      (fresh.requests before ++ ((fresh.play before).started? m).toList).length < UInt64.size := by
    have most := few_of_append few h
    rw [requests, ← List.append_assoc, List.length_append] at most
    omega
  have rest {before : List Move} {m : Move} {after : List Move} (h : ms = before ++ m :: after) :
      fresh.play ms = ((fresh.play before).move m).play after := by
    rw [h, play_append, play_cons]
  have next (before : List Move) (m : Move) :
      fresh.play (before ++ [m]) = (fresh.play before).move m := by
    rw [play_append, play_cons, play_nil]
  constructor
  case ids =>
    rw [whole.ids]
    exact List.nodup_range'
  case calls => exact whole.calls
  case once => exact whole.once
  case outcome => exact fun r hr result hmem => whole.outcome hmem r hr rfl
  case delivery =>
    intro before id a after h n s hs other
    rw [next]
    exact (part h).stages_hear_response a hs other
  case table => exact whole.closed
  case reason =>
    intro before after reason h hreason
    rw [h, play_append]
    exact (grows_play (fresh.play before) after).closed hreason
  case closing =>
    intro before m after h hopen hclosed n s hs hawaits
    rw [next] at hclosed ⊢
    obtain ⟨reason, told⟩ := (part h).told_of_closing (one h) hopen hclosed hs hawaits
    refine ⟨⟨reason, told.imp id And.right⟩, fun result hmem => ?_⟩
    have doomed := (part h).doomed_of_closing (one h) hopen hclosed hs hawaits
      (n ∈ (fresh.play ms).revoked)
    rw [rest h] at hmem doomed ⊢
    exact (doomed.play after fun _ => id).finished hmem
  case later =>
    intro before call after h hclosed hcall result hmem
    rw [rest h] at hmem
    exact (((part h).doomed_of_start hclosed hcall).play after False.elim).finished hmem
  case ends =>
    intro before after h hclosed n s hs kept steps
    have done := (part h).finished_of_steps hclosed (few_of_append few h) hs kept steps
    rwa [h, play_append]

/-- Four requests, answered in another order, one of them twice, one with an error and one with
what is no outline; a fifth is cancelled, a sixth waits when the stream ends, and a notification
comes too late. -/
def crossedMoves : List Move :=
  [.start (.request "first" .null), .start (.request "second" .null),
    .start (.outline "file:///a.c"), .start (.references "file:///a.c" ⟨3, 4⟩),
    .proceed 0, .proceed 0, .proceed 1, .proceed 1, .proceed 2, .proceed 2, .proceed 3, .proceed 3,
    .hear (some (.response 2 (.ok (.bool true)))),
    .hear (some (.response 1 (.error ⟨7, "refused", none⟩))),
    .hear (some (.response 2 (.ok .null))),
    .hear (some (.response 4 (.ok (.array [Location.toJson ⟨"file:///b.c", ⟨⟨1, 0⟩, ⟨1, 5⟩⟩⟩])))),
    .hear (some (.response 3 (.ok (.bool true)))),
    .proceed 1, .proceed 0, .proceed 3, .proceed 2,
    .start (.request "fifth" .null), .proceed 4, .proceed 4, .revoke 4, .withdraw 4,
    .proceed 4, .proceed 4, .start (.request "sixth" .null), .proceed 5, .proceed 5,
    .stop "the stream ended", .proceed 5, .start (.notify "last" .null), .proceed 6]

set_option maxRecDepth 2000 in
theorem orderly_play_crossedMoves :
    (fresh.requests crossedMoves).length < UInt64.size ∧ Orderly crossedMoves ∧
      (fresh.play crossedMoves).finished =
        [(1, .ok (.value (.bool true))), (0, .error (.response 7 "refused")),
          (3, .ok (.locations [⟨"file:///b.c", ⟨⟨1, 0⟩, ⟨1, 5⟩⟩⟩])),
          (2, .error (.decode "textDocument/documentSymbol" "unexpected shape")),
          (4, .error .cancelled), (5, .error (.transport "the stream ended")),
          (6, .error (.transport "the stream ended"))] := by
  have few : (fresh.requests crossedMoves).length < UInt64.size :=
    Nat.lt_of_le_of_lt (length_requests_le fresh crossedMoves) (by decide)
  exact ⟨few, orderly_play crossedMoves few, rfl⟩

end Connection

end SourceAtlas
