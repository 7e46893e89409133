import SourceAtlas.Proofs.Connection.Trace
import Mathlib.Logic.Relation
/-!
# What moves are made of

Every move is a few actions, and each action sets, ends or drops a call that the move
belongs to, takes a request off the table, closes the connection, or changes nothing
that a call depends on: `actions_move`. What all moves have in common is read off the
actions.

Nothing that happens takes back a result, a cancelled token or the reason the
connection was closed for: `grows_move`, `grows_play`. A call is moved by its own
moves only, and all that others do to it is to tell it something: `spares_move`.
-/

namespace SourceAtlas

namespace Connection

variable {c c' c'' : Connection} {n : Nat} {own : Option Nat}

/-- One action on a connection, taken for a call or for none. -/
inductive Action (own : Option Nat) : Connection → Connection → Prop where
  | assign (c : Connection) {n : Nat} (hn : own = some n) (s : Stage) : Action own c (c.assign n s)
  | finish (c : Connection) {n : Nat} (hn : own = some n) (result : Except CallError Reply) :
      Action own c (c.finish n result)
  | abandon (c : Connection) {n : Nat} (hn : own = some n) :
      Action own c { c with stages := c.stages.erase n }
  | release (c : Connection) (id : Nat) (verdict : Verdict) :
      Action own c (c.release id verdict)
  | close (c : Connection) (reason : String) : Action own c (c.close reason)
  | quiet {c c' : Connection} (revoked : c.revoked ⊆ c'.revoked) (clock : c.clock ≤ c'.clock)
      (nextCall : c.nextCall ≤ c'.nextCall) (closed : c'.closed = c.closed)
      (finished : c'.finished = c.finished) (stages : c'.stages = c.stages) : Action own c c'

abbrev Actions (own : Option Nat) : Connection → Connection → Prop :=
  Relation.ReflTransGen (Action own)

/-- The call that a move belongs to. -/
def owner? (c : Connection) : Move → Option Nat
  | .start _ => some c.nextCall
  | .proceed n | .withdraw n | .expire n | .abandon n => some n
  | .revoke _ | .hear _ | .stop _ | .keep _ | .turn _ | .elapse _ => none

namespace Actions

/-- An action that changes the table, the stream or what was sent, and no more. -/
theorem aside (revoked : c'.revoked = c.revoked) (clock : c'.clock = c.clock)
    (nextCall : c'.nextCall = c.nextCall) (closed : c'.closed = c.closed)
    (finished : c'.finished = c.finished) (stages : c'.stages = c.stages) :
    Actions own c c' :=
  .single (.quiet (revoked ▸ List.Subset.refl _) (Nat.le_of_eq clock.symm)
    (Nat.le_of_eq nextCall.symm) closed finished stages)

theorem stop (c : Connection) (reason : String) : Actions own c (c.stop reason) := by
  unfold Connection.stop
  split
  · have quiet : Actions own c { c with reading := false, unread := [] } :=
      aside rfl rfl rfl rfl rfl rfl
    exact quiet.tail (.close _ reason)
  · exact .refl

theorem hear (c : Connection) (message : Option Message) :
    Actions own c (c.hear message) := by
  simp only [Connection.hear]
  split
  · split
    · exact .single (.release c _ _)
    · cases hfault : c.fault with
      | none =>
          simp only [write, hfault]
          exact aside rfl rfl rfl rfl rfl rfl
      | some fault =>
          simp only [write, hfault]
          exact stop c _
    all_goals exact .refl
  · exact .refl

/-- A message of our own is sent, or the connection is closed. -/
theorem writeOrClose (c : Connection) (message : Json) :
    Actions own c (c.writeOrClose message).1 := by
  rcases c.writeOrClose_cases message with written | ⟨reason, fault, failed⟩
  · rw [written]
    exact aside rfl rfl rfl rfl rfl rfl
  · rw [failed]
    exact .single (.close c reason)

theorem conclude (c : Connection) (hn : own = some n) (after : Aftermath)
    (outcome : Except CallError Unit) : Actions own c (c.conclude n after outcome) := by
  cases after with
  | report | cancelled => exact .single (.finish c hn _)
  | close => exact .single (.assign c hn _)

theorem enrol (c : Connection) (hn : own = some n) (r : Request) (params : Json) :
    Actions own c (c.enrol n r params) := by
  have entered : Actions own (c.release r.id (.error dropped))
      { c.release r.id (.error dropped) with
        waiting := (c.release r.id (.error dropped)).waiting.insert r.id n } :=
    aside rfl rfl rfl rfl rfl rfl
  exact (Relation.ReflTransGen.single (.release c r.id (.error dropped))).trans
    (entered.tail (.assign _ hn _))

theorem resume (c : Connection) (r : Request) (hn : own = some n) (result : Json) :
    Actions own c (c.resume r n result) := by
  unfold Connection.resume
  split
  · exact .single (.assign c hn _)
  · exact .single (.assign c hn _)
  all_goals exact .single (.finish c hn _)

theorem perform (c : Connection) (hn : own = some n) (s : Stage) :
    Actions own c (c.perform n s) := by
  cases s with
  | enrolling r params =>
      simp only [Connection.perform]
      split
      · exact .single (.finish c hn _)
      · exact enrol c hn r params
  | posting r params told =>
      have sent : Actions own c (c.writeOrClose (Wire.request r.id r.method params)).1 :=
        writeOrClose c _
      simp only [Connection.perform]
      split
      · next c' e heq => rw [heq] at sent; exact sent.tail (.finish c' hn _)
      · next c' heq => rw [heq] at sent; exact sent.tail (.assign c' hn _)
  | waiting r told =>
      match told with
      | none => exact .refl
      | some (.error e) => exact .single (.finish c hn _)
      | some (.ok result) => exact resume c r hn result
  | notifying method params after =>
      simp only [Connection.perform]
      split
      · exact conclude c hn after _
      · exact .single (.assign c hn _)
  | sending method params after =>
      exact (writeOrClose c (Wire.notification method params)).trans (conclude _ hn after _)
  | leaving result => exact (Relation.ReflTransGen.single (.close c shutDown)).tail (.finish _ hn result)

theorem start (c : Connection) (hn : own = some c.nextCall) (call : Call) :
    Actions own c (c.start call) := by
  have begun : Actions own c { c with nextCall := c.nextCall + 1 } :=
    .single (.quiet (List.Subset.refl _) (Nat.le_refl _) (Nat.le_succ _) rfl rfl rfl)
  have drawn : Actions own c
      { c with nextCall := c.nextCall + 1, nextId := (c.nextId + 1) % UInt64.size } :=
    .single (.quiet (List.Subset.refl _) (Nat.le_refl _) (Nat.le_succ _) rfl rfl rfl)
  simp only [Connection.start]
  split
  · exact begun.tail (.assign _ hn _)
  · split
    · exact begun.tail (.finish _ hn _)
    · exact drawn.tail (.assign _ hn _)

theorem withdraw (c : Connection) (hn : own = some n) : Actions own c (c.withdraw n) := by
  unfold Connection.withdraw
  split
  · next r _ _ =>
      have taken : Actions own c { c with waiting := c.waiting.erase r.id } :=
        aside rfl rfl rfl rfl rfl rfl
      split
      · exact taken.tail (.assign _ hn _)
      · exact .refl
  · exact .refl

theorem expire (c : Connection) (hn : own = some n) : Actions own c (c.expire n) := by
  unfold Connection.expire
  split
  · split
    · exact .single (.assign c hn _)
    · exact .refl
  · exact .refl

end Actions

theorem actions_move (c : Connection) (m : Move) :
    Actions (c.owner? m) c (c.move m) := by
  cases m with
  | start call => exact Actions.start c rfl call
  | proceed n =>
      simp only [move, proceed]
      split
      · exact .refl
      · exact Actions.perform c rfl _
  | withdraw n => exact Actions.withdraw c rfl
  | expire n => exact Actions.expire c rfl
  | abandon n => exact .single (.abandon c rfl)
  | hear message => exact Actions.hear c message
  | stop reason => exact Actions.stop c reason
  | revoke n =>
      exact .single (.quiet (List.subset_cons_self n _) (Nat.le_refl _) (Nat.le_refl _)
        rfl rfl rfl)
  | elapse seconds =>
      exact .single (.quiet (List.Subset.refl _) (Nat.le_add_right _ seconds) (Nat.le_refl _)
        rfl rfl rfl)
  | keep octets | turn fault => exact Actions.aside rfl rfl rfl rfl rfl rfl

/-! ## What is for good -/

structure Grows (c c' : Connection) : Prop where
  revoked : c.revoked ⊆ c'.revoked
  clock : c.clock ≤ c'.clock
  nextCall : c.nextCall ≤ c'.nextCall
  closed : ∀ {reason}, c.closed = some reason → c'.closed = some reason
  finished : c.finished <+: c'.finished

namespace Grows

theorem refl (c : Connection) : Grows c c :=
  ⟨List.Subset.refl _, Nat.le_refl _, Nat.le_refl _, id, List.prefix_refl _⟩

theorem trans (h : Grows c c') (h' : Grows c' c'') : Grows c c'' where
  revoked := List.Subset.trans h.revoked h'.revoked
  clock := Nat.le_trans h.clock h'.clock
  nextCall := Nat.le_trans h.nextCall h'.nextCall
  closed := fun hc => h'.closed (h.closed hc)
  finished := List.IsPrefix.trans h.finished h'.finished

theorem isClosed (h : Grows c c') (hc : c.isClosed) : c'.isClosed := by
  obtain ⟨reason, hr⟩ := Option.isSome_iff_exists.mp hc
  rw [Connection.isClosed, h.closed hr]
  rfl

theorem of_eq (revoked : c'.revoked = c.revoked) (clock : c'.clock = c.clock)
    (nextCall : c'.nextCall = c.nextCall) (closed : c'.closed = c.closed)
    (finished : c'.finished = c.finished) : Grows c c' where
  revoked := revoked ▸ List.Subset.refl _
  clock := Nat.le_of_eq clock.symm
  nextCall := Nat.le_of_eq nextCall.symm
  closed := fun hc => closed.trans hc
  finished := finished ▸ List.prefix_refl _

theorem count (c : Connection) (nextId : Nat) :
    Grows c { c with nextCall := c.nextCall + 1, nextId := nextId } :=
  ⟨List.Subset.refl _, Nat.le_refl _, Nat.le_succ _, id, List.prefix_refl _⟩

theorem finish (c : Connection) (n : Nat) (result : Except CallError Reply) :
    Grows c (c.finish n result) :=
  ⟨List.Subset.refl _, Nat.le_refl _, Nat.le_refl _, id, List.prefix_append _ _⟩

theorem close (c : Connection) (reason : String) : Grows c (c.close reason) where
  revoked := List.Subset.refl _
  clock := Nat.le_refl _
  nextCall := Nat.le_refl _
  closed := fun hc => by simp [Connection.close, hc]
  finished := List.prefix_refl _

theorem of_action (h : Action own c c') : Grows c c' := by
  cases h with
  | assign | abandon => exact .of_eq rfl rfl rfl rfl rfl
  | finish hn result => exact .finish c _ result
  | release _ verdict =>
      unfold release
      split
      · exact .refl c
      · exact .of_eq rfl rfl rfl rfl rfl
  | close reason => exact .close c reason
  | quiet revoked clock nextCall closed finished stages =>
      exact ⟨revoked, clock, nextCall, fun hc => closed.trans hc, finished ▸ List.prefix_refl _⟩

theorem of_actions (h : Actions own c c') : Grows c c' := by
  induction h with
  | refl => exact .refl c
  | tail _ last ih => exact ih.trans (.of_action last)

end Grows

theorem grows_move (c : Connection) (m : Move) : Grows c (c.move m) :=
  .of_actions (actions_move c m)

theorem grows_play (c : Connection) (ms : List Move) : Grows c (c.play ms) := by
  induction ms generalizing c with
  | nil => exact .refl c
  | cons m ms ih => exact (grows_move c m).trans (ih (c.move m))

/-! ## What others do to a call -/

/-- A call goes neither on nor back and gets no result; it may be told something. -/
structure Spares (n : Nat) (c c' : Connection) : Prop where
  finished : ∀ {result}, (n, result) ∈ c'.finished → (n, result) ∈ c.finished
  stage : c'.stages[n]? = c.stages[n]? ∨
    ∃ verdict, c'.stages[n]? = (c.stages[n]?).map (Stage.tell verdict)

namespace Spares

theorem trans (h : Spares n c c') (h' : Spares n c' c'') : Spares n c c'' where
  finished := fun hmem => h.finished (h'.finished hmem)
  stage := by
    rcases h.stage with same | ⟨verdict, told⟩ <;> rcases h'.stage with same' | ⟨later, told'⟩
    · exact .inl (same'.trans same)
    · exact .inr ⟨later, by rw [told', same]⟩
    · exact .inr ⟨verdict, by rw [same', told]⟩
    · refine .inr ⟨verdict, ?_⟩
      rw [told', told, Option.map_map]
      congr 1
      funext s
      exact Stage.tell_tell verdict later s

theorem of_action (h : Action own c c') (hn : own ≠ some n) : Spares n c c' := by
  cases h with
  | assign hk s =>
      next k =>
      have other : k ≠ n := by rintro rfl; exact hn hk
      exact ⟨id, .inl (by simp [other])⟩
  | abandon hk =>
      next k =>
      have other : k ≠ n := by rintro rfl; exact hn hk
      exact ⟨id, .inl (by simp [Std.ExtTreeMap.getElem?_erase, other])⟩
  | finish hk result =>
      next k =>
      have other : k ≠ n := by rintro rfl; exact hn hk
      refine ⟨fun hmem => ?_, .inl (by simp [other])⟩
      simpa [finish, other.symm] using hmem
  | release id verdict =>
      cases hw : c.waiting[id]? with
      | none =>
          rw [release_of_none hw]
          exact ⟨fun hmem => hmem, .inl rfl⟩
      | some k =>
          refine ⟨fun hmem => by simpa [release, hw] using hmem, ?_⟩
          rw [stages_release hw]
          by_cases same : k = n
          · exact .inr ⟨verdict, by rw [if_pos same, same]⟩
          · exact .inl (if_neg same)
  | close reason =>
      refine ⟨id, ?_⟩
      rw [stages_close]
      cases hs : c.stages[n]? with
      | none => exact .inl rfl
      | some s =>
          cases hawaits : c.awaits n s with
          | true => exact .inr ⟨.error (.transport reason), by simp [hawaits]⟩
          | false => exact .inl (by simp [hawaits])
  | quiet revoked clock nextCall closed finished stages =>
      exact ⟨fun hmem => finished ▸ hmem, .inl (by rw [stages])⟩

theorem of_actions (h : Actions own c c') (hn : own ≠ some n) : Spares n c c' := by
  induction h with
  | refl => exact ⟨id, .inl rfl⟩
  | tail _ last ih => exact ih.trans (.of_action last hn)

end Spares

theorem spares_move (c : Connection) {m : Move} (hn : c.owner? m ≠ some n) :
    Spares n c (c.move m) :=
  .of_actions (actions_move c m) hn

end Connection

end SourceAtlas
