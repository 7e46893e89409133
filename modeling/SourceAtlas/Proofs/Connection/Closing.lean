import SourceAtlas.Proofs.Connection.Run
/-!
# A connection that is closed

On a closed connection a call that has not finished can only fail. `Lost` lists the
stages it can still be at, `Doomed.move` says that no move leads out of them, and
`Invariant.told_of_closing` that the move that closes a connection tells so every
request on the table.

It does fail, too: a call on a closed connection has at most four steps of its own
left (`finished_of_steps`).
-/

namespace SourceAtlas

namespace Stage

/-- How many steps of its own a call has left on a closed connection, at most. -/
def rank : Stage → Nat
  | .posting _ _ _ => 4
  | .waiting _ _ => 3
  | .notifying _ _ _ | .sending _ _ _ => 2
  | .enrolling _ _ | .leaving _ => 1

@[simp] theorem rank_tell (verdict : Verdict) (s : Stage) : (s.tell verdict).rank = s.rank := by
  match s with
  | .posting _ _ none | .waiting _ none => rfl
  | .posting _ _ (some _) | .waiting _ (some _) => rfl
  | .enrolling _ _ | .notifying _ _ _ | .sending _ _ _ | .leaving _ => rfl

end Stage

namespace Connection

/-- How things fail on a closed connection: with the reason it is closed for, or
because they were cancelled, where that may be. -/
def Fails (cancels : Prop) (result : Except CallError Reply) : Prop :=
  (∃ reason, result = .error (.transport reason)) ∨ result = .error .cancelled ∧ cancels

/-- The stages from which a call can only fail. A call that still listens for an answer
was told that there will be none. -/
def Lost (listens cancels : Prop) : Stage → Prop
  | .enrolling _ _ => True
  | .posting _ _ told | .waiting _ told =>
      listens ∧ ∃ reason, told = some (.error (.transport reason))
  | .notifying _ _ after => after = .cancelled → cancels
  | .sending _ _ _ => False
  | .leaving result => Fails cancels result

structure Doomed (n : Nat) (listens cancels : Prop) (c : Connection) : Prop where
  closed : c.isClosed
  begun : n < c.nextCall
  staged : ∀ {s}, c.stages[n]? = some s → Lost listens cancels s
  finished : ∀ {result}, (n, result) ∈ c.finished → Fails cancels result

variable {c c' : Connection} {rs : List Request} {heard : Nat → Option Answer} {n : Nat}
  {listens cancels : Prop}

theorem Lost.tell {s : Stage} (h : Lost listens cancels s) (verdict : Verdict) :
    s.tell verdict = s := by
  cases s with
  | posting _ _ told | waiting _ told =>
      obtain ⟨-, reason, rfl⟩ := h
      rfl
  | enrolling | notifying | sending | leaving => rfl

namespace Doomed

theorem spared (h : Doomed n listens cancels c) (grows : Grows c c') (spares : Spares n c c') :
    Doomed n listens cancels c' where
  closed := grows.isClosed h.closed
  begun := Nat.lt_of_lt_of_le h.begun grows.nextCall
  staged := by
    intro s hs
    rcases spares.stage with same | ⟨verdict, told⟩
    · exact h.staged (same ▸ hs)
    · rw [told, Option.map_eq_some_iff] at hs
      obtain ⟨s, hs, rfl⟩ := hs
      rw [(h.staged hs).tell]
      exact h.staged hs
  finished := fun hmem => h.finished (spares.finished hmem)

theorem assign (h : Doomed n listens cancels c) {s : Stage} (hs : Lost listens cancels s) :
    Doomed n listens cancels (c.assign n s) where
  closed := h.closed
  begun := h.begun
  staged := by
    intro s' hs'
    rw [stages_assign, if_pos rfl] at hs'
    exact Option.some.inj hs' ▸ hs
  finished := h.finished

theorem finish (h : Doomed n listens cancels c) {result : Except CallError Reply}
    (hresult : Fails cancels result) : Doomed n listens cancels (c.finish n result) where
  closed := h.closed
  begun := h.begun
  staged := by simp
  finished := by
    intro result' hmem
    simp only [Connection.finish, List.mem_append, List.mem_singleton, Prod.mk.injEq,
      true_and] at hmem
    rcases hmem with hmem | rfl
    · exact h.finished hmem
    · exact hresult

theorem close (h : Doomed n listens cancels c) (reason : String) :
    Doomed n listens cancels (c.close reason) := by
  have alone : Action none c (c.close reason) := .close c reason
  exact h.spared (.of_action alone) (.of_action alone nofun)

theorem conclude (h : Doomed n listens cancels c) {after : Aftermath}
    (hafter : after = .cancelled → cancels) (reason : String) :
    Doomed n listens cancels (c.conclude n after (.error (.transport reason))) := by
  cases after with
  | report => exact h.finish (.inl ⟨reason, rfl⟩)
  | cancelled => exact h.finish (.inr ⟨rfl, hafter rfl⟩)
  | close => exact h.assign (.inl ⟨reason, rfl⟩)

theorem perform (h : Doomed n listens cancels c) {s : Stage} (hs : Lost listens cancels s) :
    Doomed n listens cancels (c.perform n s) := by
  obtain ⟨reason, hreason⟩ := Option.isSome_iff_exists.mp h.closed
  cases s with
  | enrolling r params =>
      simp only [Connection.perform, hreason]
      exact h.finish (.inl ⟨reason, rfl⟩)
  | posting r params told =>
      rcases c.writeOrClose_cases (Wire.request r.id r.method params) with
        written | ⟨reason, fault, failed⟩
      · simp only [Connection.perform, written]
        have sent : Doomed n listens cancels
            { c with sent := c.sent ++ [Wire.request r.id r.method params] } :=
          ⟨h.closed, h.begun, h.staged, h.finished⟩
        exact sent.assign hs
      · simp only [Connection.perform, failed]
        exact (h.close reason).finish (.inl ⟨fault, rfl⟩)
  | waiting r told =>
      obtain ⟨-, told, rfl⟩ := hs
      exact h.finish (.inl ⟨told, rfl⟩)
  | notifying method params after =>
      simp only [Connection.perform, hreason]
      exact h.conclude hs reason
  | sending method params after => exact hs.elim
  | leaving result => exact (h.close shutDown).finish hs

/-- No move leads out of failing. -/
theorem move (h : Doomed n listens cancels c) (m : Move)
    (revoked : listens → n ∈ c.revoked → cancels) :
    Doomed n listens cancels (c.move m) := by
  by_cases hown : c.owner? m = some n
  case neg => exact h.spared (grows_move c m) (spares_move c hown)
  cases m with
  | start call => exact absurd (Option.some.inj hown) (Nat.ne_of_lt h.begun).symm
  | proceed k =>
      obtain rfl := Option.some.inj hown
      cases hs : c.stages[k]? with
      | none => simpa only [Connection.move, proceed, hs] using h
      | some s => simpa only [Connection.move, proceed, hs] using h.perform (h.staged hs)
  | withdraw k =>
      obtain rfl := Option.some.inj hown
      simp only [Connection.move, withdraw]
      split
      · next r told hs =>
          split
          · next hcancel =>
              have taken : Doomed k listens cancels { c with waiting := c.waiting.erase r.id } :=
                ⟨h.closed, h.begun, h.staged, h.finished⟩
              exact taken.assign fun _ => revoked (h.staged hs).1 hcancel.1
          · exact h
      · exact h
  | expire k =>
      obtain rfl := Option.some.inj hown
      simp only [Connection.move, expire]
      split
      · split
        · exact h.assign fun after => by cases after
        · exact h
      · exact h
  | abandon k =>
      obtain rfl := Option.some.inj hown
      exact ⟨h.closed, h.begun, by simp [Connection.move], h.finished⟩
  | revoke | hear | stop | keep | turn | elapse => cases hown

theorem play (ms : List Move) (h : Doomed n listens cancels c)
    (revoked : listens → n ∈ (c.play ms).revoked → cancels) :
    Doomed n listens cancels (c.play ms) := by
  induction ms generalizing c with
  | nil => exact h
  | cons m ms ih =>
      refine ih (h.move m fun hl hn => revoked hl ?_) revoked
      exact (grows_play c (m :: ms)).revoked hn

end Doomed

/-! ## The move that closes a connection -/

theorem isClosed_hear_response (c : Connection) (id : Nat) (a : Answer) :
    (c.hear (some (.response id a))).isClosed = c.isClosed := by
  simp only [hear, release]
  split
  · split <;> rfl
  · rfl

theorem isClosed_withdraw (c : Connection) (n : Nat) :
    (c.withdraw n).isClosed = c.isClosed := by
  unfold withdraw
  split
  · split <;> rfl
  · rfl

theorem isClosed_expire (c : Connection) (n : Nat) : (c.expire n).isClosed = c.isClosed := by
  unfold expire
  split
  · split <;> rfl
  · rfl

theorem proceed_of_stage {s : Stage} (hs : c.stages[n]? = some s) :
    c.proceed n = c.perform n s := by
  simp only [proceed, hs]

namespace Invariant

/-- A call whose request is on the table when the connection is closed is told so, or its
own request could not be written and it has failed already. -/
theorem told_of_closing (h : Invariant c rs heard) {m : Move}
    (few : (rs ++ (c.started? m).toList).length < UInt64.size) (hopen : ¬ c.isClosed)
    (hclosed : (c.move m).isClosed) {s : Stage} (hs : c.stages[n]? = some s)
    (hawaits : c.awaits n s) :
    ∃ reason, (c.move m).stages[n]? = some (s.tell (.error (.transport reason))) ∨
      (c.move m).stages[n]? = none ∧ (n, .error (.transport reason)) ∈ (c.move m).finished := by
  obtain ⟨hn, hfin, hacc⟩ := h.staged hs
  obtain ⟨r, hr, hcall, huntold⟩ := hacc.untold hawaits
  have after := h.move m few
  by_cases hown : c.owner? m = some n
  case neg =>
    -- the others have told it something, and not an answer
    have unheard : heard r.id = none := by
      rcases huntold with ⟨params, rfl⟩ | rfl <;> exact hacc.2.2.2
    have unanswered : c.answer? r.id m = none := by
      cases m with
      | hear message =>
          match message with
          | some (.response id a) =>
              exact absurd ((isClosed_hear_response c id a).symm.trans hclosed) hopen
          | some (.request _ _) | some (.notification _ _) | none => rfl
      | _ => rfl
    have empty := after.closed hclosed
    rcases (spares_move c hown).stage with same | ⟨verdict, told⟩
    · have hacc' := (after.staged (same.trans hs)).2.2
      rcases huntold with ⟨params, rfl⟩ | rfl <;> simp [Accounts, Told, empty] at hacc'
    · rw [hs, Option.map_some] at told
      have hacc' := (after.staged told).2.2
      rcases huntold with ⟨params, rfl⟩ | rfl <;>
        · obtain ⟨-, -, -, ⟨a, ha, -⟩ | ⟨-, reason, rfl⟩⟩ := hacc'
          · simp [unheard, unanswered] at ha
          · exact ⟨reason, .inl told⟩
  cases m with
  | proceed k =>
      obtain rfl := Option.some.inj hown
      have hclosed : (c.proceed k).isClosed := hclosed
      rw [proceed_of_stage hs] at hclosed
      rcases huntold with ⟨params, rfl⟩ | rfl
      · rcases c.writeOrClose_cases (Wire.request r.id r.method params) with
          written | ⟨reason, fault, failed⟩
        · simp only [Connection.perform, written] at hclosed
          exact absurd hclosed hopen
        · have failing : c.move (.proceed k) =
              (c.close reason).finish k (.error (.transport fault)) := by
            simp only [Connection.move, proceed_of_stage hs, Connection.perform, failed]
          rw [failing]
          exact ⟨fault, .inr ⟨by simp, by simp [Connection.finish]⟩⟩
      · exact absurd hclosed hopen
  | start call => exact absurd (Option.some.inj hown) (Nat.ne_of_lt hn).symm
  | withdraw k => exact absurd ((isClosed_withdraw c k).symm.trans hclosed) hopen
  | expire k => exact absurd ((isClosed_expire c k).symm.trans hclosed) hopen
  | abandon k => exact absurd hclosed hopen
  | revoke | hear | stop | keep | turn | elapse => cases hown

theorem doomed_of_closing (h : Invariant c rs heard) {m : Move}
    (few : (rs ++ (c.started? m).toList).length < UInt64.size) (hopen : ¬ c.isClosed)
    (hclosed : (c.move m).isClosed) {s : Stage} (hs : c.stages[n]? = some s)
    (hawaits : c.awaits n s) (cancels : Prop) : Doomed n True cancels (c.move m) := by
  obtain ⟨hn, hfin, hacc⟩ := h.staged hs
  obtain ⟨r, -, -, huntold⟩ := hacc.untold hawaits
  have begun := Nat.lt_of_lt_of_le hn (grows_move c m).nextCall
  have after := h.move m few
  obtain ⟨reason, told | ⟨gone, failed⟩⟩ := h.told_of_closing few hopen hclosed hs hawaits
  · refine ⟨hclosed, begun, fun hs' => ?_, fun hmem => ?_⟩
    · obtain rfl := Option.some.inj (told.symm.trans hs')
      rcases huntold with ⟨params, rfl⟩ | rfl <;> exact ⟨trivial, reason, rfl⟩
    · exact absurd (List.mem_map_of_mem hmem) (after.staged told).2.1
  · refine ⟨hclosed, begun, fun hs' => absurd (gone.symm.trans hs') nofun, fun hmem => ?_⟩
    have same := List.inj_on_of_nodup_map after.once hmem failed rfl
    exact .inl ⟨reason, (Prod.mk.inj same).2⟩

end Invariant

/-! ## No call is left hanging -/

/-- Whether a move is a step of a call. -/
def Move.isStepOf (n : Nat) : Move → Bool
  | .proceed k => k == n
  | _ => false

theorem conclude_rank (c : Connection) (n : Nat) (after : Aftermath)
    (outcome : Except CallError Unit) :
    n ∈ (c.conclude n after outcome).finished.map (·.1) ∨
      ∃ s', (c.conclude n after outcome).stages[n]? = some s' ∧ s'.rank = 1 := by
  cases after with
  | report | cancelled => exact .inl (by simp [conclude, finish])
  | close => exact .inr ⟨_, by rw [conclude, stages_assign, if_pos rfl], rfl⟩

namespace Invariant

/-- On a closed connection every step of a call takes it nearer to its end. -/
theorem perform_rank (h : Invariant c rs heard) (hclosed : c.isClosed) {s : Stage}
    (hs : c.stages[n]? = some s) :
    n ∈ (c.perform n s).finished.map (·.1) ∨
      ∃ s', (c.perform n s).stages[n]? = some s' ∧ s'.rank < s.rank := by
  obtain ⟨reason, hreason⟩ := Option.isSome_iff_exists.mp hclosed
  have ends (c : Connection) (result : Except CallError Reply) :
      n ∈ (c.finish n result).finished.map (·.1) := by simp [Connection.finish]
  cases s with
  | enrolling r params =>
      simp only [Connection.perform, hreason]
      exact .inl (ends _ _)
  | posting r params told =>
      rcases c.writeOrClose_cases (Wire.request r.id r.method params) with
        written | ⟨reason, fault, failed⟩
      · simp only [Connection.perform, written]
        exact .inr ⟨.waiting r told, by simp, by simp [Stage.rank]⟩
      · simp only [Connection.perform, failed]
        exact .inl (ends _ _)
  | waiting r told =>
      rcases told with _ | e | result
      · have htold := (h.staged hs).2.2
        simp [Accounts, Told, h.closed hclosed] at htold
      · exact .inl (ends _ _)
      · simp only [Connection.perform, Connection.resume]
        split
        case h_1 | h_2 => exact .inr ⟨_, by rw [stages_assign, if_pos rfl], by simp [Stage.rank]⟩
        all_goals exact .inl (ends _ _)
  | notifying method params after =>
      simp only [Connection.perform, hreason]
      refine (conclude_rank c n after _).imp id ?_
      rintro ⟨s', hs', hrank⟩
      exact ⟨s', hs', by rw [hrank]; exact Nat.one_lt_two⟩
  | sending method params after =>
      refine (conclude_rank _ n after _).imp id ?_
      rintro ⟨s', hs', hrank⟩
      exact ⟨s', hs', by rw [hrank]; exact Nat.one_lt_two⟩
  | leaving result => exact .inl (ends _ _)

/-- On a closed connection no move takes a call back, unless its caller drops it. -/
theorem move_rank (h : Invariant c rs heard) (hclosed : c.isClosed) {s : Stage}
    (hs : c.stages[n]? = some s) {m : Move} (kept : m ≠ .abandon n) :
    n ∈ (c.move m).finished.map (·.1) ∨
      ∃ s', (c.move m).stages[n]? = some s' ∧
        s'.rank + (if m.isStepOf n then 1 else 0) ≤ s.rank := by
  by_cases hown : c.owner? m = some n
  case neg =>
    have notStep : m.isStepOf n = false := by
      cases m with
      | proceed k => simpa [Move.isStepOf, owner?] using hown
      | _ => rfl
    refine .inr ?_
    rcases (spares_move c hown).stage with same | ⟨verdict, told⟩
    · exact ⟨s, same.trans hs, by simp [notStep]⟩
    · exact ⟨s.tell verdict, by rw [told, hs]; rfl, by simp [notStep]⟩
  cases m with
  | start call =>
      exact absurd (Option.some.inj hown) (Nat.ne_of_lt (h.staged hs).1).symm
  | proceed k =>
      obtain rfl := Option.some.inj hown
      have step : c.move (.proceed k) = c.perform k s := proceed_of_stage hs
      rw [step]
      refine (h.perform_rank hclosed hs).imp id ?_
      rintro ⟨s', hs', hrank⟩
      exact ⟨s', hs', by simpa [Move.isStepOf, Nat.succ_le_iff] using hrank⟩
  | withdraw k =>
      obtain rfl := Option.some.inj hown
      refine .inr ?_
      simp only [Connection.move, Connection.withdraw, hs]
      split
      · next r told heq =>
          obtain rfl := Option.some.inj heq
          split
          · exact ⟨_, by rw [stages_assign, if_pos rfl], by simp [Stage.rank, Move.isStepOf]⟩
          · exact ⟨_, hs, by simp [Move.isStepOf]⟩
      · exact ⟨s, hs, by simp [Move.isStepOf]⟩
  | expire k =>
      obtain rfl := Option.some.inj hown
      refine .inr ?_
      simp only [Connection.move, Connection.expire, hs]
      split
      · next hlate =>
          refine ⟨_, by rw [stages_assign, if_pos rfl], ?_⟩
          cases s with
          | posting | waiting => simp [Stage.rank, Move.isStepOf]
          | enrolling | notifying | sending | leaving => cases hlate
      · exact ⟨s, hs, by simp [Move.isStepOf]⟩
  | abandon k => exact absurd (congrArg Move.abandon (Option.some.inj hown)) kept
  | revoke | hear | stop | keep | turn | elapse => cases hown

theorem play_rank (ms : List Move) (h : Invariant c rs heard) (hclosed : c.isClosed)
    (few : (rs ++ c.requests ms).length < UInt64.size) {s : Stage}
    (hs : c.stages[n]? = some s) (kept : ∀ m ∈ ms, m ≠ .abandon n) :
    n ∈ (c.play ms).finished.map (·.1) ∨
      ∃ s', (c.play ms).stages[n]? = some s' ∧
        s'.rank + ms.countP (Move.isStepOf n) ≤ s.rank := by
  induction ms generalizing c rs heard s with
  | nil => exact .inr ⟨s, hs, by simp⟩
  | cons m ms ih =>
      rw [requests, ← List.append_assoc] at few
      have next := h.move m (by rw [List.length_append] at few; omega)
      rcases h.move_rank hclosed hs (kept m List.mem_cons_self) with done | ⟨s', hs', hrank⟩
      · obtain ⟨f, hf, hn⟩ := List.mem_map.mp done
        exact .inl (List.mem_map.mpr ⟨f, (grows_play (c.move m) ms).finished.subset hf, hn⟩)
      · have rest := ih next ((grows_move c m).isClosed hclosed) few hs'
          fun m' hm' => kept m' (List.mem_cons_of_mem m hm')
        refine rest.imp id ?_
        rintro ⟨s'', hs'', hrank'⟩
        refine ⟨s'', hs'', ?_⟩
        rw [List.countP_cons]
        omega

/-- On a closed connection four steps of its own are enough for any call. -/
theorem finished_of_steps (h : Invariant c rs heard) (hclosed : c.isClosed) {ms : List Move}
    (few : (rs ++ c.requests ms).length < UInt64.size) {s : Stage}
    (hs : c.stages[n]? = some s) (kept : ∀ m ∈ ms, m ≠ .abandon n)
    (steps : 4 ≤ ms.countP (Move.isStepOf n)) : n ∈ (c.play ms).finished.map (·.1) := by
  rcases h.play_rank ms hclosed few hs kept with done | ⟨s', -, hrank⟩
  · exact done
  · have low : 1 ≤ s'.rank := by cases s' <;> simp [Stage.rank]
    have high : s.rank ≤ 4 := by cases s <;> simp [Stage.rank]
    omega

end Invariant

end Connection

end SourceAtlas
