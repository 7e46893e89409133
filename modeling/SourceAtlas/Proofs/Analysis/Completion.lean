import SourceAtlas.Proofs.Analysis.Schedule
import SourceAtlas.Total
/-!
# Every analysis can be completed

A move other than a cancellation changes nothing or brings the end of the course nearer
(`nearer_of_move`), so a course goes on no longer than its calls do. And as long as it
has not ended some move makes a difference, whatever the server answers
(`exists_move`): no call waits for room that never comes, and none is left uncollected.
Together the two give that every course can be completed (`exists_ended`).
-/

namespace SourceAtlas

namespace Analysis

namespace Progress

variable {κ α : Type}

/-- How many steps a call still has before it. -/
def rest : Progress α → Nat
  | .idle => 3
  | .opening => 2
  | .asked => 1
  | .settled _ => 0

theorem launch_idle_ne (cancelled opens : Bool) :
    launch (α := α) cancelled opens .idle ≠ .idle := by
  cases cancelled <;> cases opens <;> nofun

/-- A change that leaves a call as it is or takes it on. -/
def Forward (f : Progress α → Progress α) : Prop :=
  ∀ p, f p = p ∨ (f p).rest < p.rest

theorem forward_launch (cancelled opens : Bool) : Forward (launch (α := α) cancelled opens) := by
  intro p
  cases p with
  | idle =>
      refine .inr ?_
      cases cancelled <;> cases opens <;> simp [launch, rest]
  | opening => exact .inl rfl
  | asked => exact .inl rfl
  | settled outcome => exact .inl rfl

theorem forward_opened (answer : Except CallError Unit) : Forward (opened (α := α) answer) := by
  intro p
  cases p with
  | idle => exact .inl rfl
  | opening =>
      refine .inr ?_
      cases answer <;> simp [opened, rest]
  | asked => exact .inl rfl
  | settled outcome => exact .inl rfl

theorem forward_answered (outcome : Except CallError α) : Forward (answered outcome) := by
  intro p
  cases p with
  | idle => exact .inl rfl
  | opening => exact .inl rfl
  | asked => exact .inr Nat.one_pos
  | settled outcome => exact .inl rfl

def remaining (calls : List (κ × Progress α)) : Nat :=
  total (fun call => call.2.rest) calls

theorem remaining_advance {f : Progress α → Progress α} (hf : Forward f)
    (calls : List (κ × Progress α)) (n : Nat) :
    advance calls n f = calls ∨ remaining (advance calls n f) < remaining calls := by
  induction calls generalizing n with
  | nil => exact .inl (by simp [advance])
  | cons call calls ih =>
      cases n with
      | zero =>
          rcases hf call.2 with same | less
          · exact .inl (by simp [advance, same])
          · exact .inr (by simpa [advance, remaining] using less)
      | succ n =>
          rcases ih n with same | less
          · exact .inl (by simpa [advance] using same)
          · exact .inr (by simpa [advance, remaining] using less)

theorem advance_ne {calls : List (κ × Progress α)} {n : Nat} {k : κ} {p : Progress α}
    {f : Progress α → Progress α} (h : calls[n]? = some (k, p)) (hf : f p ≠ p) :
    advance calls n f ≠ calls := by
  intro same
  have hn := getElem?_advance calls n n f
  rw [same, h, if_pos rfl] at hn
  exact hf (Prod.mk.inj (Option.some.inj hn)).2.symm

end Progress

/-- How many phases are still to come. -/
def Phase.rest : Phase → Nat
  | .ready => 5
  | .greeting => 4
  | .outlining => 3
  | .asking => 2
  | .recorded => 1
  | .ended _ => 0

/-- What a server answers: to the handshake, and about the file or the question of a
number. -/
structure Answers where
  greeted : Except CallError Unit
  opened : Nat → Except CallError Unit
  outlined : Nat → Except CallError (List Outline.Entry)
  answered : Nat → Resolve.Outcome

/-- Whether a move keeps to the answers of a server. Nobody cancels the run. -/
def Answers.allows (A : Answers) : Course.Move → Prop
  | .cancel => False
  | .greeted answer => answer = A.greeted
  | .opened n answer => answer = A.opened n
  | .outlined n outcome => outcome = A.outlined n
  | .answered n outcome => outcome = A.answered n
  | _ => True

namespace Course

variable {folder : Folder} {c c' : Course} {m : Move}

/-! ## The end comes nearer -/

/-- How many steps the calls still have before them, until all are collected. -/
def rest (c : Course) : Nat :=
  Progress.remaining c.outlines + (c.outlines.length - c.taken) +
    (Progress.remaining c.questions + (c.questions.length - c.arrived.length))

/-- A later phase, or the same phase with less of it left. -/
def Nearer (c' c : Course) : Prop :=
  Prod.Lex (· < ·) (· < ·) (c'.phase.rest, c'.rest) (c.phase.rest, c.rest)

theorem wellFounded_nearer : WellFounded Nearer :=
  InvImage.wf (fun c : Course => (c.phase.rest, c.rest))
    (WellFounded.prod_lex Nat.lt_wfRel.wf Nat.lt_wfRel.wf)

theorem Nearer.of_phase (h : c'.phase.rest < c.phase.rest) : Nearer c' c :=
  Prod.Lex.left _ _ h

theorem Nearer.of_rest (hphase : c'.phase = c.phase) (h : c'.rest < c.rest) : Nearer c' c :=
  Prod.lex_def.mpr (.inr ⟨congrArg Phase.rest hphase, h⟩)

theorem nearer_stop {e : Failure} (h : c.phase.rest ≠ 0) : Nearer (c.stop e) c :=
  .of_phase (Nat.pos_of_ne_zero h)

theorem nearer_outlines {n : Nat}
    {f : Progress (List Outline.Entry) → Progress (List Outline.Entry)}
    (hf : Progress.Forward f) :
    { c with outlines := Progress.advance c.outlines n f } = c ∨
      Nearer { c with outlines := Progress.advance c.outlines n f } c := by
  rcases Progress.remaining_advance hf c.outlines n with same | less
  · exact .inl (by rw [same])
  · refine .inr (.of_rest rfl ?_)
    simp only [rest, Progress.length_advance]
    omega

theorem nearer_questions {n : Nat}
    {f : Progress (List Location) → Progress (List Location)} (hf : Progress.Forward f) :
    { c with questions := Progress.advance c.questions n f } = c ∨
      Nearer { c with questions := Progress.advance c.questions n f } c := by
  rcases Progress.remaining_advance hf c.questions n with same | less
  · exact .inl (by rw [same])
  · refine .inr (.of_rest rfl ?_)
    simp only [rest, Progress.length_advance]
    omega

theorem nearer_of_step (h : Sound folder c) (s : Step c m c') (hm : m ≠ .cancel) :
    c' = c ∨ Nearer c' c := by
  cases s with
  | cancel => exact absurd rfl hm
  | refuse hphase => exact .inr (nearer_stop (by rw [hphase]; nofun))
  | greet hphase => exact .inr (.of_phase (by simp [hphase, Phase.rest]))
  | greeted hphase => exact .inr (.of_phase (by simp [hphase, Phase.rest]))
  | rebuff e hphase => exact .inr (nearer_stop (by rw [hphase]; nofun))
  | launch => exact nearer_outlines (Progress.forward_launch _ _)
  | opened => exact nearer_outlines (Progress.forward_opened _)
  | outlined => exact nearer_outlines (Progress.forward_answered _)
  | drop hphase => exact .inr (nearer_stop (by rw [hphase]; nofun))
  | take _ _ hnext _ =>
      have hlt : c.taken < c.outlines.length := (List.getElem?_eq_some_iff.mp hnext).1
      refine .inr (.of_rest rfl ?_)
      simp only [rest]
      omega
  | fail hphase => exact .inr (nearer_stop (by rw [hphase]; nofun))
  | leave hphase => exact .inr (nearer_stop (by rw [hphase]; nofun))
  | turn hphase => exact .inr (.of_phase (by simp [hphase, Phase.rest]))
  | ask => exact nearer_questions (Progress.forward_launch _ _)
  | answered => exact nearer_questions (Progress.forward_answered _)
  | join _ hsettled hnew =>
      have hle := (h.join hsettled hnew).length_arrived_le
      simp only [List.length_append, List.length_singleton] at hle
      refine .inr (.of_rest rfl ?_)
      simp only [rest, List.length_append, List.length_singleton]
      omega
  | sever hphase => exact .inr (.of_phase (by simp [hphase, stop, Phase.rest]))
  | record hphase => exact .inr (.of_phase (by simp [hphase, Phase.rest]))
  | discard hphase => exact .inr (.of_phase (by simp [hphase, stop, Phase.rest]))
  | withhold hphase => exact .inr (nearer_stop (by rw [hphase]; nofun))
  | conclude hphase => exact .inr (.of_phase (by simp [hphase, Phase.rest]))

/-- A move other than a cancellation changes nothing or brings the end nearer. -/
theorem nearer_of_move (h : Sound folder c) (hm : m ≠ .cancel) :
    c.move m = c ∨ Nearer (c.move m) c := by
  rcases move_cases c m with same | step
  · exact .inl same
  · exact nearer_of_step h step hm

/-! ## Something can be done -/

theorem Step.move_ne (s : Step c m c') (h : c' ≠ c) : c.move m ≠ c := by
  rwa [s.move_eq]

theorem ne_of_phase (h : c'.phase ≠ c.phase) : c' ≠ c :=
  fun same => h (congrArg Course.phase same)

theorem outlines_ne {n : Nat} {job : Extract.Job} {p : Progress (List Outline.Entry)}
    {f : Progress (List Outline.Entry) → Progress (List Outline.Entry)}
    (hn : c.outlines[n]? = some (job, p)) (hf : f p ≠ p) :
    { c with outlines := Progress.advance c.outlines n f } ≠ c :=
  fun same => Progress.advance_ne hn hf (congrArg Course.outlines same)

theorem questions_ne {n : Nat} {q : Resolve.Query} {p : Progress (List Location)}
    {f : Progress (List Location) → Progress (List Location)}
    (hn : c.questions[n]? = some (q, p)) (hf : f p ≠ p) :
    { c with questions := Progress.advance c.questions n f } ≠ c :=
  fun same => Progress.advance_ne hn hf (congrArg Course.questions same)

/-- The call about the next file can go on, or its outcome can be taken in. -/
theorem exists_move_of_outlining (A : Answers) (h : Sound folder c)
    (hphase : c.phase = .outlining) : ∃ m, A.allows m ∧ c.move m ≠ c := by
  have stopped (e : Failure) : c.stop e ≠ c := ne_of_phase (by rw [hphase]; nofun)
  cases hnext : c.outlines[c.taken]? with
  | none =>
      have hall : c.taken = c.outlines.length :=
        Nat.le_antisymm h.taken (List.getElem?_eq_none_iff.mp hnext)
      refine ⟨.turn, trivial, ?_⟩
      cases hc : c.cancelled with
      | true => exact (Step.leave hphase hall hc).move_ne (stopped _)
      | false => exact (Step.turn hphase hall hc).move_ne (ne_of_phase (by rw [hphase]; nofun))
  | some call =>
      obtain ⟨job, p⟩ := call
      cases p with
      | idle =>
          have hroom : c.taken < c.taken + c.limit := Nat.lt_add_of_pos_right h.limit
          exact ⟨.launch c.taken, trivial, (Step.launch _ hphase hroom).move_ne
            (outlines_ne hnext (Progress.launch_idle_ne _ _))⟩
      | opening =>
          refine ⟨.opened c.taken (A.opened c.taken), rfl,
            (Step.opened _ _ hphase).move_ne (outlines_ne hnext ?_)⟩
          cases A.opened c.taken <;> nofun
      | asked =>
          exact ⟨.outlined c.taken (A.outlined c.taken), rfl,
            (Step.outlined _ _ hphase).move_ne (outlines_ne hnext nofun)⟩
      | settled outcome =>
          refine ⟨.take, trivial, ?_⟩
          cases hc : c.cancelled with
          | true => exact (Step.drop hphase hc hnext).move_ne (stopped _)
          | false =>
              cases habsorb : Extract.absorb c.tree c.extracted job outcome with
              | error e => exact (Step.fail hphase hc hnext habsorb).move_ne (stopped e)
              | ok entered =>
                  refine (Step.take hphase hc hnext habsorb).move_ne fun same => ?_
                  exact Nat.succ_ne_self c.taken (congrArg Course.taken same)

/-- While there are questions with the server, one of them can be answered. Otherwise
there is room for those that were not asked. -/
theorem exists_move_of_asking (A : Answers) (h : Sound folder c) (hphase : c.phase = .asking) :
    ∃ m, A.allows m ∧ c.move m ≠ c := by
  by_cases hasked : ∃ q ∈ c.questions, q.2.isAsked = true
  · obtain ⟨⟨q, p⟩, hq, hp⟩ := hasked
    obtain ⟨n, hn⟩ := List.mem_iff_getElem?.mp hq
    cases p with
    | asked =>
        exact ⟨.answered n (A.answered n), rfl,
          (Step.answered _ _ hphase).move_ne (questions_ne hn nofun)⟩
    | idle | opening | settled => cases hp
  have hroom : c.inFlight < c.limit := by
    have hnone : c.inFlight = 0 :=
      List.countP_eq_zero.mpr fun q hq hp => hasked ⟨q, hq, hp⟩
    rw [hnone]
    exact h.limit
  by_cases hall : c.arrived.length = c.questions.length
  · refine ⟨.record, trivial, ?_⟩
    rcases hresolved : c.tree.resolveWith c.cancelled c.arrived with ⟨tree, e | report⟩
    · exact (Step.discard hphase hall hresolved).move_ne (ne_of_phase (by rw [hphase]; nofun))
    · exact (Step.record hphase hall hresolved).move_ne (ne_of_phase (by rw [hphase]; nofun))
  obtain ⟨n, hn, hnew⟩ : ∃ n ∈ List.range c.questions.length, n ∉ c.arrived.map (·.1) := by
    by_contra hcovered
    push Not at hcovered
    have hle := (List.nodup_range.subperm hcovered).length_le
    rw [List.length_range, List.length_map] at hle
    exact hall (Nat.le_antisymm h.length_arrived_le hle)
  obtain ⟨⟨q, p⟩, hq⟩ : ∃ q, c.questions[n]? = some q :=
    ⟨_, List.getElem?_eq_getElem (List.mem_range.mp hn)⟩
  cases p with
  | idle =>
      exact ⟨.ask n, trivial, (Step.ask n hphase (.inr hroom)).move_ne
        (questions_ne hq (Progress.launch_idle_ne _ _))⟩
  | opening => exact absurd rfl (h.unopened _ (List.mem_of_getElem? hq))
  | asked => exact absurd ⟨_, List.mem_of_getElem? hq, rfl⟩ hasked
  | settled outcome =>
      refine ⟨.join n, trivial, ?_⟩
      by_cases hbroken : Resolve.Broken outcome
      · obtain ⟨reason, rfl⟩ := hbroken
        exact (Step.sever hphase hq hnew).move_ne (ne_of_phase (by rw [hphase]; nofun))
      · refine (Step.join hphase hq hnew fun reason h => hbroken ⟨reason, h⟩).move_ne ?_
        exact fun same => by simpa using congrArg Course.arrived same

/-- Whatever the server answers, a course that has not ended can go on. -/
theorem exists_move (A : Answers) (h : Sound folder c) (hrun : ∀ result, c.phase ≠ .ended result) :
    ∃ m, A.allows m ∧ c.move m ≠ c := by
  have stopped (e : Failure) : c.stop e ≠ c := ne_of_phase (hrun (.error e)).symm
  cases hphase : c.phase with
  | ready =>
      refine ⟨.greet, trivial, ?_⟩
      cases hc : c.cancelled with
      | true => exact (Step.refuse hphase hc).move_ne (stopped _)
      | false => exact (Step.greet hphase hc).move_ne (ne_of_phase (by rw [hphase]; nofun))
  | greeting =>
      refine ⟨.greeted A.greeted, rfl, ?_⟩
      cases A.greeted with
      | error e => exact (Step.rebuff e hphase).move_ne (stopped _)
      | ok => exact (Step.greeted hphase).move_ne (ne_of_phase (by rw [hphase]; nofun))
  | outlining => exact exists_move_of_outlining A h hphase
  | asking => exact exists_move_of_asking A h hphase
  | recorded =>
      refine ⟨.conclude, trivial, ?_⟩
      cases hc : c.cancelled with
      | true => exact (Step.withhold hphase hc).move_ne (stopped _)
      | false => exact (Step.conclude hphase hc).move_ne (ne_of_phase (hrun _).symm)
  | ended result => exact absurd hphase (hrun result)

/-- Whatever the server answers, a course can be completed. -/
theorem exists_ended (A : Answers) (h : Sound folder c) :
    ∃ ms, (∀ m ∈ ms, A.allows m) ∧ ∃ result, (c.play ms).phase = .ended result := by
  induction c using wellFounded_nearer.induction with
  | _ c ih =>
      by_cases hrun : ∃ result, c.phase = .ended result
      · exact ⟨[], nofun, hrun⟩
      · obtain ⟨m, hm, hne⟩ := exists_move A h fun result hphase => hrun ⟨result, hphase⟩
        have hown : m ≠ .cancel := fun heq => by rwa [heq] at hm
        have hnearer := (nearer_of_move h hown).resolve_left hne
        obtain ⟨ms, hms, hended⟩ := ih _ hnearer (h.play [m])
        exact ⟨m :: ms, List.forall_mem_cons.mpr ⟨hm, hms⟩, hended⟩

end Course

end Analysis

end SourceAtlas
