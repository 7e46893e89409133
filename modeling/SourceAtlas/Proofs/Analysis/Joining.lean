import SourceAtlas.Proofs.Analysis.Following
/-!
# Outcomes in any order

The outcomes of the questions about a tree are collected as they arrive, and no order of
arrival tells them apart: if one of them says that the connection is broken, all orders fail
(`gather_of_broken`), and otherwise all orders give the same answers (`gather_eq_ok`), so the
same dependencies are recorded.

`Joining` says how far a course is that asks these questions, and every schedule keeps to it
(`Joining.play`).
-/

namespace SourceAtlas

namespace Resolve

variable {t : Tree} {outcomes : List Outcome} {arrivals : List (Nat × Outcome)}

/-! ## What is recorded -/

/-- Without broken connection the outcomes may as well arrive in the order of the queries. -/
theorem resolveWith_of_perm (hlength : outcomes.length = (queries t).length)
    (hbroken : ∀ o ∈ outcomes, ¬ Broken o) (harrivals : arrivals.Perm (numbered outcomes)) :
    t.resolveWith false arrivals = t.resolveWith false (numbered outcomes) := by
  rw [Tree.resolveWith, Tree.resolveWith, ← hlength, gather_eq_ok hbroken harrivals,
    gather_eq_ok hbroken (.refl _)]

theorem exists_resolveWith_eq_ok (hlength : outcomes.length = (queries t).length)
    (hbroken : ∀ o ∈ outcomes, ¬ Broken o) :
    ∃ t' report, t.resolveWith false (numbered outcomes) = (t', .ok report) := by
  have hgather := gather_eq_ok hbroken (.refl _)
  rw [hlength] at hgather
  simp only [Tree.resolveWith, hgather]
  exact ⟨_, _, rfl⟩

end Resolve

namespace Analysis

open Resolve

namespace Course

variable {A : Answers} {folder : Folder} {t : Tree} {c c' : Course} {m : Move}

/-- A course has just begun to ask the questions about a tree. -/
structure Asks (folder : Folder) (t : Tree) (c : Course) : Prop where
  sound : Sound folder c
  phase : c.phase = .asking
  running : c.cancelled = false
  tree : c.tree = t
  idle : ∀ q ∈ c.questions, q.2 = .idle

/-- Once all files are taken in, a course that was not cancelled can begin to ask. -/
theorem asks_turn (hsound : Sound folder c) (hphase : c.phase = .outlining)
    (hall : c.taken = c.outlines.length) (hrunning : c.cancelled = false) :
    Asks folder c.tree (c.move .turn) := by
  rw [(Step.turn hphase hall hrunning).move_eq]
  exact ⟨hsound.turn hphase hall, rfl, hrunning, rfl, by simp⟩

/-- The outcomes of the questions about a tree are being collected as a server answers. So far
none of them says that the connection is broken. -/
structure Collecting (A : Answers) (t : Tree) (c : Course) : Prop where
  phase : c.phase = .asking
  running : c.cancelled = false
  tree : c.tree = t
  settled : ∀ n q o, c.questions[n]? = some (q, .settled o) → o = A.answered n
  whole : ∀ a ∈ c.arrived, ¬ Broken a.2

namespace Collecting

theorem of_asks (h : Asks folder t c) (A : Answers) : Collecting A t c := by
  have unsettled {n : Nat} {q : Query} {o : Outcome} :
      c.questions[n]? ≠ some (q, .settled o) := by
    intro hn
    cases h.idle _ (List.mem_of_getElem? hn)
  refine ⟨h.phase, h.running, h.tree, fun n q o hn => absurd hn unsettled, ?_⟩
  rintro ⟨n, o⟩ ho
  obtain ⟨q, hq⟩ := h.sound.settled ho
  exact absurd hq unsettled

/-- Questions go on as the server answers. -/
theorem advance (h : Collecting A t c) (n : Nat)
    {f : Progress (List Location) → Progress (List Location)}
    (hf : ∀ p o, f p = .settled o → p = .settled o ∨ o = A.answered n) :
    Collecting A t { c with questions := Progress.advance c.questions n f } where
  phase := h.phase
  running := h.running
  tree := h.tree
  settled := Answers.settled_advance h.settled hf
  whole := h.whole

theorem join (h : Collecting A t c) (n : Nat) {o : Outcome} (ho : ¬ Broken o) :
    Collecting A t { c with arrived := c.arrived ++ [(n, o)] } where
  phase := h.phase
  running := h.running
  tree := h.tree
  settled := h.settled
  whole := by
    intro a ha
    rcases List.mem_append.mp ha with ha | ha
    · exact h.whole a ha
    · rwa [List.mem_singleton.mp ha]

/-- A settled question has one of the outcomes that are expected. -/
theorem mem_uses (hsound : Sound folder c) (h : Collecting A t c) {n : Nat} {q : Query}
    {o : Outcome} (hn : c.questions[n]? = some (q, .settled o)) : o ∈ A.uses t := by
  have hlt : n < (queries t).length := by
    rw [← h.tree, ← (hsound.queries h.phase).2, List.length_map]
    exact (List.getElem?_eq_some_iff.mp hn).1
  rw [h.settled n q o hn]
  exact List.mem_map_of_mem (List.mem_range.mpr hlt)

/-- Once all outcomes are collected they are recorded as if they had arrived in the order of the
questions. -/
theorem resolveWith_arrived (hsound : Sound folder c) (h : Collecting A t c)
    (hall : c.arrived.length = c.questions.length) :
    c.tree.resolveWith c.cancelled c.arrived = t.resolveWith false (numbered (A.uses t)) ∧
      ∃ t' report, t.resolveWith false (numbered (A.uses t)) = (t', .ok report) := by
  obtain rfl := h.tree
  have harrivals := perm_arrived hsound h.settled h.phase hall
  have hbroken : ∀ o ∈ A.uses c.tree, ¬ Broken o := by
    intro o ho
    obtain ⟨n, hn⟩ := (mem_of_perm_numbered harrivals).mp ho
    exact h.whole _ hn
  have hlength : (A.uses c.tree).length = (queries c.tree).length := by simp [Answers.uses]
  rw [h.running]
  exact ⟨resolveWith_of_perm hlength hbroken harrivals, exists_resolveWith_eq_ok hlength hbroken⟩

end Collecting

/-- How far a course is that asks the questions about a tree, whose moves keep to the answers
of a server. Outcomes are being collected, or one of them has ended it, or all are recorded as
if they had arrived in the order of the questions. -/
inductive Joining (A : Answers) (t : Tree) (c : Course) : Prop where
  | collecting : Collecting A t c → Joining A t c
  | severed {reason : String} : .error (.transport reason) ∈ A.uses t →
      c.phase = .ended (.error (.transport reason)) → c.tree = t → Joining A t c
  | recorded {report : Report} : c.phase.isEarly = false → c.resolved = some report →
      t.resolveWith false (numbered (A.uses t)) = (c.tree, .ok report) → Joining A t c

namespace Joining

theorem step (hsound : Sound folder c) (h : Joining A t c) (hm : A.allows m) (s : Step c m c') :
    Joining A t c' := by
  cases h with
  | collecting h =>
      have other {p : Phase} {P : Prop} (hp : c.phase = p) (hne : p ≠ .asking) : P :=
        absurd (hp.symm.trans h.phase) hne
      cases s with
      | cancel => exact hm.elim
      | ask n =>
          refine .collecting (h.advance n fun p o hp => .inl ?_)
          rw [h.running] at hp
          exact Progress.eq_settled_of_launch hp
      | answered n outcome =>
          obtain rfl : outcome = A.answered n := hm
          exact .collecting (h.advance n fun p o => Progress.eq_settled_of_answered)
      | @join n _ _ _ _ _ hbroken =>
          exact .collecting (h.join n fun ⟨reason, hreason⟩ => hbroken reason hreason)
      | sever _ hn => exact .severed (h.mem_uses hsound hn) rfl h.tree
      | record _ hall hresolved =>
          exact .recorded rfl rfl ((h.resolveWith_arrived hsound hall).1 ▸ hresolved)
      | discard _ hall hresolved =>
          obtain ⟨heq, t', report, hok⟩ := h.resolveWith_arrived hsound hall
          rw [heq, hok] at hresolved
          cases hresolved
      | refuse hp | greet hp | greeted hp | rebuff _ hp | launch _ hp | opened _ _ hp
      | outlined _ _ hp | drop hp | take hp | fail hp | leave hp | turn hp | withhold hp
      | conclude hp => exact other hp nofun
  | severed hmem hphase htree =>
      have ended {p : Phase} {P : Prop} (hp : c.phase = p)
          (hne : p ≠ .ended (.error (.transport _))) : P :=
        absurd (hp.symm.trans hphase) hne
      cases s with
      | cancel => exact hm.elim
      | refuse hp | greet hp | greeted hp | rebuff _ hp | launch _ hp | opened _ _ hp
      | outlined _ _ hp | drop hp | take hp | fail hp | leave hp | turn hp | ask _ hp
      | answered _ _ hp | join hp | sever hp | record hp | discard hp | withhold hp
      | conclude hp => exact ended hp nofun
  | recorded hlate hresolved hrecorded =>
      have late {p : Phase} {P : Prop} (hp : c.phase = p) (hearly : p.isEarly = true) : P := by
        rw [hp, hearly] at hlate
        cases hlate
      cases s with
      | cancel => exact hm.elim
      | withhold | conclude => exact .recorded rfl hresolved hrecorded
      | refuse hp | greet hp | greeted hp | rebuff _ hp | launch _ hp | opened _ _ hp
      | outlined _ _ hp | drop hp | take hp | fail hp | leave hp | turn hp | ask _ hp
      | answered _ _ hp | join hp | sever hp | record hp | discard hp => exact late hp rfl

theorem play (hsound : Sound folder c) (h : Joining A t c) {ms : List Move}
    (hms : ∀ m ∈ ms, A.allows m) : Joining A t (c.play ms) := by
  induction ms generalizing c with
  | nil => exact h
  | cons m ms ih =>
      obtain ⟨hm, hms⟩ := List.forall_mem_cons.mp hms
      rw [play_cons]
      rcases move_cases c m with same | s
      · rw [same]
        exact ih hsound h hms
      · exact ih (hsound.step s) (h.step hsound hm s) hms

end Joining

/-- A course some moves after it began to ask the questions about a tree, to which a server
gives these outcomes. -/
def AsksWith (outcomes : List Outcome) (t : Tree) (c : Course) : Prop :=
  ∃ (folder : Folder) (before : Course) (A : Answers) (ms : List Move), Asks folder t before ∧
    A.uses t = outcomes ∧ (∀ m ∈ ms, A.allows m) ∧ before.play ms = c

theorem AsksWith.joining {outcomes : List Outcome} (h : AsksWith outcomes t c) :
    ∃ A : Answers, A.uses t = outcomes ∧ Joining A t c := by
  obtain ⟨folder, before, A, ms, hasks, houtcomes, hms, rfl⟩ := h
  exact ⟨A, houtcomes, .play hasks.sound (.collecting (.of_asks hasks A)) hms⟩

end Course

/-! ## Main statement -/

/-- The order in which the outcomes of queries arrive leaves no trace. If none of them says that
the connection is broken, every query has its answer, or no answer where it failed, and with
that the same tree and the same report come of it. Otherwise the queries fail as the connection
is broken, and the tree is left as it was. This holds of outcomes that arrive in any order, and
of a course that asks the queries and collects their outcomes by any schedule. -/
theorem outcomes_arrive_in_any_order (qs : List Query) (outcomes : List Outcome)
    (hlength : outcomes.length = qs.length) :
    ((∀ o ∈ outcomes, ¬ Broken o) →
      (∃ answers : Array (Option (List Location)), answers.size = qs.length ∧
        (∀ (n : Nat) (locations : List Location), outcomes[n]? = some (.ok locations) →
          answers[n]? = some (some locations)) ∧
        (∀ (n : Nat) (e : CallError), outcomes[n]? = some (.error e) → answers[n]? = some none) ∧
        ∀ arrivals, arrivals.Perm (numbered outcomes) →
          gather qs.length false arrivals = .ok answers) ∧
      ∀ t, queries t = qs → ∃ t' report,
        (∀ arrivals, arrivals.Perm (numbered outcomes) →
          t.resolveWith false arrivals = (t', .ok report)) ∧
        ∀ c, Course.AsksWith outcomes t c → c.phase = .asking ∧ c.tree = t ∨
          c.phase.isEarly = false ∧ c.tree = t' ∧ c.resolved = some report) ∧
    ((∃ o ∈ outcomes, Broken o) →
      (∀ arrivals, arrivals.Perm (numbered outcomes) →
        ∃ reason, .error (.transport reason) ∈ outcomes ∧
          gather qs.length false arrivals = .error (.transport reason) ∧
          ∀ t, queries t = qs → t.resolveWith false arrivals = (t, .error (.transport reason))) ∧
      ∀ t, queries t = qs → ∀ c, Course.AsksWith outcomes t c → c.tree = t ∧
        (c.phase = .asking ∨ ∃ reason, .error (.transport reason) ∈ outcomes ∧
          c.phase = .ended (.error (.transport reason)))) := by
  constructor
  · intro hbroken
    refine ⟨⟨(outcomes.map answer?).toArray, by simp [hlength], ?_, ?_, ?_⟩, ?_⟩
    · intro n locations hn
      simp [hn, answer?]
    · intro n e hn
      simp [hn, answer?]
    · exact fun arrivals harrivals => hlength ▸ gather_eq_ok hbroken harrivals
    · rintro t rfl
      obtain ⟨t', report, hok⟩ := exists_resolveWith_eq_ok hlength hbroken
      refine ⟨t', report, fun arrivals harrivals => ?_, fun c hc => ?_⟩
      · rw [resolveWith_of_perm hlength hbroken harrivals, hok]
      · obtain ⟨A, rfl, hjoining⟩ := hc.joining
        cases hjoining with
        | collecting h => exact .inl ⟨h.phase, h.tree⟩
        | severed hmem => exact absurd ⟨_, rfl⟩ (hbroken _ hmem)
        | recorded hlate hresolved hrecorded =>
            obtain ⟨rfl, hreport⟩ := Prod.mk.inj (hok.symm.trans hrecorded)
            obtain rfl := Except.ok.inj hreport
            exact .inr ⟨hlate, rfl, hresolved⟩
  · intro hbroken
    have hfails (arrivals : List (Nat × Outcome)) (harrivals : arrivals.Perm (numbered outcomes)) :
        ∃ reason, .error (.transport reason) ∈ outcomes ∧
          gather qs.length false arrivals = .error (.transport reason) :=
      gather_of_broken hbroken harrivals qs.length false
    refine ⟨fun arrivals harrivals => ?_, ?_⟩
    · obtain ⟨reason, hmem, hgather⟩ := hfails arrivals harrivals
      refine ⟨reason, hmem, hgather, ?_⟩
      rintro t rfl
      exact resolveWith_of_gather_error hgather
    · rintro t rfl c hc
      obtain ⟨A, rfl, hjoining⟩ := hc.joining
      cases hjoining with
      | collecting h => exact ⟨h.tree, .inl h.phase⟩
      | severed hmem hphase htree => exact ⟨htree, .inr ⟨_, hmem, hphase⟩⟩
      | recorded _ _ hrecorded =>
          obtain ⟨reason, -, hgather⟩ := hfails _ (.refl _)
          rw [resolveWith_of_gather_error hgather] at hrecorded
          cases hrecorded

/-- One of two functions is used by the other, and the question about the other is refused, or
it is lost with the connection. -/
def pairAnswers (lost : Bool) : Answers where
  greeted := .ok ()
  opened _ := .ok ()
  outlined n := .ok
    (if n == 0 then [] else [Tree.linesEntry "run" 0 9 [], Tree.linesEntry "stop" 10 14 []])
  answered n :=
    if n == 0 then .ok [⟨"file:///app/main.swift", ⟨⟨11, 4⟩, ⟨11, 7⟩⟩⟩]
    else if lost then .error (.transport "closed") else .error (.response 1 "refused")

/-- Both functions were outlined. -/
def pairCourse : Course :=
  (Course.start Tree.nestedFolder ⟨"swift", false⟩ 2 false).play
    [.greet, .greeted (.ok ()), .launch 0, .launch 1, .outlined 1 ((pairAnswers true).outlined 1),
      .outlined 0 (.ok []), .take, .take]

/-- The second outcome arrives first. Where it is a refusal nothing changes by that, and where
the connection is lost the tree stays as it was. -/
theorem outcomes_arrive_in_any_order_pairCourse :
    (∃ t' report,
      pairCourse.tree.resolveWith false
        (numbered ((pairAnswers false).uses pairCourse.tree)).reverse = (t', .ok report) ∧
      ∀ ms, (∀ m ∈ ms, (pairAnswers false).allows m) →
        (pairCourse.play (.turn :: ms)).phase.isEarly = false →
          (pairCourse.play (.turn :: ms)).tree = t') ∧
    (∃ reason, pairCourse.tree.resolveWith false
        (numbered ((pairAnswers true).uses pairCourse.tree)).reverse =
          (pairCourse.tree, .error (.transport reason))) ∧
    ∀ ms, (∀ m ∈ ms, (pairAnswers true).allows m) →
      (pairCourse.play (.turn :: ms)).tree = pairCourse.tree := by
  have hasks : Course.Asks Tree.nestedFolder pairCourse.tree (pairCourse.move .turn) := by
    have hphase : pairCourse.phase = .outlining := by with_unfolding_all rfl
    exact Course.asks_turn (Course.sound_play ..) hphase (by decide +kernel) (by decide +kernel)
  have hasksWith (lost : Bool) (ms : List Course.Move)
      (hms : ∀ m ∈ ms, (pairAnswers lost).allows m) :
      Course.AsksWith ((pairAnswers lost).uses pairCourse.tree) pairCourse.tree
        (pairCourse.play (.turn :: ms)) :=
    ⟨Tree.nestedFolder, pairCourse.move .turn, pairAnswers lost, ms, hasks, rfl, hms, rfl⟩
  have hlength (lost : Bool) : ((pairAnswers lost).uses pairCourse.tree).length =
      (queries pairCourse.tree).length := by simp [Answers.uses]
  have huses (lost : Bool) : (pairAnswers lost).uses pairCourse.tree =
      [(pairAnswers lost).answered 0, (pairAnswers lost).answered 1] := by
    have hqueries : (queries pairCourse.tree).length = 2 := by decide +kernel
    rw [Answers.uses, hqueries]
    rfl
  have hbroken : ∀ o ∈ (pairAnswers false).uses pairCourse.tree, ¬ Broken o := by
    rw [huses]
    simp [pairAnswers, Broken]
  have hlost : (pairAnswers true).answered 1 ∈ (pairAnswers true).uses pairCourse.tree := by
    rw [huses]
    exact List.mem_cons_of_mem _ List.mem_cons_self
  obtain ⟨hwhole, -⟩ := outcomes_arrive_in_any_order _ _ (hlength false)
  obtain ⟨-, hsevered⟩ := outcomes_arrive_in_any_order _ _ (hlength true)
  obtain ⟨t', report, hperm, hplay⟩ := (hwhole hbroken).2 pairCourse.tree rfl
  obtain ⟨hfails, hkeeps⟩ := hsevered ⟨_, hlost, _, rfl⟩
  refine ⟨⟨t', report, hperm _ (List.reverse_perm _), fun ms hms hlate => ?_⟩, ?_, ?_⟩
  · rcases hplay _ (hasksWith false ms hms) with ⟨hphase, -⟩ | ⟨-, htree, -⟩
    · rw [hphase] at hlate
      cases hlate
    · exact htree
  · obtain ⟨reason, -, -, hresolved⟩ := hfails _ (List.reverse_perm _)
    exact ⟨reason, hresolved _ rfl⟩
  · exact fun ms hms => (hkeeps _ rfl _ (hasksWith true ms hms)).1

end Analysis

end SourceAtlas
