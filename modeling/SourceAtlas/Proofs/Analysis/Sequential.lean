import SourceAtlas.Proofs.Analysis.Arrivals
import SourceAtlas.Proofs.Analysis.Schedule
/-!
# Calls one after another

An analysis that waits for every answer before it makes its next call is one of the
courses: `exists_play_eq_analyze` gives the moves it is made of. A server that cancels
the run while it answers does so by a move of its own, right before the answer.
-/

namespace SourceAtlas

/-- Whether the run is cancelled while a call is answered, given the calls before it. -/
def Server.cancels (server : Server) (before : List Call) : Call → Bool
  | .handshake root processId => (server.handshake before root processId).cancels
  | .openDocument uri language text => (server.openDocument before uri language text).cancels
  | .outline uri => (server.outline before uri).cancels
  | .references uri position => (server.references before uri position).cancels
  | .shutdown | .notify _ _ | .request _ _ => false

namespace Analysis

theorem ensureRunning_of_running {s : Session} (h : s.cancelled = false) :
    ensureRunning s = .ok () := by
  rw [ensureRunning, h, if_neg Bool.false_ne_true]

theorem Progress.advance_eq_set {κ α : Type} {calls : List (κ × Progress α)} {n : Nat} {k : κ}
    {p : Progress α} (h : calls[n]? = some (k, p)) (f : Progress α → Progress α) :
    advance calls n f = calls.set n (k, f p) := by
  refine List.ext_getElem? fun i => ?_
  rw [getElem?_advance, List.getElem?_set]
  split
  · next heq =>
      rw [← heq, h, if_pos (List.getElem?_eq_some_iff.mp h).1, Option.map_some]
  · rfl

theorem Progress.advance_append {κ α : Type} (before after : List (κ × Progress α)) (k : κ)
    (p : Progress α) (f : Progress α → Progress α) :
    advance (before ++ (k, p) :: after) before.length f = before ++ (k, f p) :: after := by
  have hk : (before ++ (k, p) :: after)[before.length]? = some (k, p) := by simp
  rw [advance_eq_set hk]
  simp

/-- What comes of one question. -/
def consult (server : Server) (s : Session) (q : Resolve.Query) : Session × Resolve.Outcome :=
  if s.cancelled then (s, .error .cancelled) else s.references server q.uri q.position

theorem consult_of_running {s : Session} (hs : s.cancelled = false) (server : Server)
    (q : Resolve.Query) : consult server s q = s.references server q.uri q.position := by
  rw [consult, hs, if_neg Bool.false_ne_true]

theorem ask_cons (server : Server) (q : Resolve.Query) (qs : List Resolve.Query) (s : Session) :
    Resolve.ask server (q :: qs) s =
      ((Resolve.ask server qs (consult server s q).1).1,
        (consult server s q).2 :: (Resolve.ask server qs (consult server s q).1).2) := by
  rw [Resolve.ask, consult]
  split <;> rfl

namespace Course

variable {c c' c'' : Course}

/-- Some moves lead from one course to another. -/
def Reaches (c c' : Course) : Prop :=
  ∃ ms, c.play ms = c'

namespace Reaches

theorem refl (c : Course) : Reaches c c := ⟨[], rfl⟩

theorem trans (h : Reaches c c') (h' : Reaches c' c'') : Reaches c c'' := by
  obtain ⟨ms, rfl⟩ := h
  obtain ⟨ms', rfl⟩ := h'
  exact ⟨ms ++ ms', play_append c ms ms'⟩

theorem of_move {m : Move} (h : c.move m = c') : Reaches c c' := ⟨[m], h⟩

theorem of_step {m : Move} (s : Step c m c') : Reaches c c' := .of_move s.move_eq

/-- An answer may cancel the run. -/
theorem signal (c : Course) (cancels : Bool) :
    Reaches c { c with cancelled := c.cancelled || cancels } := by
  cases cancels with
  | false =>
      rw [Bool.or_false]
      exact .refl c
  | true =>
      rw [Bool.or_true]
      exact .of_step .cancel

end Reaches

/-- Some moves end a course with a result. -/
def Finishes (c : Course) (result : Except Failure Tree) : Prop :=
  ∃ c', Reaches c c' ∧ c'.phase = .ended result

theorem Reaches.finishes {result : Except Failure Tree} (h : Reaches c c')
    (h' : Finishes c' result) : Finishes c result := by
  obtain ⟨c'', hreaches, hended⟩ := h'
  exact ⟨c'', h.trans hreaches, hended⟩

theorem Finishes.of_step {m : Move} {result : Except Failure Tree} (s : Step c m c')
    (h : c'.phase = .ended result) : Finishes c result :=
  ⟨c', .of_step s, h⟩

variable (server : Server) {s : Session}

/-! ## Outlines -/

/-- The call about the next file goes on with an answer. -/
theorem reaches_answer (hphase : c.phase = .outlining) (hnext : c.taken < c.outlines.length)
    (job : Extract.Job) (p : Progress (List Outline.Entry)) (cancelled cancels : Bool) {m : Move}
    {f : Progress (List Outline.Entry) → Progress (List Outline.Entry)}
    (hm : ∀ c' : Course, c'.move m = c'.outline c.taken f) :
    Reaches { c with cancelled, outlines := c.outlines.set c.taken (job, p) }
      { c with
        cancelled := cancelled || cancels
        outlines := c.outlines.set c.taken (job, f p) } := by
  refine (Reaches.signal _ cancels).trans (.of_move (m := m) ?_)
  rw [hm]
  simp only [outline, hphase]
  rw [Progress.advance_eq_set (List.getElem?_set_self hnext), List.set_set]

/-- The next file is announced and outlined. -/
theorem reaches_outline (hphase : c.phase = .outlining) (hlimit : 0 < c.limit)
    (hc : c.cancelled = s.cancelled) {job : Extract.Job}
    (hnext : c.outlines[c.taken]? = some (job, .idle)) :
    Reaches c
      { c with
        cancelled := (Extract.outline server c.options s job).1.cancelled
        outlines := c.outlines.set c.taken
          (job, .settled (Extract.outline server c.options s job).2) } := by
  have hlt : c.taken < c.outlines.length := (List.getElem?_eq_some_iff.mp hnext).1
  have launched : Reaches c
      { c with
        outlines := c.outlines.set c.taken
          (job, .launch c.cancelled c.options.openDocuments .idle) } := by
    rw [← Progress.advance_eq_set hnext]
    exact .of_step (.launch c.taken hphase (Nat.lt_add_of_pos_right hlimit))
  refine launched.trans ?_
  cases hcancelled : c.cancelled with
  | true =>
      have houtline : Extract.outline server c.options s job = (s, .error .cancelled) :=
        if_pos (hc ▸ hcancelled)
      rw [houtline, ← hc, hcancelled]
      exact .refl _
  | false =>
      have hs : s.cancelled = false := hc ▸ hcancelled
      rw [Extract.outline, if_neg (by rw [hs]; nofun)]
      cases hopens : c.options.openDocuments with
      | false =>
          rw [if_neg Bool.false_ne_true]
          simp only [Session.outline, Session.record, hs]
          exact reaches_answer (m := .outlined c.taken _) hphase hlt job .asked false _ fun _ => rfl
      | true =>
          rw [if_pos rfl]
          simp only [Session.openDocument, Session.record, hs]
          generalize server.openDocument s.calls job.uri c.options.language job.text = answer
          obtain ⟨result, cancels⟩ := answer
          have opened := reaches_answer (m := .opened c.taken result) hphase hlt job .opening
            false cancels fun _ => rfl
          refine Reaches.trans opened ?_
          cases result with
          | error e => exact .refl _
          | ok =>
              simp only [Session.outline, Session.record]
              exact reaches_answer (m := .outlined c.taken _) hphase hlt job .asked _ _
                fun _ => rfl

/-- The files that are left are outlined and taken in one after another. -/
theorem reaches_extract {jobs : List Extract.Job} (hphase : c.phase = .outlining)
    (hlimit : 0 < c.limit) (hc : c.cancelled = s.cancelled) (htaken : c.taken ≤ c.outlines.length)
    (hleft : c.outlines.drop c.taken = jobs.map fun job => (job, .idle)) :
    (∀ s' tree extracted,
      Extract.run server c.options jobs c.extracted s c.tree = (s', tree, .ok extracted) →
      ∃ outlines, Reaches c
        { c with cancelled := s'.cancelled, tree, extracted, outlines, taken := outlines.length }) ∧
    (∀ s' tree e, Extract.run server c.options jobs c.extracted s c.tree = (s', tree, .error e) →
      Finishes c (.error e)) := by
  induction jobs generalizing c s with
  | nil =>
      have hall : c.taken = c.outlines.length :=
        Nat.le_antisymm htaken (List.drop_eq_nil_iff.mp hleft)
      refine ⟨fun s' tree extracted hrun => ⟨c.outlines, ?_⟩, fun _ _ _ hrun => nomatch hrun⟩
      cases hrun
      rw [← hc, ← hall]
      exact .refl c
  | cons job jobs ih =>
      have hnext : c.outlines[c.taken]? = some (job, .idle) := by
        rw [← List.head?_drop, hleft]
        rfl
      have hlt : c.taken < c.outlines.length := (List.getElem?_eq_some_iff.mp hnext).1
      have outlined := reaches_outline server hphase hlimit hc hnext
      rw [Extract.run]
      generalize Extract.outline server c.options s job = answer at outlined ⊢
      obtain ⟨s', outcome⟩ := answer
      dsimp only at outlined ⊢
      have settled : (c.outlines.set c.taken (job, .settled outcome))[c.taken]? =
          some (job, .settled outcome) := List.getElem?_set_self hlt
      cases hcancelled : s'.cancelled with
      | true =>
          rw [hcancelled] at outlined
          rw [if_pos rfl]
          refine ⟨fun _ _ _ hrun => ?_, fun _ _ e hrun => ?_⟩ <;> cases hrun
          exact outlined.finishes (.of_step (.drop hphase rfl settled) rfl)
      | false =>
          rw [hcancelled] at outlined
          rw [if_neg Bool.false_ne_true]
          cases habsorb : Extract.absorb c.tree c.extracted job outcome with
          | error e =>
              refine ⟨fun _ _ _ hrun => ?_, fun _ _ e hrun => ?_⟩ <;> cases hrun
              exact outlined.finishes (.of_step (.fail hphase rfl settled habsorb) rfl)
          | ok entered =>
              obtain ⟨tree, extracted⟩ := entered
              have hrest : (c.outlines.set c.taken (job, .settled outcome)).drop (c.taken + 1) =
                  jobs.map fun job => (job, .idle) := by
                rw [List.drop_set_of_lt (Nat.lt_succ_self c.taken), ← List.tail_drop, hleft]
                rfl
              obtain ⟨reaches, finishes⟩ := ih (s := s') (c := { c with
                cancelled := false, tree, extracted
                outlines := c.outlines.set c.taken (job, .settled outcome)
                taken := c.taken + 1 }) hphase hlimit hcancelled.symm (by simpa using hlt) hrest
              have taken := outlined.trans (.of_step (.take hphase rfl settled habsorb))
              refine ⟨fun s'' tree' extracted' hrun => ?_, fun s'' tree' e hrun => ?_⟩
              · obtain ⟨outlines, hlater⟩ := reaches s'' tree' extracted' hrun
                exact ⟨outlines, taken.trans hlater⟩
              · exact taken.finishes (finishes s'' tree' e hrun)

/-! ## Questions -/

/-- The next question is asked. None is with the server, so there is room for it. -/
theorem reaches_consult {q : Resolve.Query}
    {before after : List (Resolve.Query × Progress (List Location))} (hphase : c.phase = .asking)
    (hroom : c.inFlight < c.limit) (hc : c.cancelled = s.cancelled)
    (hquestions : c.questions = before ++ (q, .idle) :: after) :
    Reaches c
      { c with
        cancelled := (consult server s q).1.cancelled
        questions := before ++ (q, .settled (consult server s q).2) :: after } := by
  have asked : Reaches c
      { c with questions := before ++ (q, .launch c.cancelled false .idle) :: after } := by
    rw [← Progress.advance_append before, ← hquestions]
    exact .of_step (.ask before.length hphase (.inr hroom))
  refine asked.trans ?_
  cases hcancelled : c.cancelled with
  | true =>
      have hconsult : consult server s q = (s, .error .cancelled) := if_pos (hc ▸ hcancelled)
      rw [hconsult, ← hc, hcancelled]
      exact .refl _
  | false =>
      have hs : s.cancelled = false := hc ▸ hcancelled
      rw [consult_of_running hs]
      simp only [Session.references, Session.record, hs]
      generalize server.references s.calls q.uri q.position = answer
      obtain ⟨result, cancels⟩ := answer
      refine (Reaches.signal _ cancels).trans (.of_move (m := .answered before.length result) ?_)
      simp only [move, question, hphase, Progress.advance_append]
      rfl

/-- The questions that are left are asked one after another. -/
theorem reaches_ask {qs : List Resolve.Query}
    (before : List (Resolve.Query × Progress (List Location))) (hphase : c.phase = .asking)
    (hlimit : 0 < c.limit) (hc : c.cancelled = s.cancelled)
    (hbefore : ∀ q ∈ before, ¬ q.2.isAsked = true)
    (hquestions : c.questions = before ++ qs.map fun q => (q, .idle)) :
    Reaches c
      { c with
        cancelled := (Resolve.ask server qs s).1.cancelled
        questions := before ++
          (qs.zip (Resolve.ask server qs s).2).map fun a => (a.1, .settled a.2) } := by
  induction qs generalizing c s before with
  | nil =>
      have same : before ++ [].map (fun q : Resolve.Query => (q, .idle)) = c.questions :=
        hquestions.symm
      rw [Resolve.ask, ← hc]
      exact same ▸ .refl c
  | cons q qs ih =>
      have hroom : c.inFlight < c.limit := by
        have hnone : c.inFlight = 0 := by
          refine List.countP_eq_zero.mpr fun q' hq' => ?_
          rw [hquestions, List.mem_append] at hq'
          rcases hq' with hq' | hq'
          · exact hbefore q' hq'
          · obtain ⟨_, -, rfl⟩ := List.mem_map.mp hq'
            exact Bool.false_ne_true
        rw [hnone]
        exact hlimit
      have asked := reaches_consult server hphase hroom hc hquestions
      rw [ask_cons]
      generalize consult server s q = answer at asked ⊢
      obtain ⟨s', outcome⟩ := answer
      refine asked.trans ?_
      have hbefore' : ∀ q' ∈ before ++ [(q, .settled outcome)], ¬ q'.2.isAsked = true := by
        intro q' hq'
        rcases List.mem_append.mp hq' with hq' | hq'
        · exact hbefore q' hq'
        · rw [List.mem_singleton.mp hq']
          exact Bool.false_ne_true
      have later := ih (before ++ [(q, .settled outcome)]) (s := s') (c := { c with
        cancelled := s'.cancelled
        questions := before ++ (q, .settled outcome) :: qs.map fun q => (q, .idle) })
        hphase hlimit rfl hbefore' (by simp)
      simpa using later

/-- The outcomes that are left are collected in their order, until one of them is broken. -/
theorem reaches_join {left : List (Nat × Resolve.Outcome)} (hphase : c.phase = .asking)
    (hsettled : ∀ a ∈ left, ∃ q, c.questions[a.1]? = some (q, .settled a.2))
    (hnodup : ((c.arrived ++ left).map (·.1)).Nodup) (answers : Array (Option (List Location))) :
    (∀ answers', Resolve.collect left answers = .ok answers' →
      Reaches c { c with arrived := c.arrived ++ left }) ∧
    (∀ e, Resolve.collect left answers = .error e → Finishes c (.error e)) := by
  induction left generalizing c answers with
  | nil =>
      refine ⟨fun _ _ => ?_, nofun⟩
      rw [List.append_nil]
      exact .refl c
  | cons a left ih =>
      obtain ⟨n, outcome⟩ := a
      have hnew : n ∉ c.arrived.map (·.1) := by
        rw [List.map_append] at hnodup
        exact fun hn => List.disjoint_of_nodup_append hnodup hn List.mem_cons_self
      obtain ⟨q, hq⟩ := hsettled _ List.mem_cons_self
      by_cases hbroken : Resolve.Broken outcome
      · obtain ⟨reason, rfl⟩ := hbroken
        refine ⟨nofun, fun e hcollect => ?_⟩
        cases hcollect
        exact .of_step (.sever hphase hq hnew) rfl
      · have joined : Reaches c { c with arrived := c.arrived ++ [(n, outcome)] } :=
          .of_step (.join hphase hq hnew fun reason heq => hbroken ⟨reason, heq⟩)
        have hone : c.arrived ++ (n, outcome) :: left = c.arrived ++ [(n, outcome)] ++ left := by
          simp
        rw [hone] at hnodup ⊢
        obtain ⟨answers', hcollect⟩ := Resolve.collect_cons hbroken n left answers
        rw [hcollect]
        obtain ⟨reaches, finishes⟩ := ih (c := { c with arrived := c.arrived ++ [(n, outcome)] })
          hphase (fun a ha => hsettled a (List.mem_cons_of_mem _ ha)) hnodup answers'
        exact ⟨fun _ h => joined.trans (reaches _ h), fun _ h => joined.finishes (finishes _ h)⟩

/-- All outcomes are collected and recorded. -/
theorem reaches_record {outcomes : List Resolve.Outcome} (hphase : c.phase = .asking)
    (harrived : c.arrived = [])
    (hquestions : c.questions =
      ((Resolve.queries c.tree).zip outcomes).map fun a => (a.1, .settled a.2))
    (hlength : outcomes.length = (Resolve.queries c.tree).length) :
    (∀ tree report,
      c.tree.resolveWith c.cancelled (Resolve.numbered outcomes) = (tree, .ok report) →
      Reaches c
        { c with
          arrived := Resolve.numbered outcomes
          tree
          resolved := some report
          phase := .recorded }) ∧
    (∀ tree e, c.tree.resolveWith c.cancelled (Resolve.numbered outcomes) = (tree, .error e) →
      Finishes c (.error e)) := by
  have hsettled : ∀ a ∈ Resolve.numbered outcomes, ∃ q,
      c.questions[a.1]? = some (q, .settled a.2) := by
    intro a ha
    have houtcome := Resolve.mem_numbered.mp ha
    have hlt := (List.getElem?_eq_some_iff.mp houtcome).1
    obtain ⟨q, hq⟩ : ∃ q, (Resolve.queries c.tree)[a.1]? = some q :=
      ⟨_, List.getElem?_eq_getElem (hlength ▸ hlt)⟩
    have hpair : ((Resolve.queries c.tree).zip outcomes)[a.1]? = some (q, a.2) :=
      List.getElem?_zip_eq_some.mpr ⟨hq, houtcome⟩
    exact ⟨q, by rw [hquestions, List.getElem?_map, hpair, Option.map_some]⟩
  have hnodup : ((c.arrived ++ Resolve.numbered outcomes).map (·.1)).Nodup := by
    rw [harrived, List.nil_append]
    exact Resolve.map_fst_numbered outcomes ▸ List.nodup_range
  obtain ⟨reaches, finishes⟩ := reaches_join hphase hsettled hnodup
    (Array.replicate (Resolve.queries c.tree).length none)
  rw [harrived, List.nil_append] at reaches
  cases hcollect : Resolve.collect (Resolve.numbered outcomes)
      (Array.replicate (Resolve.queries c.tree).length none) with
  | error e =>
      have hfailed : c.tree.resolveWith c.cancelled (Resolve.numbered outcomes) =
          (c.tree, .error e) := by
        simp only [Tree.resolveWith, Resolve.gather, hcollect]
      rw [hfailed]
      refine ⟨fun _ _ hresolved => ?_, fun _ e hresolved => ?_⟩ <;> cases hresolved
      exact finishes e hcollect
  | ok answers =>
      have joined := reaches answers hcollect
      have hall : (Resolve.numbered outcomes).length = c.questions.length := by
        simp [Resolve.numbered, hquestions, hlength]
      exact ⟨fun _ _ h => joined.trans (.of_step (.record hphase hall h)),
        fun _ _ h => joined.finishes (.of_step (.discard hphase hall h) rfl)⟩

/-! ## The whole run -/

theorem length_ask (server : Server) (qs : List Resolve.Query) (s : Session) :
    (Resolve.ask server qs s).2.length = qs.length := by
  induction qs generalizing s with
  | nil => rfl
  | cons q qs ih => rw [ask_cons, List.length_cons, List.length_cons, ih]

theorem finishes_conclude (hphase : c.phase = .recorded) (hc : c.cancelled = s.cancelled) :
    Finishes c
      (match ensureRunning s with
        | .error e => (s, .error e)
        | .ok () => (s, finish c.tree) : Session × Except Failure Tree).2 := by
  rw [ensureRunning, ← hc]
  cases hcancelled : c.cancelled with
  | true => exact .of_step (.withhold hphase hcancelled) rfl
  | false => exact .of_step (.conclude hphase hcancelled) rfl

theorem finishes_resolve (hphase : c.phase = .outlining) (hlimit : 0 < c.limit)
    (hc : c.cancelled = s.cancelled) (hall : c.taken = c.outlines.length)
    (harrived : c.arrived = []) : Finishes c (resolve server s c.tree).2 := by
  rw [resolve, ensureRunning, ← hc]
  cases hcancelled : c.cancelled with
  | true => exact .of_step (.leave hphase hall hcancelled) rfl
  | false =>
      have asked := Reaches.trans (.of_step (.turn hphase hall hcancelled))
        (reaches_ask server [] rfl hlimit hc nofun rfl)
      have hlength := length_ask server (Resolve.queries c.tree) s
      simp only [Tree.resolveDependencies]
      generalize Resolve.ask server (Resolve.queries c.tree) s = answer at asked hlength ⊢
      obtain ⟨s', outcomes⟩ := answer
      obtain ⟨reaches, finishes⟩ := reaches_record (c := { c with
        cancelled := s'.cancelled
        phase := .asking
        questions := ((Resolve.queries c.tree).zip outcomes).map fun a => (a.1, .settled a.2) })
        rfl harrived rfl hlength
      dsimp only at reaches finishes ⊢
      cases hresolved : c.tree.resolveWith s'.cancelled (Resolve.numbered outcomes) with
      | mk tree result =>
          cases result with
          | error e => exact asked.finishes (finishes tree e hresolved)
          | ok report =>
              exact (asked.trans (reaches tree report hresolved)).finishes
                (finishes_conclude rfl rfl)

theorem finishes_extract (hphase : c.phase = .outlining) (hlimit : 0 < c.limit)
    (hc : c.cancelled = s.cancelled) (htaken : c.taken = 0)
    (houtlines : c.outlines = (Extract.jobs c.tree).map fun job => (job, .idle))
    (hextracted : c.extracted = ⟨(Extract.jobs c.tree).length, 0, 0⟩) (harrived : c.arrived = []) :
    Finishes c
      (match c.tree.extractSymbols server c.options s with
        | (s, _, .error e) => (s, .error e)
        | (s, t, .ok _) => resolve server s t : Session × Except Failure Tree).2 := by
  have hleft : c.outlines.drop c.taken = (Extract.jobs c.tree).map fun job => (job, .idle) := by
    rw [htaken, List.drop_zero, houtlines]
  obtain ⟨reaches, finishes⟩ := reaches_extract server hphase hlimit hc
    (htaken ▸ Nat.zero_le _) hleft
  rw [hextracted] at reaches finishes
  rw [Tree.extractSymbols]
  rcases hrun : Extract.run server c.options (Extract.jobs c.tree)
    ⟨(Extract.jobs c.tree).length, 0, 0⟩ s c.tree with ⟨s', tree, result⟩
  cases result with
  | error e => exact finishes s' tree e hrun
  | ok extracted =>
      obtain ⟨outlines, extracted⟩ := reaches s' tree extracted hrun
      exact extracted.finishes (finishes_resolve server hphase hlimit rfl rfl harrived)

theorem finishes_analyze (folder : Folder) (options : Extract.Options) (server : Server)
    (processId : Nat) (s : Session) (maxRequests : Nat) :
    Finishes (start folder options maxRequests s.cancelled)
      (analyze folder options server processId s).2 := by
  have hlimit := (sound_start folder options maxRequests s.cancelled).limit
  rw [analyze, ensureRunning]
  cases hcancelled : s.cancelled with
  | true => exact .of_step (.refuse rfl rfl) rfl
  | false =>
      simp only [Session.handshake, Session.record, hcancelled]
      generalize server.handshake s.calls folder.path processId = answer
      obtain ⟨result, cancels⟩ := answer
      have greeted : Reaches (start folder options maxRequests false)
          { start folder options maxRequests false with
            cancelled := cancels
            phase := .greeting } :=
        .trans (.of_step (.greet rfl rfl)) (.signal _ cancels)
      refine greeted.finishes ?_
      cases result with
      | error e => exact .of_step (.rebuff e rfl) rfl
      | ok =>
          refine Reaches.finishes (.of_step (.greeted rfl)) ?_
          exact finishes_extract server (c := { start folder options maxRequests false with
            cancelled := cancels
            phase := .outlining }) rfl hlimit rfl rfl rfl rfl rfl

/-- An analysis that makes its calls one after another is a course, whatever the limit is. -/
theorem exists_play_eq_analyze (folder : Folder) (options : Extract.Options) (server : Server)
    (processId : Nat) (s : Session) (maxRequests : Nat) :
    ∃ ms, ((start folder options maxRequests s.cancelled).play ms).phase =
      .ended (analyze folder options server processId s).2 := by
  obtain ⟨c, ⟨ms, rfl⟩, hended⟩ := finishes_analyze folder options server processId s maxRequests
  exact ⟨ms, hended⟩

end Course

end Analysis

end SourceAtlas
