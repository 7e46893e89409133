import SourceAtlas.Proofs.Analysis.Following
import SourceAtlas.Proofs.Analysis.Sequential
import SourceAtlas.Proofs.Analysis.Sparing
/-!
# Two runs side by side

Two servers take the calls of a run each, one call after another, and the one refuses some
calls that the other answers with empty lists. The calls stay the same in both runs, but
for the outlines of documents that could not be opened, which nobody asks for
(`Alongside`). So both runs enter the same symbols, ask the same questions and end with
the same tree (`ServerRefuses.run`), though what a server answers may depend on all calls
before.
-/

namespace SourceAtlas

namespace Analysis

/-- The calls of two runs, of which the first may be refused documents. -/
inductive Alongside (refuses : List Call → Call → Bool) : List Call → List Call → Prop where
  | start : Alongside refuses [] []
  | call {calls calls' : List Call} {call : Call} : Alongside refuses calls calls' →
      (∀ uri language text, call = .openDocument uri language text →
        refuses calls call = false) →
      Alongside refuses (calls ++ [call]) (calls' ++ [call])
  | unopened {calls calls' : List Call} {uri language text : String} :
      Alongside refuses calls calls' →
      refuses calls (.openDocument uri language text) = true →
      Alongside refuses (calls ++ [.openDocument uri language text])
        (calls' ++ [.openDocument uri language text] ++ [.outline uri])

/-- The one server refuses some calls, where the other opens the document and has empty
lists. All other answers are the same after the same calls, and no answer ends a run. -/
structure ServerRefuses (refuses : List Call → Call → Bool) (server server' : Server) :
    Prop where
  patient : ∀ before call, server.cancels before call = false ∧ server'.cancels before call = false
  greeted : ∀ calls root processId, (server.handshake calls root processId).result = .ok () ∧
    (server'.handshake calls root processId).result = .ok ()
  opened : ∀ {calls calls' uri language text}, Alongside refuses calls calls' →
    refuses calls (.openDocument uri language text) = false →
      (server.openDocument calls uri language text).result =
        (server'.openDocument calls' uri language text).result ∧
      Harmless (server'.openDocument calls' uri language text).result
  unopened : ∀ {calls calls' uri language text}, Alongside refuses calls calls' →
    refuses calls (.openDocument uri language text) = true →
      (∃ e, (server.openDocument calls uri language text).result = .error e ∧
        e.isFatal = false) ∧
      (server'.openDocument calls' uri language text).result = .ok () ∧
      (server'.outline (calls' ++ [.openDocument uri language text]) uri).result = .ok []
  outlined : ∀ {calls calls' uri}, Alongside refuses calls calls' →
    Spares (refuses calls (.outline uri)) (server.outline calls uri).result
      (server'.outline calls' uri).result
  used : ∀ {calls calls' uri position}, Alongside refuses calls calls' →
    Spares (refuses calls (.references uri position))
      (server.references calls uri position).result
      (server'.references calls' uri position).result

variable {refuses : List Call → Call → Bool} {server server' : Server} {s s' : Session}

theorem cancelled_record {call : Call} {α : Type} {answer : Served α}
    (hs : s.cancelled = false) (h : answer.cancels = false) :
    (s.record call answer).cancelled = false := by
  rw [Session.record, hs, h]
  rfl

/-- Two runs that go on, side by side. -/
structure Abreast (refuses : List Call → Call → Bool) (s s' : Session) : Prop where
  calls : Alongside refuses s.calls s'.calls
  running : s.cancelled = false
  running' : s'.cancelled = false

theorem Abreast.record (h : Abreast refuses s s') {call : Call} {α : Type}
    {answer answer' : Served α} (hcancels : answer.cancels = false)
    (hcancels' : answer'.cancels = false)
    (hcall : ∀ uri language text, call = .openDocument uri language text →
      refuses s.calls call = false) :
    Abreast refuses (s.record call answer) (s'.record call answer') where
  calls := h.calls.call hcall
  running := cancelled_record h.running hcancels
  running' := cancelled_record h.running' hcancels'

/-! ## Outcomes in pairs -/

/-- Both outcomes are the same, or the one is a refusal and the other empty. -/
def Spared {α : Type} (o o' : Except CallError (List α)) : Prop :=
  ∃ chosen, Spares chosen o o'

theorem Spared.same {α : Type} {o : Except CallError (List α)} (h : Harmless o) : Spared o o :=
  ⟨false, rfl, h⟩

theorem Spared.map_located_eq {outcomes outcomes' : List Resolve.Outcome}
    (h : List.Forall₂ Spared outcomes outcomes') :
    outcomes.map Resolve.located = outcomes'.map Resolve.located := by
  induction h with
  | nil => rfl
  | cons ho _ ih =>
      obtain ⟨chosen, ho⟩ := ho
      rw [List.map_cons, List.map_cons, ho.located_eq, ih]

theorem Spared.not_broken {outcomes outcomes' : List Resolve.Outcome}
    (h : List.Forall₂ Spared outcomes outcomes') :
    (∀ o ∈ outcomes, ¬ Resolve.Broken o) ∧ ∀ o ∈ outcomes', ¬ Resolve.Broken o := by
  have unbroken {o : Resolve.Outcome} (ho : Harmless o) : ¬ Resolve.Broken o := by
    rintro ⟨reason, rfl⟩
    cases ho _ rfl
  induction h with
  | nil => exact ⟨nofun, nofun⟩
  | cons ho _ ih =>
      obtain ⟨chosen, ho⟩ := ho
      exact ⟨List.forall_mem_cons.mpr ⟨unbroken ho.harmless.1, ih.1⟩,
        List.forall_mem_cons.mpr ⟨unbroken ho.harmless.2, ih.2⟩⟩

/-! ## Both runs -/

/-- A run that is not cancelled records what the outcomes of its questions tell. -/
theorem resolve_eq_finish {t : Tree} (ht : t.WellFormed) (hs : s.cancelled = false)
    (hlast : (Resolve.ask server (Resolve.queries t) s).1.cancelled = false)
    (hbroken : ∀ o ∈ (Resolve.ask server (Resolve.queries t) s).2, ¬ Resolve.Broken o) :
    (resolve server s t).2 =
      finish (resolvedTree t (Resolve.ask server (Resolve.queries t) s).2) := by
  have hlength := Course.length_ask server (Resolve.queries t) s
  have hresolved := Resolve.resolveWith_eq ht hlength hbroken (.refl _)
  rw [resolve, ensureRunning_of_running hs]
  dsimp only
  rw [Tree.resolveDependencies]
  dsimp only
  rw [hlast, hresolved]
  dsimp only
  rw [ensureRunning_of_running hlast]
  rfl

/-- A run that is greeted and has all files taken in goes on to its questions. -/
theorem run_eq_resolve {folder : Folder} {options : Extract.Options} {processId : Nat} {t : Tree}
    {r : Extract.Report}
    (hgreeted : (server.handshake [] folder.path processId).result = .ok ())
    (hrun : Extract.run server options (Extract.jobs (Tree.ofFolder folder))
      ⟨(Extract.jobs (Tree.ofFolder folder)).length, 0, 0⟩
      ((Session.start false).handshake server folder.path processId).1 (Tree.ofFolder folder) =
        (s, t, .ok r)) :
    (run (.ok folder) options server processId (.start false)).2 = (resolve server s t).2 := by
  have hhandshake : (Session.start false).handshake server folder.path processId =
      (((Session.start false).handshake server folder.path processId).1, .ok ()) :=
    Prod.ext rfl hgreeted
  rw [run, analyze, ensureRunning_of_running rfl, hhandshake]
  dsimp only
  rw [Tree.extractSymbols, hrun]

namespace ServerRefuses

variable {folder : Folder} {t : Tree}

theorem outline (h : ServerRefuses refuses server server') (hs : Abreast refuses s s')
    (options : Extract.Options) (job : Extract.Job) :
    Abreast refuses (Extract.outline server options s job).1
        (Extract.outline server' options s' job).1 ∧
      Spared (Extract.outline server options s job).2
        (Extract.outline server' options s' job).2 := by
  have asked {s s' : Session} (hs : Abreast refuses s s') :
      Abreast refuses (s.outline server job.uri).1 (s'.outline server' job.uri).1 ∧
        Spared (s.outline server job.uri).2 (s'.outline server' job.uri).2 :=
    ⟨hs.record (h.patient s.calls (.outline job.uri)).1 (h.patient s'.calls (.outline job.uri)).2
      nofun, _, h.outlined hs.calls⟩
  rw [Extract.outline, Extract.outline, hs.running, hs.running', if_neg Bool.false_ne_true,
    if_neg Bool.false_ne_true]
  cases options.openDocuments with
  | false => exact asked hs
  | true =>
      have hcancels : (server.openDocument s.calls job.uri options.language job.text).cancels =
          false := (h.patient s.calls (.openDocument job.uri options.language job.text)).1
      have hcancels' : (server'.openDocument s'.calls job.uri options.language job.text).cancels =
          false := (h.patient s'.calls (.openDocument job.uri options.language job.text)).2
      simp only [if_true, Session.openDocument]
      cases hrefuses : refuses s.calls (.openDocument job.uri options.language job.text) with
      | false =>
          obtain ⟨hsame, hharmless⟩ := h.opened hs.calls hrefuses
          have recorded := hs.record hcancels hcancels' fun _ _ _ _ => hrefuses
          rw [hsame]
          cases hresult :
              (server'.openDocument s'.calls job.uri options.language job.text).result with
          | error e =>
              have refused : Harmless (.error e : Extract.Outcome) := fun e' he' =>
                hharmless e' (by rw [hresult, Except.error.inj he'])
              exact ⟨recorded, .same refused⟩
          | ok => exact asked recorded
      | true =>
          obtain ⟨⟨e, he, hfatal⟩, hopened, hempty⟩ := h.unopened hs.calls hrefuses
          rw [he, hopened]
          have opened : (s'.openDocument server' job.uri options.language job.text).1.cancelled =
              false := cancelled_record hs.running' hcancels'
          exact ⟨⟨hs.calls.unopened hrefuses, cancelled_record hs.running hcancels,
            cancelled_record opened (h.patient _ (.outline job.uri)).2⟩,
            true, ⟨e, rfl, hfatal⟩, hempty⟩

/-- Both servers have all files taken in, and the trees are the same. -/
theorem extract (h : ServerRefuses refuses server server') (hs : Abreast refuses s s')
    (ht : Extract.Outlined folder t) (options : Extract.Options) {jobs : List Extract.Job}
    (hjobs : ∀ job ∈ jobs, job ∈ Extract.jobs (Tree.ofFolder folder))
    (report report' : Extract.Report) :
    ∃ s₁ s₁' u r r', Abreast refuses s₁ s₁' ∧ Extract.Outlined folder u ∧
      Extract.run server options jobs report s t = (s₁, u, .ok r) ∧
      Extract.run server' options jobs report' s' t = (s₁', u, .ok r') := by
  induction jobs generalizing s s' t report report' with
  | nil => exact ⟨s, s', t, report, report', hs, ht, rfl, rfl⟩
  | cons job jobs ih =>
      obtain ⟨next, chosen, spares⟩ := h.outline hs options job
      rw [Extract.run, Extract.run]
      generalize Extract.outline server options s job = answer at next spares ⊢
      generalize Extract.outline server' options s' job = answer' at next spares ⊢
      obtain ⟨s₁, o⟩ := answer
      obtain ⟨s₁', o'⟩ := answer'
      have entered : Extract.Outlined folder (Extract.enter t [(job, o)]) :=
        ht.enter fun a ha => by
          rw [List.mem_singleton.mp ha]
          exact hjobs job List.mem_cons_self
      have hentries : [o'].map Extract.entries = [o].map Extract.entries :=
        congrArg (fun es => [es]) spares.entries_eq.symm
      have same : Extract.enter t [(job, o')] = Extract.enter t [(job, o)] :=
        Extract.enter_congr hentries t [job]
      obtain ⟨s₂, s₂', u, r, r', hlast, hu, hrun, hrun'⟩ := ih next entered
        (fun job' hjob' => hjobs job' (List.mem_cons_of_mem job hjob'))
        (report.tally [(job, o)]) (report'.tally [(job, o')])
      refine ⟨s₂, s₂', u, r, r', hlast, hu, ?_, ?_⟩
      · dsimp only
        rw [next.running, if_neg Bool.false_ne_true, Extract.absorb_eq spares.harmless.1]
        exact hrun
      · dsimp only
        rw [next.running', if_neg Bool.false_ne_true, Extract.absorb_eq spares.harmless.2, same]
        exact hrun'

/-- Both servers are asked all questions. -/
theorem ask (h : ServerRefuses refuses server server') (hs : Abreast refuses s s')
    (qs : List Resolve.Query) :
    Abreast refuses (Resolve.ask server qs s).1 (Resolve.ask server' qs s').1 ∧
      List.Forall₂ Spared (Resolve.ask server qs s).2 (Resolve.ask server' qs s').2 := by
  induction qs generalizing s s' with
  | nil => exact ⟨hs, .nil⟩
  | cons q qs ih =>
      have next : Abreast refuses (s.references server q.uri q.position).1
          (s'.references server' q.uri q.position).1 :=
        hs.record (h.patient s.calls (.references q.uri q.position)).1
          (h.patient s'.calls (.references q.uri q.position)).2 nofun
      rw [ask_cons, ask_cons, consult_of_running hs.running, consult_of_running hs.running']
      exact ⟨(ih next).1, .cons ⟨_, h.used hs.calls⟩ (ih next).2⟩

/-- Both runs record the same dependencies. -/
theorem resolve (h : ServerRefuses refuses server server') (hs : Abreast refuses s s')
    (ht : Extract.Outlined folder t) :
    ∃ u, (resolve server s t).2 = .ok u ∧ (resolve server' s' t).2 = .ok u := by
  obtain ⟨hlast, outcomes⟩ := h.ask hs (Resolve.queries t)
  have unbroken := Spared.not_broken outcomes
  obtain ⟨u, hfinish, -⟩ := finish_resolvedTree ht (Resolve.ask server (Resolve.queries t) s).2
  refine ⟨u, ?_, ?_⟩
  · rw [resolve_eq_finish ht.wellFormed hs.running hlast.running unbroken.1, hfinish]
  · rw [resolve_eq_finish ht.wellFormed hs.running' hlast.running' unbroken.2, resolvedTree,
      ← places_congr (Spared.map_located_eq outcomes) (Resolve.queries t)]
    exact hfinish

theorem run (h : ServerRefuses refuses server server') (folder : Folder)
    (options : Extract.Options) (processId : Nat) :
    ∃ t, (run (.ok folder) options server processId (.start false)).2 = .ok t ∧
      (run (.ok folder) options server' processId (.start false)).2 = .ok t := by
  have greeted : Abreast refuses
      ((Session.start false).handshake server folder.path processId).1
      ((Session.start false).handshake server' folder.path processId).1 :=
    Abreast.record ⟨.start, rfl, rfl⟩ (h.patient [] (.handshake folder.path processId)).1
      (h.patient [] (.handshake folder.path processId)).2 nofun
  obtain ⟨s, s', t, r, r', hs, ht, hrun, hrun'⟩ := h.extract greeted
    (Extract.Outlined.loaded folder) options (fun _ hjob => hjob)
    ⟨(Extract.jobs (Tree.ofFolder folder)).length, 0, 0⟩
    ⟨(Extract.jobs (Tree.ofFolder folder)).length, 0, 0⟩
  obtain ⟨u, hu, hu'⟩ := h.resolve hs ht
  exact ⟨u, (run_eq_resolve (h.greeted [] folder.path processId).1 hrun).trans hu,
    (run_eq_resolve (h.greeted [] folder.path processId).2 hrun').trans hu'⟩

end ServerRefuses

end Analysis

end SourceAtlas
