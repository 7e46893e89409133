import SourceAtlas.Proofs.Analysis.Abreast
import SourceAtlas.Proofs.Analysis.Cancellation
import SourceAtlas.Proofs.Analysis.Outlining
/-!
# How a run ends

A run that nothing cancels ends in one of four ways (`Ending`): the greeting is rejected, a
visit to a file stops it, the connection breaks under a question, or it finishes. In each of
them it is settled which calls were made and in what order.

Whether it finishes can be read off the calls alone (`Passes`): each phase has its own errors
that it puts up with, and a run finishes when no call came to any other.
-/

namespace SourceAtlas

namespace Analysis

variable {server : Server} {options : Extract.Options} {folder : Folder} {processId : Nat}
  {s : Session} {t : Tree}

/-! ## Questions -/

theorem running_of_resolve (h : (resolve server s t).1.cancelled = false) :
    s.cancelled = false := by
  cases hs : s.cancelled with
  | false => rfl
  | true =>
      rw [resolve, ensureRunning, hs] at h
      exact hs.symm.trans h

/-- The questions of a run are all that is asked while it resolves dependencies. -/
theorem resolve_fst (server : Server) (t : Tree) (hs : s.cancelled = false) :
    (resolve server s t).1 = (Resolve.ask server (Resolve.queries t) s).1 := by
  rw [resolve, ensureRunning_of_running hs]
  dsimp only
  rw [Tree.resolveDependencies]
  dsimp only
  generalize t.resolveWith _ _ = resolved
  obtain ⟨t', e | report⟩ := resolved
  · rfl
  · dsimp only
    split <;> rfl

/-- Questions break the connection, or what they come to is recorded. -/
theorem resolve_cases (ht : t.WellFormed)
    (hlast : (resolve server s t).1.cancelled = false) :
    (resolve server s t).1.calls = s.calls ++ (Resolve.queries t).map Resolve.Query.call ∧
    ∃ outcomes, Resolve.Answered server s.calls (Resolve.queries t) outcomes ∧
      ((∃ reason, Severed server (resolve server s t).1 reason ∧
        t.resolveDependencies server s =
          ((resolve server s t).1, t, .error (.transport reason)) ∧
        (resolve server s t).2 = .error (.transport reason)) ∨
      ((∀ o ∈ outcomes, ¬ Resolve.Broken o) ∧
        (resolve server s t).2 = finish (resolvedTree t outcomes))) := by
  have hs := running_of_resolve hlast
  have hfst := resolve_fst server t hs
  rw [hfst] at hlast ⊢
  obtain ⟨hcalls, hanswered⟩ := Resolve.answered_ask hlast
  refine ⟨hcalls, _, hanswered, ?_⟩
  by_cases hbroken : ∃ o ∈ (Resolve.ask server (Resolve.queries t) s).2, Resolve.Broken o
  · obtain ⟨reason, hmem, hgather⟩ := Resolve.gather_of_broken hbroken (.refl _)
      (Resolve.queries t).length (Resolve.ask server (Resolve.queries t) s).1.cancelled
    have hresolved := Resolve.resolveWith_of_gather_error hgather
    have hdependencies : t.resolveDependencies server s =
        ((Resolve.ask server (Resolve.queries t) s).1, t, .error (.transport reason)) := by
      rw [Tree.resolveDependencies]
      dsimp only
      rw [hresolved]
    refine .inl ⟨reason, severed_of_mem_ask hmem, hdependencies, ?_⟩
    rw [resolve, ensureRunning_of_running hs]
    dsimp only
    rw [hdependencies]
  · have hnone : ∀ o ∈ (Resolve.ask server (Resolve.queries t) s).2, ¬ Resolve.Broken o :=
      fun o ho hb => hbroken ⟨o, ho, hb⟩
    exact .inr ⟨hnone, resolve_eq_finish ht hs hlast hnone⟩

/-! ## The four endings -/

/-- The first call of every run. -/
def greeting (folder : Folder) (processId : Nat) : Call :=
  .handshake folder.path processId

/-- The visits a run makes, as long as none of them stops it. -/
def runVisits (folder : Folder) (options : Extract.Options) (server : Server)
    (processId : Nat) : List Visit :=
  visits server options [greeting folder processId] folder.sources

/-- The tree of a folder with what came of visits to all its files. -/
def visitedTree (folder : Folder) (vs : List Visit) : Tree :=
  Extract.enter (Tree.ofFolder folder)
    ((Extract.jobs (Tree.ofFolder folder)).zip (vs.map Visit.outcome))

/-- How a run ends that nothing cancels. -/
inductive Ending (folder : Folder) (options : Extract.Options) (server : Server)
    (processId : Nat) (s : Session) : Except Failure Tree → Prop where
  /-- The greeting is rejected, and nothing else is asked. -/
  | refused {e : CallError} :
      (server.handshake [] folder.path processId).result = .error e →
      s.calls = [greeting folder processId] →
      Ending folder options server processId s (.error (.ofCall e))
  /-- The visit to a file stops the run, and nothing is asked after it. -/
  | stopped {earlier : List Visit} {v : Visit} {e : CallError} :
      (server.handshake [] folder.path processId).result = .ok () →
      StopsAt (runVisits folder options server processId) earlier v e →
      s.calls = greeting folder processId :: (earlier ++ [v]).flatMap Visit.calls →
      Ending folder options server processId s (.error (.ofCall e))
  /-- All files are visited and all questions are asked, and the connection breaks under one of
  them. The tree is left as it was before the questions. -/
  | severed {s' : Session} {t : Tree} {reason : String} :
      (server.handshake [] folder.path processId).result = .ok () →
      (∀ v ∈ runVisits folder options server processId, Harmless v.outcome) →
      t = visitedTree folder (runVisits folder options server processId) →
      s'.calls = greeting folder processId ::
        (runVisits folder options server processId).flatMap Visit.calls →
      s.calls = s'.calls ++ (Resolve.queries t).map Resolve.Query.call →
      Severed server s reason →
      t.resolveDependencies server s' = (s, t, .error (.transport reason)) →
      (∀ k, t.edgeCount k = 0) →
      Ending folder options server processId s (.error (.transport reason))
  /-- All files are visited, all questions are asked, and what they come to is recorded. -/
  | finished {t t' : Tree} {outcomes : List Resolve.Outcome} :
      (server.handshake [] folder.path processId).result = .ok () →
      (∀ v ∈ runVisits folder options server processId, Harmless v.outcome) →
      t = visitedTree folder (runVisits folder options server processId) →
      s.calls = (greeting folder processId ::
        (runVisits folder options server processId).flatMap Visit.calls) ++
          (Resolve.queries t).map Resolve.Query.call →
      Resolve.Answered server (greeting folder processId ::
        (runVisits folder options server processId).flatMap Visit.calls)
          (Resolve.queries t) outcomes →
      (∀ o ∈ outcomes, ¬ Resolve.Broken o) →
      finish (resolvedTree t outcomes) = .ok t' →
      Ending folder options server processId s (.ok t')

theorem running_of_extract {jobs : List Extract.Job} {report : Extract.Report}
    (h : (Extract.run server options jobs report s t).1.cancelled = false) :
    s.cancelled = false := by
  cases jobs with
  | nil => exact h
  | cons job jobs =>
      cases hs : s.cancelled with
      | false => rfl
      | true =>
          rw [Extract.run, Extract.outline, if_pos hs] at h
          dsimp only at h
          rw [if_pos hs] at h
          exact hs.symm.trans h

theorem outlined_visitedTree (folder : Folder) (vs : List Visit) :
    Extract.Outlined folder (visitedTree folder vs) :=
  (Extract.Outlined.loaded folder).enter fun _ ha => (List.of_mem_zip ha).1

/-- Visits to files record no dependencies. -/
theorem edgeCount_visitedTree (folder : Folder) (vs : List Visit) (k : EdgeClass) :
    (visitedTree folder vs).edgeCount k = 0 := by
  have houtlined := outlined_visitedTree folder vs
  rw [← Tree.length_edgesOf, List.length_eq_zero_iff, List.eq_nil_iff_forall_not_mem]
  intro p hp
  rw [houtlined.wellFormed.mem_edgesOf, (houtlined.links_eq_nil p.1 k).1] at hp
  cases hp

/-- After visits to all files, the questions settle how a run ends. -/
theorem ending_resolve {s' : Session} {r : Except Failure Tree}
    (hgreeted : (server.handshake [] folder.path processId).result = .ok ())
    (hharmless : ∀ v ∈ runVisits folder options server processId, Harmless v.outcome)
    (hcalls' : s'.calls = greeting folder processId ::
      (runVisits folder options server processId).flatMap Visit.calls)
    (h : resolve server s' (visitedTree folder (runVisits folder options server processId)) =
      (s, r))
    (hs : s.cancelled = false) : Ending folder options server processId s r := by
  have houtlined := outlined_visitedTree folder (runVisits folder options server processId)
  have hcases := resolve_cases houtlined.wellFormed (by rw [h]; exact hs)
  rw [h] at hcases
  obtain ⟨hcalls, outcomes, hanswered, ⟨reason, hsevered, hdependencies, hr⟩ | ⟨hunbroken, hr⟩⟩ :=
    hcases
  · obtain rfl : r = .error (.transport reason) := hr
    exact .severed hgreeted hharmless rfl hcalls' hcalls hsevered hdependencies
      fun k => edgeCount_visitedTree folder _ k
  · obtain ⟨t', hfinish, -⟩ := finish_resolvedTree houtlined outcomes
    obtain rfl : r = .ok t' := hr.trans hfinish
    rw [hcalls'] at hcalls hanswered
    exact .finished hgreeted hharmless rfl hcalls hanswered hunbroken hfinish

/-- After the greeting, the visits settle whether a run comes to its questions. -/
theorem ending_extract {r : Except Failure Tree}
    (hgreeted : (server.handshake [] folder.path processId).result = .ok ())
    {s₁ : Session} (hcalls₁ : s₁.calls = [greeting folder processId])
    (h : (match (Tree.ofFolder folder).extractSymbols server options s₁ with
      | (s, _, .error e) => (s, .error e)
      | (s, t, .ok _) => resolve server s t) = (s, r))
    (hs : s.cancelled = false) : Ending folder options server processId s r := by
  rw [Tree.extractSymbols] at h
  obtain ⟨s₂, t, extracted, hextract⟩ : ∃ s₂ t extracted, Extract.run server options
      (Extract.jobs (Tree.ofFolder folder))
      ⟨(Extract.jobs (Tree.ofFolder folder)).length, 0, 0⟩ s₁ (Tree.ofFolder folder) =
        (s₂, t, extracted) := ⟨_, _, _, rfl⟩
  rw [hextract] at h
  have hs₂ : s₂.cancelled = false := by
    cases extracted with
    | error e => cases h; exact hs
    | ok report =>
        have hresolve : resolve server s₂ t = (s, r) := h
        exact running_of_resolve (by rw [hresolve]; exact hs)
  have hs₁ : s₁.cancelled = false := running_of_extract (by rw [hextract]; exact hs₂)
  have hcases := extract_cases server options (Extract.asksFor_sources folder) hs₁
    ⟨(Extract.jobs (Tree.ofFolder folder)).length, 0, 0⟩ (Tree.ofFolder folder)
    (by rw [hextract]; exact hs₂)
  rw [hextract, hcalls₁] at hcases
  rcases hcases with ⟨hharmless, s₂', report, heq, hcalls₂⟩ |
    ⟨earlier, v, e, hstops, hresult, hcalls₂⟩
  · cases heq
    exact ending_resolve hgreeted hharmless hcalls₂ h hs
  · obtain rfl : extracted = .error (.ofCall e) := hresult
    cases h
    exact .stopped hgreeted hstops hcalls₂

/-- A run that nothing cancels ends in one of the four ways. -/
theorem ending_run {r : Except Failure Tree}
    (h : run (.ok folder) options server processId (.start false) = (s, r))
    (hs : s.cancelled = false) : Ending folder options server processId s r := by
  have hanswer : (Session.start false).handshake server folder.path processId =
      (((Session.start false).handshake server folder.path processId).1,
        (server.handshake [] folder.path processId).result) := rfl
  rw [run, analyze, ensureRunning_of_running rfl, hanswer] at h
  cases hgreeted : (server.handshake [] folder.path processId).result with
  | error e =>
      rw [hgreeted] at h
      cases h
      exact .refused hgreeted rfl
  | ok =>
      rw [hgreeted] at h
      exact ending_extract hgreeted rfl h hs

/-! ## Calls that pass -/

/-- A run puts up with what a call comes to after some calls. The greeting has to succeed,
files may be refused, and a question may fail as long as the connection holds. -/
def Tolerates (server : Server) (before : List Call) : Call → Prop
  | .handshake root processId => (server.handshake before root processId).result = .ok ()
  | .openDocument uri language text => Harmless (server.openDocument before uri language text).result
  | .outline uri => Harmless (server.outline before uri).result
  | .references uri position => ¬ Resolve.Broken (server.references before uri position).result
  | .shutdown | .notify _ _ | .request _ _ => True

/-- A run puts up with what each of its calls came to. -/
def Passes (server : Server) (calls : List Call) : Prop :=
  ∀ before call after, calls = before ++ call :: after → Tolerates server before call

namespace Passes

variable {before calls after : List Call} {call : Call}

theorem nil (server : Server) : Passes server [] := by
  intro before call after h
  simp at h

theorem of_append (h : Passes server (before ++ after)) : Passes server before := by
  rintro earlier call later rfl
  exact h earlier call (later ++ after) (by simp)

theorem concat_iff :
    Passes server (calls ++ [call]) ↔ Passes server calls ∧ Tolerates server calls call := by
  constructor
  · exact fun h => ⟨h.of_append, h calls call [] rfl⟩
  · rintro ⟨h, hcall⟩ before call' after heq
    rcases append_cons_eq_concat heq with ⟨rfl, rfl, rfl⟩ | ⟨after', heq', -⟩
    · exact hcall
    · exact h before call' after' heq'

/-- The calls about a file pass when its visit does not stop the run. -/
theorem append_visit_iff (h : Passes server before) (file : SourceFile) :
    Passes server (before ++ (visit server options before file).calls) ↔
      Harmless (visit server options before file).outcome := by
  simp only [visit]
  split
  · split
    · next hopened =>
        have announced : Harmless
            (server.openDocument before (Uri.ofPath file.path) options.language file.code).result := by
          rw [hopened]
          intro e he
          cases he
        rw [List.append_cons, concat_iff, concat_iff]
        exact ⟨And.right, fun hlast => ⟨⟨h, announced⟩, hlast⟩⟩
    · next e hopened =>
        rw [concat_iff, Tolerates, hopened]
        simp [h, Harmless]
  · rw [concat_iff]
    exact and_iff_right h

theorem append_visits_iff (h : Passes server before) (files : List SourceFile) :
    Passes server (before ++ (visits server options before files).flatMap Visit.calls) ↔
      ∀ v ∈ visits server options before files, Harmless v.outcome := by
  induction files generalizing before with
  | nil => simpa using h
  | cons file files ih =>
      rw [visits_cons, List.flatMap_cons, ← List.append_assoc, List.forall_mem_cons,
        ← h.append_visit_iff]
      constructor
      · exact fun hall => ⟨hall.of_append, (ih hall.of_append).mp hall⟩
      · exact fun hall => (ih hall.1).mpr hall.2

/-- Questions pass that do not come to a broken connection. -/
theorem append_questions (h : Passes server before) {qs : List Resolve.Query}
    {outcomes : List Resolve.Outcome} (hanswered : Resolve.Answered server before qs outcomes)
    (hunbroken : ∀ o ∈ outcomes, ¬ Resolve.Broken o) :
    Passes server (before ++ qs.map Resolve.Query.call) := by
  have holds (i : Nat) (q : Resolve.Query) (hq : qs[i]? = some q) : ¬ Resolve.Broken
      (server.references (before ++ (qs.take i).map Resolve.Query.call) q.uri q.position).result :=
    hunbroken _ (List.mem_of_getElem? (hanswered.2 i q hq))
  clear hanswered hunbroken
  induction qs generalizing before with
  | nil => simpa using h
  | cons q qs ih =>
      have unbroken := holds 0 q rfl
      rw [List.take_zero, List.map_nil, List.append_nil] at unbroken
      have first : Passes server (before ++ [q.call]) := concat_iff.mpr ⟨h, unbroken⟩
      rw [List.map_cons, List.append_cons]
      refine ih first fun i q' hq' => ?_
      simpa using holds (i + 1) q' hq'

end Passes

/-- Each visit is made after the calls of those before it. -/
theorem eq_visit_of_visits_eq {before : List Call} {files : List SourceFile}
    {earlier later : List Visit} {v : Visit}
    (h : visits server options before files = earlier ++ v :: later) :
    v = visit server options (before ++ earlier.flatMap Visit.calls) v.file := by
  induction earlier generalizing before files with
  | nil =>
      cases files with
      | nil => cases h
      | cons file files =>
          rw [visits_cons] at h
          obtain ⟨rfl, -⟩ := List.cons.inj h
          rw [file_visit, List.flatMap_nil, List.append_nil]
  | cons u earlier ih =>
      cases files with
      | nil => cases h
      | cons file files =>
          rw [visits_cons] at h
          obtain ⟨rfl, hrest⟩ := List.cons.inj h
          rw [List.flatMap_cons, ← List.append_assoc]
          exact ih hrest

/-! ## Main statement -/

/-- The failure of a call cancels the run if the call was cancelled, and counts as a broken
connection otherwise. -/
theorem ofCall_cases (e : CallError) :
    (e = .cancelled ∧ Failure.ofCall e = .cancelled) ∨
      (e ≠ .cancelled ∧ ∃ reason, Failure.ofCall e = .transport reason) := by
  cases e with
  | cancelled => exact .inl ⟨rfl, rfl⟩
  | transport reason => exact .inr ⟨nofun, reason, rfl⟩
  | response code message => exact .inr ⟨nofun, _, rfl⟩
  | decode method reason => exact .inr ⟨nofun, _, rfl⟩

theorem Ending.passes_iff {r : Except Failure Tree}
    (h : Ending folder options server processId s r) :
    Passes server s.calls ↔ ∃ t, r = .ok t := by
  have greeted (hgreeted : (server.handshake [] folder.path processId).result = .ok ()) :
      Passes server ([] ++ [greeting folder processId]) :=
    Passes.concat_iff.mpr ⟨.nil server, hgreeted⟩
  cases h with
  | @refused e hgreeted hcalls =>
      refine ⟨fun hpasses => ?_, fun ⟨t, ht⟩ => by cases ht⟩
      have hok := hpasses [] (greeting folder processId) [] hcalls
      cases hgreeted.symm.trans hok
  | @stopped earlier v e hgreeted hstops hcalls =>
      refine ⟨fun hpasses => ?_, fun ⟨t, ht⟩ => by cases ht⟩
      obtain ⟨later, hvisits⟩ := hstops.visits
      rw [hcalls, ← List.singleton_append, List.flatMap_append, ← List.append_assoc,
        List.flatMap_singleton, eq_visit_of_visits_eq hvisits] at hpasses
      have hharmless := (hpasses.of_append.append_visit_iff _).mp hpasses
      rw [← eq_visit_of_visits_eq hvisits] at hharmless
      have hfatal := hharmless e hstops.outcome
      rw [hstops.fatal] at hfatal
      cases hfatal
  | severed hgreeted hharmless ht hcalls₁ hcalls hsevered =>
      refine ⟨fun hpasses => ?_, fun ⟨t, ht⟩ => by cases ht⟩
      obtain ⟨before, uri, position, after, heq, hbroken⟩ := hsevered
      exact absurd ⟨_, hbroken⟩ (hpasses before (.references uri position) after heq)
  | @finished t t' outcomes hgreeted hharmless ht hcalls hanswered hunbroken hfinish =>
      refine ⟨fun _ => ⟨t', rfl⟩, fun _ => ?_⟩
      rw [hcalls]
      have visited := ((greeted hgreeted).append_visits_iff folder.sources).mpr hharmless
      exact visited.append_questions hanswered hunbroken

/-- A run that nothing cancels succeeds exactly when its folder loads and it puts up with what
each of its calls comes to. Otherwise it fails with the reason the folder did not load, and
no call is made, or as its greeting did, or as the first visit that stopped it, after which
nothing is asked, or because the connection broke under a question, and then no dependency
is recorded. -/
theorem run_succeeds_iff_passes {loaded : Except Failure Folder} {r : Except Failure Tree}
    (h : run loaded options server processId (.start false) = (s, r))
    (hs : s.cancelled = false) :
    ((∃ t, r = .ok t) ↔ (∃ folder, loaded = .ok folder) ∧ Passes server s.calls) ∧
      (∀ f, r = .error f → (loaded = .error f ∧ s.calls = []) ∨
        ∃ folder, loaded = .ok folder ∧ Ending folder options server processId s (.error f)) ∧
      ∀ e, (e = .cancelled ∧ Failure.ofCall e = .cancelled) ∨
        (e ≠ .cancelled ∧ ∃ reason, Failure.ofCall e = .transport reason) := by
  cases loaded with
  | error f =>
      cases h
      refine ⟨⟨nofun, ?_⟩, fun f' hf => .inl ⟨by rw [Except.error.inj hf], rfl⟩, ofCall_cases⟩
      rintro ⟨⟨folder, hfolder⟩, -⟩
      cases hfolder
  | ok folder =>
      have hending := ending_run h hs
      refine ⟨?_, fun f hf => .inr ⟨folder, rfl, hf ▸ hending⟩, ofCall_cases⟩
      rw [← hending.passes_iff]
      exact (and_iff_right ⟨folder, rfl⟩).symm

/-- A server that loses the connection under every question. -/
def losingServer : Server :=
  { tellingServer with references := fun _ _ _ => ⟨.error (.transport "lost"), false⟩ }

/-- A run that is never cancelled fails, and one of its calls is the reason. -/
theorem run_succeeds_iff_passes_losing :
    (run (.ok Tree.nestedFolder) ⟨"swift", true⟩ losingServer 1 (.start false)).1.cancelled =
        false ∧
      ¬ Passes losingServer
        (run (.ok Tree.nestedFolder) ⟨"swift", true⟩ losingServer 1 (.start false)).1.calls := by
  have hrunning : (run (.ok Tree.nestedFolder) ⟨"swift", true⟩ losingServer 1
      (.start false)).1.cancelled = false := by decide +kernel
  have hfails : (run (.ok Tree.nestedFolder) ⟨"swift", true⟩ losingServer 1
      (.start false)).2.isOk = false := by decide +kernel
  refine ⟨hrunning, fun hpasses => ?_⟩
  obtain ⟨t, ht⟩ := (run_succeeds_iff_passes (Prod.eta _).symm hrunning).1.mpr ⟨⟨_, rfl⟩, hpasses⟩
  rw [ht] at hfails
  cases hfails

end Analysis

end SourceAtlas
