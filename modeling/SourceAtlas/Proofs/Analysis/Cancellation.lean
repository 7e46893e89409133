import SourceAtlas.Proofs.Analysis.Halting
import SourceAtlas.Proofs.Analysis.Sequential
import SourceAtlas.Proofs.Tree.Containment
/-!
# Cancelling an analysis

However the calls of an analysis overlap, a cancellation before the dependencies are
recorded means that there will be no tree. Where calls are made one after another, the
call that was cancelled is the last one, except that a document that was announced is
still outlined (`cancelled_analysis_fails`).
-/

namespace SourceAtlas

namespace Analysis

variable {server : Server} {s : Session}

/-! ## The last call -/

/-- The calls that may follow the one that cancels a run. -/
inductive Closes : Call → List Call → Prop where
  | last (call : Call) : Closes call []
  | announced (uri language text : String) : Closes (.openDocument uri language text) [.outline uri]

/-- A call that was made and cancels the run closes it. -/
def Silent (server : Server) (s : Session) : Prop :=
  ∀ before call after, s.calls = before ++ call :: after → server.cancels before call = true →
    s.cancelled = true ∧ Closes call after

/-- A call in a list with one more call at its end is that one or one of the others. -/
theorem append_cons_eq_concat {calls before after : List Call} {call last : Call}
    (h : calls ++ [last] = before ++ call :: after) :
    (calls = before ∧ last = call ∧ after = []) ∨
      ∃ after', calls = before ++ call :: after' ∧ after = after' ++ [last] := by
  rcases after.eq_nil_or_concat' with rfl | ⟨after', last', rfl⟩
  · obtain ⟨hcalls, hlast⟩ := List.append_inj' h rfl
    exact .inl ⟨hcalls, List.head_eq_of_cons_eq hlast, rfl⟩
  · rw [← List.cons_append, ← List.append_assoc] at h
    obtain ⟨hcalls, hlast⟩ := List.append_inj' h rfl
    exact .inr ⟨after', hcalls, by rw [List.head_eq_of_cons_eq hlast]⟩

theorem silent_start (server : Server) (cancelled : Bool) : Silent server (.start cancelled) := by
  intro before call after h
  exact absurd h.symm (by simp [Session.start])

namespace Silent

/-- A run that is not cancelled may make any call. -/
theorem record {α : Type} (h : Silent server s) (hs : s.cancelled = false) (call : Call)
    (answer : Served α) (hanswer : server.cancels s.calls call = answer.cancels) :
    Silent server (s.record call answer) := by
  intro before call' after hcalls hcancels
  rcases append_cons_eq_concat hcalls with ⟨rfl, rfl, rfl⟩ | ⟨after', hcalls', -⟩
  · exact ⟨by rw [Session.record, ← hanswer, hcancels, Bool.or_true], .last _⟩
  · have hcancelled := (h before call' after' hcalls' hcancels).1
    rw [hs] at hcancelled
    cases hcancelled

/-- An announced document is outlined, even if the run was cancelled meanwhile. -/
theorem announce (h : Silent server s) (hs : s.cancelled = false) (uri language text : String) :
    Silent server ((s.openDocument server uri language text).1.outline server uri).1 := by
  intro before call after hcalls hcancels
  rcases append_cons_eq_concat hcalls with ⟨rfl, rfl, rfl⟩ | ⟨after', hcalls', rfl⟩
  · refine ⟨?_, .last _⟩
    simp only [Session.outline, Session.record]
    rw [Bool.or_eq_true]
    exact .inr hcancels
  · rcases append_cons_eq_concat hcalls' with ⟨rfl, rfl, rfl⟩ | ⟨after'', hcalls'', -⟩
    · refine ⟨?_, .announced uri language text⟩
      simp only [Session.outline, Session.openDocument, Session.record]
      rw [Bool.or_eq_true, Bool.or_eq_true]
      exact .inl (.inr hcancels)
    · have hcancelled := (h before call after'' hcalls'' hcancels).1
      rw [hs] at hcancelled
      cases hcancelled

/-- A cancelled run asks for no further outline. -/
theorem outline (h : Silent server s) (options : Extract.Options) (job : Extract.Job) :
    Silent server (Extract.outline server options s job).1 := by
  rw [Extract.outline]
  split
  · exact h
  · next hs =>
      have hs : s.cancelled = false := by simpa using hs
      split
      · have opened : Silent server (s.openDocument server job.uri options.language job.text).1 :=
          h.record hs _ _ rfl
        have outlined := h.announce hs job.uri options.language job.text
        generalize s.openDocument server job.uri options.language job.text = answer
          at opened outlined ⊢
        obtain ⟨s', e | _⟩ := answer
        · exact opened
        · exact outlined
      · exact h.record hs _ _ rfl

/-- A run that was cancelled while files are outlined fails for no other reason. -/
theorem extract (h : Silent server s) (options : Extract.Options) (jobs : List Extract.Job)
    (report : Extract.Report) (t : Tree) :
    Silent server (Extract.run server options jobs report s t).1 ∧
      ∀ e, (Extract.run server options jobs report s t).2.2 = .error e →
        (Extract.run server options jobs report s t).1.cancelled = true → e = .cancelled := by
  induction jobs generalizing s report t with
  | nil => exact ⟨h, nofun⟩
  | cons job jobs ih =>
      have houtlined := h.outline options job
      rw [Extract.run]
      generalize Extract.outline server options s job = answer at houtlined
      obtain ⟨s', outcome⟩ := answer
      dsimp only at houtlined ⊢
      split
      · exact ⟨houtlined, fun e he _ => (Except.error.inj he).symm⟩
      · next hs =>
          split
          · exact ih houtlined _ _
          · exact ⟨houtlined, fun e _ hcancelled => absurd hcancelled hs⟩

/-- A cancelled run asks no further question. -/
theorem consult (h : Silent server s) (q : Resolve.Query) :
    Silent server (consult server s q).1 := by
  rw [Analysis.consult]
  split
  · exact h
  · next hs => exact h.record (by simpa using hs) _ _ rfl

theorem ask (h : Silent server s) (qs : List Resolve.Query) :
    Silent server (Resolve.ask server qs s).1 := by
  induction qs generalizing s with
  | nil => exact h
  | cons q qs ih =>
      rw [ask_cons]
      exact ih (h.consult q)

end Silent

/-! ## How a cancelled run ends -/

/-- The connection broke while a question of a run was answered. -/
def Severed (server : Server) (s : Session) (reason : String) : Prop :=
  ∃ before uri position after, s.calls = before ++ .references uri position :: after ∧
    (server.references before uri position).result = .error (.transport reason)

/-- Calls are added at the end. -/
theorem calls_prefix_ask (server : Server) (qs : List Resolve.Query) (s : Session) :
    s.calls <+: (Resolve.ask server qs s).1.calls := by
  induction qs generalizing s with
  | nil => exact List.prefix_rfl
  | cons q qs ih =>
      rw [ask_cons]
      refine List.IsPrefix.trans ?_ (ih _)
      rw [consult]
      split
      · exact List.prefix_rfl
      · exact List.prefix_append _ _

theorem severed_of_mem_ask {qs : List Resolve.Query} {reason : String}
    (h : .error (.transport reason) ∈ (Resolve.ask server qs s).2) :
    Severed server (Resolve.ask server qs s).1 reason := by
  induction qs generalizing s with
  | nil => cases h
  | cons q qs ih =>
      rw [ask_cons] at h ⊢
      rcases List.mem_cons.mp h with heq | hmem
      · have hprefix := calls_prefix_ask server qs (consult server s q).1
        rw [consult] at heq hprefix
        split at heq
        · cases heq
        · next hs =>
            rw [if_neg hs] at hprefix
            obtain ⟨after, hafter⟩ := hprefix
            exact ⟨s.calls, q.uri, q.position, after, by
              rw [consult, if_neg hs, ← hafter]
              simp [Session.references, Session.record], heq.symm⟩
      · exact ih hmem

/-- How a run may fail that was cancelled: it was cancelled, or the handshake fails in which
that happened, or the connection breaks under a question. -/
inductive Cause (folder : Folder) (server : Server) (processId : Nat) (s : Session) :
    Failure → Prop where
  | cancelled : Cause folder server processId s .cancelled
  | handshake {e : CallError} : s.calls = [.handshake folder.path processId] →
      server.handshake [] folder.path processId = ⟨.error e, true⟩ →
      Cause folder server processId s (.ofCall e)
  | severed {reason : String} : Severed server s reason →
      Cause folder server processId s (.transport reason)

variable {folder : Folder} {processId : Nat}

theorem silent_resolve (h : Silent server s) (t : Tree) :
    Silent server (resolve server s t).1 ∧ ((resolve server s t).1.cancelled = true →
      ∃ f, (resolve server s t).2 = .error f ∧
        Cause folder server processId (resolve server s t).1 f) := by
  rw [resolve, ensureRunning]
  cases hs : s.cancelled with
  | true => exact ⟨h, fun _ => ⟨.cancelled, rfl, .cancelled⟩⟩
  | false =>
      have hasked := h.ask (Resolve.queries t)
      have hsevered (reason : String) :
          .error (.transport reason) ∈ (Resolve.ask server (Resolve.queries t) s).2 →
            Severed server (Resolve.ask server (Resolve.queries t) s).1 reason :=
        severed_of_mem_ask
      simp only [Tree.resolveDependencies]
      generalize Resolve.ask server (Resolve.queries t) s = answer at hasked hsevered
      obtain ⟨s', outcomes⟩ := answer
      dsimp only at hasked hsevered ⊢
      cases hs' : s'.cancelled with
      | true =>
          obtain ⟨e, hfailed, he⟩ := Resolve.resolveWith_cancelled t (Resolve.numbered outcomes)
          rw [hfailed]
          refine ⟨hasked, fun _ => ⟨e, rfl, ?_⟩⟩
          rcases he with rfl | ⟨n, reason, hmem, rfl⟩
          · exact .cancelled
          · exact .severed (hsevered reason (List.mem_of_getElem? (Resolve.mem_numbered.mp hmem)))
      | false =>
          have unbroken {P : Prop} (hcancelled : s'.cancelled = true) : P := by
            rw [hs'] at hcancelled
            cases hcancelled
          generalize t.resolveWith false (Resolve.numbered outcomes) = resolved
          obtain ⟨t', e | report⟩ := resolved
          · exact ⟨hasked, unbroken⟩
          · dsimp only
            rw [ensureRunning_of_running hs']
            exact ⟨hasked, unbroken⟩

theorem silent_analyze (folder : Folder) (options : Extract.Options) (server : Server)
    (processId : Nat) (cancelled : Bool) :
    Silent server (analyze folder options server processId (.start cancelled)).1 ∧
      ((analyze folder options server processId (.start cancelled)).1.cancelled = true →
        ∃ f, (analyze folder options server processId (.start cancelled)).2 = .error f ∧
          Cause folder server processId
            (analyze folder options server processId (.start cancelled)).1 f) := by
  rw [analyze]
  cases cancelled with
  | true => exact ⟨silent_start server true, fun _ => ⟨.cancelled, rfl, .cancelled⟩⟩
  | false =>
      have greeted : Silent server
          ((Session.start false).handshake server folder.path processId).1 :=
        (silent_start server false).record rfl _ _ rfl
      rw [ensureRunning_of_running rfl]
      simp only [Session.handshake, Session.start] at greeted ⊢
      generalize hanswer : server.handshake [] folder.path processId = answer at greeted ⊢
      obtain ⟨result, cancels⟩ := answer
      generalize hs : (⟨[], false⟩ : Session).record (.handshake folder.path processId)
        (⟨result, cancels⟩ : Served Unit) = s at greeted ⊢
      cases result with
      | error e =>
          refine ⟨greeted, fun hcancelled => ⟨.ofCall e, rfl, .handshake ?_ ?_⟩⟩
          · rw [← hs]
            rfl
          · rw [← hs] at hcancelled
            rw [hanswer, show cancels = true from hcancelled]
      | ok =>
          have hextracted := greeted.extract options (Extract.jobs (Tree.ofFolder folder))
            ⟨(Extract.jobs (Tree.ofFolder folder)).length, 0, 0⟩ (Tree.ofFolder folder)
          dsimp only
          rw [Tree.extractSymbols]
          generalize Extract.run server options (Extract.jobs (Tree.ofFolder folder)) _ s
            (Tree.ofFolder folder) = extracted at hextracted ⊢
          obtain ⟨s', t, e | report⟩ := extracted
          · refine ⟨hextracted.1, fun hcancelled => ⟨e, rfl, ?_⟩⟩
            rw [hextracted.2 e rfl hcancelled]
            exact .cancelled
          · exact silent_resolve hextracted.1 t

/-! ## Main statement -/

/-- Whether a run was cancelled at its start or in one of the calls it made. -/
def Cancelled (server : Server) (cancelled : Bool) (s : Session) : Prop :=
  cancelled = true ∨ ∃ before call after, s.calls = before ++ call :: after ∧
    server.cancels before call = true

/-- What comes of a run that was cancelled: no tree, and no call after that. -/
structure Stops (folder : Folder) (server : Server) (processId : Nat) (cancelled : Bool)
    (outcome : Session × Except Failure Tree) : Prop where
  fails : ∃ f, outcome.2 = .error f ∧ Cause folder server processId outcome.1 f
  idle : cancelled = true → outcome.1.calls = []
  last : ∀ before call after, outcome.1.calls = before ++ call :: after →
    server.cancels before call = true → Closes call after

/-- An analysis that is cancelled before its dependencies are recorded gives no tree: it
fails because it was cancelled, or as the handshake does in which that happened, or because
the connection breaks under a question. This holds however its calls overlap. Where they
are made one after another none follows the cancellation, and at any time the resolver of
a cancelled run leaves the tree as it was. -/
theorem cancelled_analysis_fails (folder : Folder) (options : Extract.Options) :
    (∀ maxRequests cancelled before,
      ((Course.start folder options maxRequests cancelled).play before).cancelled = true →
      ((Course.start folder options maxRequests cancelled).play before).phase.isEarly = true →
        Course.EndsCancelled (.start folder options maxRequests cancelled) before) ∧
    (∀ server processId cancelled,
      Cancelled server cancelled
          (run (.ok folder) options server processId (.start cancelled)).1 →
        Stops folder server processId cancelled
          (run (.ok folder) options server processId (.start cancelled))) ∧
    ∀ (t : Tree) (server : Server) (s : Session),
      (t.resolveDependencies server s).1.cancelled = true →
        ∃ f, (t.resolveDependencies server s).2 = (t, .error f) := by
  refine ⟨fun maxRequests cancelled before hc hearly =>
    Course.endsCancelled folder options maxRequests cancelled hc hearly, ?_, ?_⟩
  · intro server processId cancelled hcancelled
    obtain ⟨hsilent, hfails⟩ := silent_analyze folder options server processId cancelled
    have hidle : cancelled = true →
        analyze folder options server processId (.start cancelled) =
          (.start true, .error .cancelled) := by
      rintro rfl
      rfl
    constructor
    case fails =>
      refine hfails ?_
      rcases hcancelled with hstart | ⟨before, call, after, hcalls, hcancels⟩
      · rw [hidle hstart]
        rfl
      · exact (hsilent before call after hcalls hcancels).1
    case idle =>
      intro hstart
      rw [run, hidle hstart]
      rfl
    case last =>
      exact fun before call after hcalls hcancels => (hsilent before call after hcalls hcancels).2
  · intro t server s hcancelled
    rw [Tree.resolveDependencies] at hcancelled ⊢
    obtain ⟨f, hfailed, -⟩ := Resolve.resolveWith_cancelled t
      (Resolve.numbered (Resolve.ask server (Resolve.queries t) s).2)
    refine ⟨f, ?_⟩
    rw [← hfailed, ← hcancelled]

/-- A server whose outlines take so long that the run is cancelled meanwhile. -/
def slowServer : Server where
  handshake _ _ _ := ⟨.ok (), false⟩
  openDocument _ _ _ _ := ⟨.ok (), false⟩
  outline _ _ := ⟨.ok [], true⟩
  references _ _ _ := ⟨.ok [], false⟩

/-- The run is cancelled while the first of two files is outlined, and while both are. -/
theorem cancelled_analysis_fails_slowServer :
    (∃ f, (run (.ok Tree.nestedFolder) ⟨"swift", true⟩ slowServer 1 (.start false)).2 =
      .error f) ∧
    ∀ after result, ((Course.start Tree.nestedFolder ⟨"swift", true⟩ 2 false).play
        ([.greet, .greeted (.ok ()), .launch 1, .launch 0, .cancel] ++ after)).phase =
      .ended result → ∃ f, result = .error f := by
  obtain ⟨hcourse, hrun, -⟩ := cancelled_analysis_fails Tree.nestedFolder ⟨"swift", true⟩
  refine ⟨?_, fun after result hended => ?_⟩
  · have hjobs : Extract.jobs (Tree.ofFolder Tree.nestedFolder) =
        [⟨2, "file:///app/core/core.swift", ""⟩, ⟨3, "file:///app/main.swift", ""⟩] := by
      decide +kernel
    have hcancelled : Cancelled slowServer false
        (run (.ok Tree.nestedFolder) ⟨"swift", true⟩ slowServer 1 (.start false)).1 := by
      refine .inr ⟨[.handshake ⟨"/app"⟩ 1, .openDocument "file:///app/core/core.swift" "swift" ""],
        .outline "file:///app/core/core.swift", [], ?_, rfl⟩
      simp only [run, analyze, Tree.extractSymbols, hjobs]
      rfl
    obtain ⟨f, hf, -⟩ := (hrun slowServer 1 false hcancelled).fails
    exact ⟨f, hf⟩
  · obtain ⟨f, hf, -⟩ := (hcourse 2 false _ rfl rfl).fails after result hended
    exact ⟨f, hf⟩

end Analysis

end SourceAtlas
