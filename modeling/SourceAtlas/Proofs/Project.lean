import SourceAtlas.Project
import SourceAtlas.Proofs.Load
/-!
# Projects through many analyses

A project is asked for one analysis after another, with a server to start or with one that
runs already. Whichever it is, and wherever the analysis ends, its result alone says what
becomes of the project (`fst_attempt`), so what a project holds between two analyses can be
read off the list of all results so far (`Remembers`). One more result keeps that up
(`Remembers.conclude`), hence any number of them does (`remembers_attempts`).
-/

namespace SourceAtlas

namespace Project

/-- One analysis of a project, with all that it meets. -/
inductive Attempt where
  /-- With the server that the configuration names, if starting it gives one. -/
  | starting (d : Disk) (started : Except Disk.Error Server) (processId : Nat) (s : Session)
  /-- With a server that is running already. -/
  | running (d : Disk) (server : Server) (processId : Nat) (s : Session)

def attempt (p : Project) : Attempt → Project × Except Failure Tree
  | .starting d started processId s => (p.analyze d started processId s).2
  | .running d server processId s => (p.analyzeWith d server processId s).2

/-- The project after analyses one after another, and what each of them gave. -/
def attempts (p : Project) : List Attempt → Project × List (Except Failure Tree)
  | [] => (p, [])
  | a :: as =>
      let (q, result) := p.attempt a
      let (last, results) := q.attempts as
      (last, result :: results)

theorem attempts_cons (p : Project) (a : Attempt) (as : List Attempt) :
    p.attempts (a :: as) =
      (((p.attempt a).1.attempts as).1, (p.attempt a).2 :: ((p.attempt a).1.attempts as).2) :=
  rfl

theorem length_attempts (p : Project) (as : List Attempt) :
    (p.attempts as).2.length = as.length := by
  induction as generalizing p with
  | nil => rfl
  | cons a as ih => rw [attempts_cons, List.length_cons, List.length_cons, ih]

/-! ## What an analysis leaves -/

/-- That an analysis was under way leaves no trace once it has a result. -/
theorem conclude_begin (p : Project) (result : Except Failure Tree) :
    p.begin.conclude result = p.conclude result := by
  cases result with
  | ok t => rfl
  | error e => cases e <;> rfl

/-- Every analysis, also one whose server could not be started, is concluded with the
result that it gives. -/
theorem fst_attempt (p : Project) (a : Attempt) :
    (p.attempt a).1 = p.conclude (p.attempt a).2 := by
  cases a with
  | running d server processId s => exact conclude_begin p _
  | starting d started processId s =>
      cases started with
      | error reason => rfl
      | ok server => exact conclude_begin p _

theorem fst_attempts (p : Project) (as : List Attempt) :
    (p.attempts as).1 = (p.attempts as).2.foldl conclude p := by
  induction as generalizing p with
  | nil => rfl
  | cons a as ih => rw [attempts_cons, List.foldl_cons, ← fst_attempt, ih]

theorem state_conclude_error (p : Project) {e : Failure} (he : e ≠ .cancelled) :
    (p.conclude (.error e)).state = .failed e.message := by
  cases e with
  | cancelled => exact absurd rfl he
  | _ => rfl

/-! ## What a project holds -/

/-- The trees among results, in their order. -/
def trees (results : List (Except Failure Tree)) : List Tree :=
  results.filterMap Except.toOption

theorem trees_concat_ok (results : List (Except Failure Tree)) (t : Tree) :
    trees (results ++ [.ok t]) = trees results ++ [t] := by
  rw [trees, List.filterMap_append]
  rfl

theorem trees_concat_error (results : List (Except Failure Tree)) (e : Failure) :
    trees (results ++ [.error e]) = trees results := by
  rw [trees, List.filterMap_append]
  exact List.append_nil _

/-- What a project holds after analyses with these results, the latest one last. -/
structure Remembers (p : Project) (results : List (Except Failure Tree)) : Prop where
  lastTree : p.lastTree = (trees results).getLast?
  succeeded : ∀ t, p.state = .succeeded t ↔ results.getLast? = some (.ok t)
  current : ∀ t, p.state = .succeeded t → p.lastTree = some t
  stopped : p.state = .stopped ↔ results = [] ∨ results.getLast? = some (.error .cancelled)
  failed : ∀ m, p.state = .failed m ↔
    ∃ e, e ≠ .cancelled ∧ e.message = m ∧ results.getLast? = some (.error e)
  idle : p.state ≠ .running

variable {p : Project} {results : List (Except Failure Tree)}

/-- A tree takes the place of the one that was remembered. -/
theorem Remembers.conclude_ok (p : Project) (results : List (Except Failure Tree)) (t : Tree) :
    Remembers (p.conclude (.ok t)) (results ++ [.ok t]) where
  lastTree := by rw [trees_concat_ok, List.getLast?_concat, Project.conclude_ok]
  succeeded u := by simp
  current u hu := by
    rw [Project.conclude_ok] at hu ⊢
    cases hu
    rfl
  stopped := by simp
  failed m := by simp
  idle := by rw [Project.conclude_ok]; nofun

/-- A cancelled analysis leaves the tree that is remembered. -/
theorem Remembers.conclude_cancelled (h : Remembers p results) :
    Remembers (p.conclude (.error .cancelled)) (results ++ [.error .cancelled]) where
  lastTree := by rw [trees_concat_error, lastTree_conclude_error, h.lastTree]
  succeeded t := by simp
  current t ht := by cases ht
  stopped := by simp
  failed m := by
    rw [state_conclude_cancelled, List.getLast?_concat]
    refine ⟨nofun, ?_⟩
    rintro ⟨e, he, -, hlast⟩
    cases hlast
    exact absurd rfl he
  idle := nofun

/-- A failed analysis leaves the tree that is remembered. -/
theorem Remembers.conclude_error (h : Remembers p results) {e : Failure} (he : e ≠ .cancelled) :
    Remembers (p.conclude (.error e)) (results ++ [.error e]) where
  lastTree := by rw [trees_concat_error, lastTree_conclude_error, h.lastTree]
  succeeded t := by simp [state_conclude_error p he]
  current t ht := by
    rw [state_conclude_error p he] at ht
    cases ht
  stopped := by simp [state_conclude_error p he, he]
  failed m := by
    rw [state_conclude_error p he, List.getLast?_concat]
    constructor
    · rintro ⟨⟩
      exact ⟨e, he, rfl, rfl⟩
    · rintro ⟨e', -, rfl, hlast⟩
      cases hlast
      rfl
  idle := by rw [state_conclude_error p he]; nofun

/-- One more result keeps what a project holds in step with its results. -/
theorem Remembers.conclude (h : Remembers p results) (result : Except Failure Tree) :
    Remembers (p.conclude result) (results ++ [result]) := by
  cases result with
  | ok t => exact .conclude_ok p results t
  | error e =>
      by_cases he : e = .cancelled
      · rw [he]
        exact h.conclude_cancelled
      · exact h.conclude_error he

theorem Remembers.foldl_conclude (h : Remembers p results)
    (more : List (Except Failure Tree)) :
    Remembers (more.foldl Project.conclude p) (results ++ more) := by
  induction more generalizing p results with
  | nil => rwa [List.append_nil]
  | cons result more ih =>
      rw [List.foldl_cons, List.append_cons]
      exact ih (h.conclude result)

/-- A project that was created was never analysed. -/
theorem remembers_create {d : Disk} {c : Config} (h : create d c = .ok p) : Remembers p [] := by
  have hp : p = ⟨c, .stopped, none⟩ := by
    unfold create at h
    split at h
    · cases h
    · split at h
      · cases h
        rfl
      · cases h
  subst hp
  constructor <;> simp [trees]

/-- However often a project is analysed, and however its analyses end: it holds the tree of
the latest one that succeeded, which no failure takes away, and its state is that of the last
one. It has succeeded with the tree that it returned and holds, or was stopped because the
last one was cancelled or there was none, or has failed with the text of any other failure;
it is never left as running. -/
theorem remembers_attempts {d : Disk} {c : Config} (h : create d c = .ok p)
    (as : List Attempt) :
    (p.attempts as).2.length = as.length ∧ Remembers (p.attempts as).1 (p.attempts as).2 ∧
      ∀ a e, ((p.attempts as).1.attempt a).2 = .error e →
        ((p.attempts as).1.attempt a).1.lastTree = (p.attempts as).1.lastTree := by
  refine ⟨length_attempts p as, ?_, fun a e he => ?_⟩
  · rw [fst_attempts]
    exact (remembers_create h).foldl_conclude _
  · rw [fst_attempt, he, lastTree_conclude_error]

/-- A project whose server cannot be started has failed after its first analysis, and there is
no tree. -/
theorem remembers_attempts_unstarted : ∃ p, create Load.sampleDisk .standard = .ok p ∧
    (p.attempts [.starting Load.sampleDisk (.error .notFound) 1 (.start false)]).1.state =
      .failed (startFailure "sourcekit-lsp" .notFound).message ∧
    (p.attempts [.starting Load.sampleDisk (.error .notFound) 1 (.start false)]).1.lastTree =
      none := by
  have hnode : Load.sampleDisk.node? Load.sampleDisk.current =
      some (.folder Load.sampleEntries) := rfl
  have hfolder : Load.sampleDisk.hasFolder Config.standard.root = true := by
    rw [Disk.hasFolder, Disk.find, show Config.standard.root = ⟨"."⟩ from rfl,
      Disk.resolve_dot hnode]
    decide
  have hcreate : create Load.sampleDisk .standard = .ok ⟨.standard, .stopped, none⟩ := by
    rw [create, show Config.standard.validate = .ok () by decide, if_pos hfolder]
  obtain ⟨-, h, -⟩ := remembers_attempts hcreate
    [.starting Load.sampleDisk (.error .notFound) 1 (.start false)]
  have hfailed : startFailure "sourcekit-lsp" .notFound ≠ .cancelled := nofun
  exact ⟨_, hcreate, (h.failed _).mpr ⟨_, hfailed, rfl, rfl⟩, h.lastTree⟩

end Project

end SourceAtlas
