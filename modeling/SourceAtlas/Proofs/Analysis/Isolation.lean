import SourceAtlas.Proofs.Analysis.Abreast
/-!
# Failures cost what was asked for

A server that refuses some calls gives the same finished tree as one that answers them with
empty lists (`refusals_are_isolated`). Nothing else moves: not the other files, not the
queries, and not the answers of queries that come later. Only the reports count the
refusals.
-/

namespace SourceAtlas

namespace Analysis

/-! ## Courses -/

section

variable {A A' : Answers} {opens : Bool} {files questions : Nat → Bool}

theorem map_entries_congr
    (hfiles : ∀ n, Spares (files n) (A.outline opens n) (A'.outline opens n)) (ns : List Nat) :
    (ns.map (A.outline opens)).map Extract.entries =
      (ns.map (A'.outline opens)).map Extract.entries := by
  rw [List.map_map, List.map_map]
  exact List.map_congr_left fun n _ => (hfiles n).entries_eq

theorem outlinedTree_congr (hfiles : ∀ n, Spares (files n) (A.outline opens n) (A'.outline opens n))
    (folder : Folder) : A.outlinedTree opens folder = A'.outlinedTree opens folder :=
  Extract.enter_congr (map_entries_congr hfiles _) _ _

/-- The reports on the outlines differ by the files that were chosen. -/
theorem tally_outlines (hfiles : ∀ n, Spares (files n) (A.outline opens n) (A'.outline opens n))
    (folder : Folder) (r : Extract.Report) :
    r.tally (A.outlines opens folder) =
      { r.tally (A'.outlines opens folder) with
        failedFiles := (r.tally (A'.outlines opens folder)).failedFiles +
          (List.range (Extract.jobs (Tree.ofFolder folder)).length).countP files } := by
  have hsymbols := Extract.Report.symbols_tally_congr
    (map_entries_congr hfiles (List.range (Extract.jobs (Tree.ofFolder folder)).length)) r
    (Extract.jobs (Tree.ofFolder folder))
  have hfailed := Spares.countP_zip hfiles (Extract.jobs (Tree.ofFolder folder))
  simp only [Extract.Report.tally, Answers.outlines] at hsymbols ⊢
  rw [hsymbols, hfailed, Nat.add_assoc]

theorem places_uses_congr (hquestions : ∀ n, Spares (questions n) (A.answered n) (A'.answered n))
    (t : Tree) : Resolve.places ((Resolve.queries t).zip (A.uses t)) =
      Resolve.places ((Resolve.queries t).zip (A'.uses t)) := by
  refine places_congr ?_ _
  rw [Answers.uses, Answers.uses, List.map_map, List.map_map]
  exact List.map_congr_left fun n _ => (hquestions n).located_eq

/-- The reports on the answers differ by the questions that were chosen. -/
theorem resolvedReport_uses
    (hquestions : ∀ n, Spares (questions n) (A.answered n) (A'.answered n)) (t : Tree) :
    resolvedReport t (A.uses t) =
      { resolvedReport t (A'.uses t) with
        failed := (resolvedReport t (A'.uses t)).failed +
          (List.range (Resolve.queries t).length).countP questions } := by
  have hfailed := Spares.countP_zip hquestions (Resolve.queries t)
  simp only [resolvedReport, Resolve.Report.tally, places_uses_congr hquestions]
  rw [Answers.uses, Answers.uses, hfailed, Nat.add_assoc]

/-- One course refused what the other found empty: the finished trees are the same, and
the reports differ by the chosen calls among those that were made. -/
structure Isolated (files questions : Nat → Bool) (c c' : Course) : Prop where
  finished : ∃ t, c.phase = .ended (.ok t) ∧ c'.phase = .ended (.ok t) ∧
    ∀ choices : Nat → Graph.Choices, (∀ s, (choices s).Lawful) →
      (c.tree.computeMetricsWith choices).map Tree.sort = .ok t ∧
        (c'.tree.computeMetricsWith choices).map Tree.sort = .ok t
  extracted : c.extracted = { c'.extracted with
    failedFiles := c'.extracted.failedFiles + (List.range c'.extracted.files).countP files }
  resolved : ∃ r, c'.resolved = some r ∧
    c.resolved = some { r with failed := r.failed + (List.range r.queried).countP questions }

end

namespace Course

variable {A A' : Answers} {folder : Folder} {opens : Bool} {c c' : Course}

/-- A course that follows a server and has ended has the finished tree. -/
theorem Follows.finished (h : Follows A folder opens c) {result : Except Failure Tree}
    (hended : c.phase = .ended result) :
    ∃ t, result = .ok t ∧ ∀ choices : Nat → Graph.Choices, (∀ s, (choices s).Lawful) →
      (c.tree.computeMetricsWith choices).map Tree.sort = .ok t := by
  obtain ⟨t, hfinish, hmeasured⟩ := finish_resolvedTree
    (A.outlined_outlinedTree opens folder) (A.uses (A.outlinedTree opens folder))
  have htree := (h.recorded (by rw [hended]; rfl)).tree
  refine ⟨t, ?_, fun choices hchoices => ?_⟩
  · rw [h.ended result hended, htree, hfinish]
  · rw [htree, hmeasured choices hchoices]

/-- At the end the report accounts for all files. -/
theorem Follows.extracted_eq (h : Follows A folder opens c) (hsound : Sound folder c)
    (hlate : c.phase.isEarly = false) :
    c.extracted = Extract.Report.tally ⟨(Extract.jobs (Tree.ofFolder folder)).length, 0, 0⟩
      (A.outlines opens folder) := by
  have hall : (A.outlines opens folder).length ≤ c.taken := by
    rw [(h.recorded hlate).taken, hsound.length_outlines]
    simp [Answers.outlines]
  rw [h.extracted, List.take_of_length_le hall]

theorem Follows.isolated {files questions : Nat → Bool} (h : Follows A folder opens c)
    (h' : Follows A' folder opens c') (hsound : Sound folder c) (hsound' : Sound folder c')
    (hfiles : ∀ n, Spares (files n) (A.outline opens n) (A'.outline opens n))
    (hquestions : ∀ n, Spares (questions n) (A.answered n) (A'.answered n))
    {result result' : Except Failure Tree} (hended : c.phase = .ended result)
    (hended' : c'.phase = .ended result') : Isolated files questions c c' := by
  have hlate : c.phase.isEarly = false := by rw [hended]; rfl
  have hlate' : c'.phase.isEarly = false := by rw [hended']; rfl
  have hrecorded := h.recorded hlate
  have hrecorded' := h'.recorded hlate'
  have htree : c.tree = c'.tree := by
    rw [hrecorded.tree, hrecorded'.tree, outlinedTree_congr hfiles folder, resolvedTree,
      resolvedTree, places_uses_congr hquestions]
  obtain ⟨t, rfl, hmeasured⟩ := h.finished hended
  constructor
  case finished =>
    refine ⟨t, hended, ?_, fun choices hchoices => ?_⟩
    · rw [h'.ended result' hended'] at hended'
      rw [hended', ← htree, h.ended _ hended]
    · rw [← htree]
      exact ⟨hmeasured choices hchoices, hmeasured choices hchoices⟩
  case extracted =>
    rw [h.extracted_eq hsound hlate, h'.extracted_eq hsound' hlate', tally_outlines hfiles folder]
    rfl
  case resolved =>
    refine ⟨_, hrecorded'.resolved, ?_⟩
    rw [hrecorded.resolved, outlinedTree_congr hfiles folder, resolvedReport_uses hquestions]
    rfl

end Course

/-! ## Main statement -/

/-- The one server refuses the files and questions of some numbers, where the other has
empty lists for them. A file is refused with its outline or when it is announced. -/
structure Refuses (opens : Bool) (files questions : Nat → Bool) (A A' : Answers) : Prop where
  greeted : A.greeted = .ok () ∧ A'.greeted = .ok ()
  outline : ∀ n, Spares (files n) (A.outline opens n) (A'.outline opens n)
  answered : ∀ n, Spares (questions n) (A.answered n) (A'.answered n)

namespace Refuses

variable {opens : Bool} {files questions : Nat → Bool} {A A' : Answers}

theorem harmless (h : Refuses opens files questions A A') : A.Harmless opens ∧ A'.Harmless opens :=
  ⟨⟨h.greeted.1, fun n => (h.outline n).harmless.1, fun n => (h.answered n).harmless.1⟩,
    ⟨h.greeted.2, fun n => (h.outline n).harmless.2, fun n => (h.answered n).harmless.2⟩⟩

end Refuses

/-- A course of a server that ends no run can always be brought to a finished tree. -/
theorem Course.exists_finished (folder : Folder) (options : Extract.Options) (maxRequests : Nat)
    {A : Answers} (hA : A.Harmless options.openDocuments) {ms : List Course.Move}
    (hms : ∀ m ∈ ms, A.allows m) :
    ∃ more, (∀ m ∈ more, A.allows m) ∧
      ∃ t, ((start folder options maxRequests false).play (ms ++ more)).phase = .ended (.ok t) := by
  obtain ⟨more, hmore, result, hended⟩ :=
    exists_ended A (sound_play folder options maxRequests false ms)
  have hall : ∀ m ∈ ms ++ more, A.allows m := fun m hm =>
    (List.mem_append.mp hm).elim (hms m) (hmore m)
  rw [← play_append] at hended
  obtain ⟨t, rfl, -⟩ := (follows_play folder options maxRequests hA hall).finished hended
  exact ⟨more, hmore, t, hended⟩

/-- Refused calls are isolated: two servers of which one refuses some calls that the other
answers with empty lists lead to the same finished tree, and their reports differ by the
chosen calls that were made. This holds however the calls overlap, in both runs for itself,
and both can always be completed. It holds as well of runs that make one call after
another, where an answer may depend on the calls before it. -/
theorem refusals_are_isolated (folder : Folder) (options : Extract.Options) :
    (∀ files questions A A', Refuses options.openDocuments files questions A A' →
      ∀ maxRequests maxRequests' ms ms', (∀ m ∈ ms, A.allows m) → (∀ m ∈ ms', A'.allows m) →
        ((∃ more, (∀ m ∈ more, A.allows m) ∧ ∃ t,
            ((Course.start folder options maxRequests false).play (ms ++ more)).phase =
              .ended (.ok t)) ∧
          ∃ more, (∀ m ∈ more, A'.allows m) ∧ ∃ t,
            ((Course.start folder options maxRequests' false).play (ms' ++ more)).phase =
              .ended (.ok t)) ∧
        ∀ result result',
          ((Course.start folder options maxRequests false).play ms).phase = .ended result →
          ((Course.start folder options maxRequests' false).play ms').phase = .ended result' →
            Isolated files questions ((Course.start folder options maxRequests false).play ms)
              ((Course.start folder options maxRequests' false).play ms')) ∧
    ∀ refuses server server', ServerRefuses refuses server server' →
      ∀ processId, ∃ t, (run (.ok folder) options server processId (.start false)).2 = .ok t ∧
        (run (.ok folder) options server' processId (.start false)).2 = .ok t := by
  constructor
  · intro files questions A A' h maxRequests maxRequests' ms ms' hms hms'
    obtain ⟨hA, hA'⟩ := h.harmless
    refine ⟨⟨Course.exists_finished folder options maxRequests hA hms,
      Course.exists_finished folder options maxRequests' hA' hms'⟩, ?_⟩
    intro result result' hended hended'
    exact (Course.follows_play folder options maxRequests hA hms).isolated
      (Course.follows_play folder options maxRequests' hA' hms')
      (Course.sound_play folder options maxRequests false ms)
      (Course.sound_play folder options maxRequests' false ms')
      h.outline h.answered hended hended'
  · exact fun refuses server server' h processId => h.run folder options processId

/-! ## A server that refuses some calls -/

/-- The first file cannot be opened, and the answer about the first symbol has the wrong
shape. Without these refusals there is nothing in the file, and the symbol is not used. -/
def pickyAnswers (refuses : Bool) : Answers where
  greeted := .ok ()
  opened n := if refuses && n == 0 then .error (.response 1 "closed") else .ok ()
  outlined n := .ok
    (if n == 0 then [] else [Tree.linesEntry "run" 0 9 [], Tree.linesEntry "stop" 10 14 []])
  answered n := if refuses && n == 0 then .error (.decode "references" "no list") else .ok []

theorem refuses_pickyAnswers :
    Refuses true (· == 0) (· == 0) (pickyAnswers true) (pickyAnswers false) := by
  refine ⟨⟨rfl, rfl⟩, fun n => ?_, fun n => ?_⟩
  · cases n with
    | zero => exact ⟨⟨_, rfl, rfl⟩, rfl⟩
    | succ n => exact ⟨rfl, nofun⟩
  · cases n with
    | zero => exact ⟨⟨_, rfl, rfl⟩, rfl⟩
    | succ n => exact ⟨rfl, nofun⟩

/-- The calls that are about this file and this symbol. -/
def pickyCalls (_ : List Call) : Call → Bool
  | .openDocument uri _ _ => uri == "file:///app/core/core.swift"
  | .references _ position => position.line == 0
  | _ => false

def pickyServer (refuses : Bool) : Server where
  handshake _ _ _ := ⟨.ok (), false⟩
  openDocument before uri language text :=
    ⟨if refuses && pickyCalls before (.openDocument uri language text) then
        .error (.response 1 "closed")
      else .ok (), false⟩
  outline _ uri :=
    ⟨.ok (if uri == "file:///app/core/core.swift" then []
      else [Tree.linesEntry "run" 0 9 [], Tree.linesEntry "stop" 10 14 []]), false⟩
  references before uri position :=
    ⟨if refuses && pickyCalls before (.references uri position) then
        .error (.decode "references" "no list")
      else .ok [], false⟩

theorem serverRefuses_pickyServer :
    ServerRefuses pickyCalls (pickyServer true) (pickyServer false) where
  patient := fun before call => by cases call <;> exact ⟨rfl, rfl⟩
  greeted := fun _ _ _ => ⟨rfl, rfl⟩
  opened := by
    intro calls calls' uri language text _ hrefuses
    simp only [pickyServer, hrefuses]
    exact ⟨rfl, fun e he => by cases he⟩
  unopened := by
    intro calls calls' uri language text _ hrefuses
    have hcore : (uri == "file:///app/core/core.swift") = true := hrefuses
    simp only [pickyServer, hrefuses, hcore]
    exact ⟨⟨_, rfl, rfl⟩, rfl, rfl⟩
  outlined := fun _ => ⟨rfl, fun e he => by cases he⟩
  used := by
    intro calls calls' uri position _
    cases hrefuses : pickyCalls calls (.references uri position) with
    | false =>
        simp only [pickyServer, hrefuses]
        exact ⟨rfl, fun e he => by cases he⟩
    | true =>
        simp only [pickyServer, hrefuses]
        exact ⟨⟨_, rfl, rfl⟩, rfl⟩

/-- Both servers lead to one tree, whatever the schedules are that the runs end with. -/
theorem refusals_are_isolated_picky :
    (∃ ms ms', Isolated (· == 0) (· == 0)
      ((Course.start Tree.nestedFolder ⟨"swift", true⟩ 2 false).play ms)
      ((Course.start Tree.nestedFolder ⟨"swift", true⟩ 1 false).play ms')) ∧
    ∃ t,
      (run (.ok Tree.nestedFolder) ⟨"swift", true⟩ (pickyServer true) 1 (.start false)).2 = .ok t ∧
        (run (.ok Tree.nestedFolder) ⟨"swift", true⟩ (pickyServer false) 1 (.start false)).2 =
          .ok t := by
  obtain ⟨hcourse, hrun⟩ := refusals_are_isolated Tree.nestedFolder ⟨"swift", true⟩
  constructor
  · obtain ⟨⟨⟨ms, hms, t, hended⟩, ms', hms', t', hended'⟩, -⟩ :=
      hcourse _ _ _ _ refuses_pickyAnswers 2 1 [] [] nofun nofun
    exact ⟨ms, ms',
      (hcourse _ _ _ _ refuses_pickyAnswers 2 1 ms ms' hms hms').2 _ _ hended hended'⟩
  · exact hrun pickyCalls _ _ serverRefuses_pickyServer 1

end Analysis

end SourceAtlas
