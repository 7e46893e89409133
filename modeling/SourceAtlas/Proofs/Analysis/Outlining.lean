import SourceAtlas.Proofs.Analysis.Visiting
/-!
# Outlines of a whole folder

An extraction that succeeds leaves the outlines of all files in the tree, as the server told
them (`extracted_outlines_read_back`). When files are outlined one after another, what comes
of a file may depend on the calls before it (`outlineAll`): it is what comes of visiting the
file after those calls (`map_snd_outlineAll`). When some files are outlined at
the same time, the tree takes them in file by file, and whatever the schedule is it has
entered what came of the first of them (`gathers_play`). A server that breaks the connection
or cancels a call ends the extraction; no more than that is asked of it.
-/

namespace SourceAtlas

namespace Extract

/-! ## One file after another -/

/-- Some files with what comes of the calls about them, one after another. -/
def outlineAll (server : Server) (options : Options) : List Job → Session → List (Job × Outcome)
  | [], _ => []
  | job :: jobs, s =>
      match outline server options s job with
      | (s, outcome) => (job, outcome) :: outlineAll server options jobs s

theorem map_fst_outlineAll (server : Server) (options : Options) (jobs : List Job) (s : Session) :
    (outlineAll server options jobs s).map (·.1) = jobs := by
  induction jobs generalizing s with
  | nil => rfl
  | cons job jobs ih => rw [outlineAll, List.map_cons, ih]

/-- A run that succeeds has taken in what came of every file. -/
theorem run_eq_ok {server : Server} {options : Options} {jobs : List Job}
    {report report' : Report} {s s' : Session} {t t' : Tree}
    (h : run server options jobs report s t = (s', t', .ok report')) :
    t' = enter t (outlineAll server options jobs s) ∧
      report' = report.tally (outlineAll server options jobs s) ∧
      ∀ a ∈ outlineAll server options jobs s, Harmless a.2 := by
  induction jobs generalizing report s t with
  | nil =>
      cases h
      exact ⟨rfl, rfl, nofun⟩
  | cons job jobs ih =>
      rw [run] at h
      rw [outlineAll]
      generalize outline server options s job = answer at h ⊢
      obtain ⟨s₁, outcome⟩ := answer
      dsimp only at h ⊢
      split at h
      · cases h
      · split at h
        · next t₁ report₁ habsorb =>
            have hharmless := harmless_of_absorb habsorb
            rw [absorb_eq hharmless] at habsorb
            obtain ⟨rfl, rfl⟩ := Prod.mk.inj (Except.ok.inj habsorb)
            obtain ⟨htree, hreport, hrest⟩ := ih h
            refine ⟨htree, ?_, List.forall_mem_cons.mpr ⟨hharmless, hrest⟩⟩
            rw [hreport, ← Report.tally_append]
            rfl
        · cases h

/-- An answer that does not cancel the run leaves it as it is. -/
theorem cancelled_outline {server : Server}
    (hpatient : ∀ before call, server.cancels before call = false) (options : Options) {s : Session}
    (hs : s.cancelled = false) (job : Job) :
    (outline server options s job).1.cancelled = false := by
  have opened : (s.openDocument server job.uri options.language job.text).1.cancelled = false :=
    Bool.or_eq_false_iff.mpr
      ⟨hs, hpatient s.calls (.openDocument job.uri options.language job.text)⟩
  have outlined {s : Session} (hs : s.cancelled = false) :
      (s.outline server job.uri).1.cancelled = false :=
    Bool.or_eq_false_iff.mpr ⟨hs, hpatient s.calls (.outline job.uri)⟩
  rw [outline, if_neg (by rw [hs]; exact Bool.false_ne_true)]
  split
  · generalize s.openDocument server job.uri options.language job.text = answer at opened ⊢
    obtain ⟨s₁, e | _⟩ := answer
    · exact opened
    · exact outlined opened
  · exact outlined hs

/-- A run succeeds that is not cancelled and of which no call ends it. -/
theorem exists_run_eq_ok {server : Server}
    (hpatient : ∀ before call, server.cancels before call = false) (options : Options)
    {jobs : List Job} {s : Session} (hs : s.cancelled = false)
    (hharmless : ∀ a ∈ outlineAll server options jobs s, Harmless a.2) (report : Report)
    (t : Tree) : ∃ s' t' report', run server options jobs report s t = (s', t', .ok report') := by
  induction jobs generalizing report s t with
  | nil => exact ⟨s, t, report, rfl⟩
  | cons job jobs ih =>
      have hs₁ := cancelled_outline hpatient options hs job
      rw [outlineAll] at hharmless
      rw [run]
      generalize outline server options s job = answer at hs₁ hharmless ⊢
      obtain ⟨s₁, outcome⟩ := answer
      obtain ⟨hfirst, hrest⟩ := List.forall_mem_cons.mp hharmless
      dsimp only at hs₁ ⊢
      rw [hs₁, if_neg Bool.false_ne_true, absorb_eq hfirst]
      exact ih hs₁ hrest _ _

end Extract

namespace Analysis

namespace Course

variable {A : Answers} {folder : Folder} {opens : Bool} {c c' : Course} {m : Move}

/-! ## Some files at the same time -/

/-- What holds of the outlines of a course whose moves keep to the answers of a server. -/
structure Gathers (A : Answers) (folder : Folder) (opens : Bool) (c : Course) : Prop where
  announces : c.options.openDocuments = opens
  running : c.cancelled = false
  outlines : ∀ n job p, c.outlines[n]? = some (job, p) → A.Leads opens n p
  tree : c.resolved = none → c.tree =
    Extract.enter (Tree.ofFolder folder) ((A.outlines opens folder).take c.taken)
  extracted : c.extracted = Extract.Report.tally
    ⟨(Extract.jobs (Tree.ofFolder folder)).length, 0, 0⟩ ((A.outlines opens folder).take c.taken)
  harmless : ∀ a ∈ (A.outlines opens folder).take c.taken, Harmless a.2

namespace Gathers

theorem outline (h : Gathers A folder opens c) (n : Nat)
    {f : Progress (List Outline.Entry) → Progress (List Outline.Entry)}
    (hf : ∀ p, A.Leads opens n p → A.Leads opens n (f p)) :
    Gathers A folder opens { c with outlines := Progress.advance c.outlines n f } :=
  ⟨h.announces, h.running, Answers.leads_advance h.outlines hf, h.tree, h.extracted, h.harmless⟩

/-- What came of the next file is taken in. -/
theorem take (hsound : Sound folder c) (h : Gathers A folder opens c)
    (hphase : c.phase = .outlining) {job : Extract.Job} {outcome : Extract.Outcome} {tree : Tree}
    {extracted : Extract.Report} (hnext : c.outlines[c.taken]? = some (job, .settled outcome))
    (habsorb : Extract.absorb c.tree c.extracted job outcome = .ok (tree, extracted)) :
    Gathers A folder opens { c with tree, extracted, taken := c.taken + 1 } := by
  have hunresolved := hsound.unresolved (by rw [hphase]; rfl)
  obtain ⟨hharmless, hone, rfl, rfl⟩ := taken_succ hsound h.outlines hnext habsorb
  constructor
  case announces => exact h.announces
  case running => exact h.running
  case outlines => exact h.outlines
  case tree =>
    intro _
    rw [hone, Extract.enter_append, ← h.tree hunresolved]
  case extracted => rw [hone, Extract.Report.tally_append, ← h.extracted]
  case harmless =>
    rw [hone]
    exact List.forall_mem_append.mpr ⟨h.harmless, List.forall_mem_singleton.mpr hharmless⟩

theorem step (hsound : Sound folder c) (h : Gathers A folder opens c) (hm : A.allows m)
    (s : Step c m c') : Gathers A folder opens c' := by
  have running {P : Prop} (hc : c.cancelled = true) : P := by
    rw [h.running] at hc
    cases hc
  cases s with
  | cancel => exact hm.elim
  | refuse _ hc | drop _ hc | leave _ _ hc | withhold _ hc => exact running hc
  | launch n =>
      refine h.outline n fun p hp => ?_
      rw [h.running, h.announces]
      exact Answers.leads_launch hp
  | opened n answer =>
      obtain rfl : answer = A.opened n := hm
      exact h.outline n fun p => Answers.leads_opened
  | outlined n outcome =>
      obtain rfl : outcome = A.outlined n := hm
      exact h.outline n fun p => Answers.leads_answered
  | take hphase _ hnext habsorb => exact h.take hsound hphase hnext habsorb
  | record => exact ⟨h.announces, h.running, h.outlines, nofun, h.extracted, h.harmless⟩
  | discard _ _ hfailed =>
      rw [Resolve.resolveWith_error hfailed]
      exact ⟨h.announces, h.running, h.outlines, h.tree, h.extracted, h.harmless⟩
  | greet | greeted | rebuff | fail | turn | ask | answered | join | sever | conclude =>
      exact ⟨h.announces, h.running, h.outlines, h.tree, h.extracted, h.harmless⟩

end Gathers

variable (folder : Folder) (options : Extract.Options) (maxRequests : Nat)

theorem gathers_start (A : Answers) :
    Gathers A folder options.openDocuments (start folder options maxRequests false) :=
  have h := follows_start folder options maxRequests A
  ⟨h.announces, h.running, h.outlines, h.tree, h.extracted, nofun⟩

theorem gathers_play {A : Answers} {ms : List Move} (hms : ∀ m ∈ ms, A.allows m) :
    Gathers A folder options.openDocuments
      ((start folder options maxRequests false).play ms) := by
  induction ms using List.reverseRecOn with
  | nil => exact gathers_start folder options maxRequests A
  | append_singleton ms m ih =>
      have ih := ih fun m' hm' => hms m' (List.mem_append_left _ hm')
      rw [play_concat]
      rcases move_cases ((start folder options maxRequests false).play ms) m with same | s
      · rwa [same]
      · exact ih.step (sound_play folder options maxRequests false ms) (hms m (by simp)) s

end Course

/-- A run that succeeds was not cancelled, neither before its first file nor while that one was
outlined. -/
theorem running_of_run_cons {server : Server} {options : Extract.Options} {job : Extract.Job}
    {jobs : List Extract.Job} {report report' : Extract.Report} {s s' : Session} {t t' : Tree}
    (h : Extract.run server options (job :: jobs) report s t = (s', t', .ok report')) :
    s.cancelled = false ∧ (Extract.outline server options s job).1.cancelled = false := by
  have hafter : (Extract.outline server options s job).1.cancelled = false := by
    rw [Extract.run] at h
    generalize Extract.outline server options s job = answer at h ⊢
    obtain ⟨s₁, outcome⟩ := answer
    dsimp only at h
    split at h
    · cases h
    · next hrunning => simpa using hrunning
  refine ⟨?_, hafter⟩
  cases hs : s.cancelled with
  | false => rfl
  | true =>
      rw [Extract.outline, if_pos hs] at hafter
      exact hs.symm.trans hafter

/-- In a run that succeeds, what comes of the files is what comes of visits to them. -/
theorem map_snd_outlineAll {server : Server} {options : Extract.Options} {jobs : List Extract.Job}
    {files : List SourceFile} (hjobs : List.Forall₂ Extract.AsksFor jobs files)
    {report report' : Extract.Report} {s s' : Session} {t t' : Tree}
    (h : Extract.run server options jobs report s t = (s', t', .ok report')) :
    (Extract.outlineAll server options jobs s).map (·.2) =
      (visits server options s.calls files).map Visit.outcome := by
  induction hjobs generalizing report s t with
  | nil => rfl
  | @cons job file jobs files hjob _ ih =>
      obtain ⟨hs, hs₁⟩ := running_of_run_cons h
      obtain ⟨hcalls, houtcome⟩ := outline_eq_visit server options hs hjob
      rw [Extract.outlineAll, visits_cons, ← hcalls, List.map_cons, List.map_cons, ← houtcome]
      obtain ⟨s₁, outcome, hanswer⟩ :
          ∃ s₁ outcome, Extract.outline server options s job = (s₁, outcome) := ⟨_, _, rfl⟩
      rw [hanswer] at hs₁ ⊢
      rw [run_cons_of_running hanswer hs₁] at h
      split at h
      · exact congrArg (outcome :: ·) (ih h)
      · cases h

/-! ## Main statement -/

open Extract in
/-- What an extraction made of the tree can be read back from it. Once a course has taken in
all files, whatever the schedule was, every file has the outline the server gave for it,
refused files have none, and the report accounts for them. The same holds when an extraction
succeeds that outlines one file after another, where what comes of a file is what comes of a
visit to it after the calls before, and that one succeeds whenever nothing cancels it and no
call ends it. -/
theorem extracted_outlines_read_back (folder : Folder) (options : Extract.Options) :
    (∀ (A : Answers) (maxRequests : Nat) (ms : List Course.Move), (∀ m ∈ ms, A.allows m) →
      ∀ c, (Course.start folder options maxRequests false).play ms = c →
        c.taken = c.outlines.length → c.resolved = none →
          Extracted folder (A.outlines options.openDocuments folder) c.tree c.extracted) ∧
    (∀ server s s' t report,
      (Tree.ofFolder folder).extractSymbols server options s = (s', t, .ok report) →
        Extracted folder (outlineAll server options (jobs (Tree.ofFolder folder)) s) t report ∧
          (outlineAll server options (jobs (Tree.ofFolder folder)) s).map (·.2) =
            (visits server options s.calls folder.sources).map Visit.outcome) ∧
    ∀ server s, (∀ before call, server.cancels before call = false) → s.cancelled = false →
      (∀ a ∈ outlineAll server options (jobs (Tree.ofFolder folder)) s, Harmless a.2) →
        ∃ s' t report,
          (Tree.ofFolder folder).extractSymbols server options s = (s', t, .ok report) := by
  refine ⟨?_, ?_, fun server s hpatient hs hharmless =>
    exists_run_eq_ok hpatient options hs hharmless _ _⟩
  · rintro A maxRequests ms hms c rfl hall hunresolved
    have h := Course.gathers_play folder options maxRequests hms
    have hsound := Course.sound_play folder options maxRequests false ms
    have hlength : (A.outlines options.openDocuments folder).length =
        ((Course.start folder options maxRequests false).play ms).taken := by
      rw [hall, hsound.length_outlines]
      simp [Answers.outlines]
    have htree := h.tree hunresolved
    have hextracted := h.extracted
    have hharmless := h.harmless
    rw [List.take_of_length_le hlength.le] at htree hextracted hharmless
    rw [htree, hextracted]
    refine extracted_enter ?_ hharmless
    exact List.map_fst_zip (by simp)
  · intro server s s' t report h
    have houtcomes := map_snd_outlineAll (asksFor_sources folder) h
    obtain ⟨rfl, rfl, hharmless⟩ := run_eq_ok h
    exact ⟨extracted_enter (map_fst_outlineAll server options _ s) hharmless, houtcomes⟩

/-! ## A server that refuses the first file -/

def toldEntries : List Outline.Entry :=
  [Tree.linesEntry "run" 0 9 [Tree.linesEntry "tick" 1 3 []], Tree.linesEntry "stop" 10 14 []]

def tellingAnswers : Answers where
  greeted := .ok ()
  opened n := if n = 0 then .error (.response 1 "closed") else .ok ()
  outlined _ := .ok toldEntries
  answered _ := .ok []

/-- The second file is outlined before the first one is refused. -/
def tellingMoves : List Course.Move :=
  [.greet, .greeted (.ok ()), .launch 0, .launch 1, .opened 1 (.ok ()),
    .outlined 1 (.ok toldEntries), .opened 0 (.error (.response 1 "closed")), .take, .take]

def tellingServer : Server where
  handshake _ _ _ := ⟨.ok (), false⟩
  openDocument before _ _ _ :=
    ⟨if before.isEmpty then .error (.response 1 "closed") else .ok (), false⟩
  outline _ _ := ⟨.ok toldEntries, false⟩
  references _ _ _ := ⟨.ok [], false⟩

theorem exists_jobs_nestedFolder : ∃ j₀ j₁ : Extract.Job,
    Extract.jobs (Tree.ofFolder Tree.nestedFolder) = [j₀, j₁] ∧ j₀.file = 2 ∧ j₁.file = 3 := by
  have hfiles : (Extract.jobs (Tree.ofFolder Tree.nestedFolder)).map Extract.Job.file = [2, 3] := by
    decide +kernel
  obtain ⟨j₀, jobs, hjobs, h₀, hfiles⟩ := List.map_eq_cons_iff.mp hfiles
  obtain ⟨j₁, jobs, rfl, h₁, hnil⟩ := List.map_eq_cons_iff.mp hfiles
  obtain rfl := List.map_eq_nil_iff.mp hnil
  exact ⟨j₀, j₁, hjobs, h₀, h₁⟩

theorem outline?_of_extracted {j₀ j₁ : Extract.Job} (h₀ : j₀.file = 2) (h₁ : j₁.file = 3) {t : Tree}
    {report : Extract.Report} (h : Extract.Extracted Tree.nestedFolder
      [(j₀, .error (.response 1 "closed")), (j₁, .ok toldEntries)] t report) :
    t.outline? 2 = some [] ∧ t.outline? 3 = some toldEntries := by
  have hfirst := h.outlines (j₀, .error (.response 1 "closed")) List.mem_cons_self
  have hsecond := h.outlines (j₁, .ok toldEntries) (List.mem_cons_of_mem _ List.mem_cons_self)
  exact ⟨h₀ ▸ hfirst, h₁ ▸ hsecond⟩

/-- The refused file has no symbols, and the other one has those that were told for it. -/
theorem extracted_outlines_read_back_telling :
    (∃ c, (Course.start Tree.nestedFolder ⟨"swift", true⟩ 2 false).play tellingMoves = c ∧
      c.tree.outline? 2 = some [] ∧ c.tree.outline? 3 = some toldEntries ∧
      c.extracted = ⟨2, 3, 1⟩) ∧
    ∃ s' t, (Tree.ofFolder Tree.nestedFolder).extractSymbols tellingServer ⟨"swift", true⟩
        (.start false) = (s', t, .ok ⟨2, 3, 1⟩) ∧
      t.outline? 2 = some [] ∧ t.outline? 3 = some toldEntries := by
  obtain ⟨j₀, j₁, hjobs, h₀, h₁⟩ := exists_jobs_nestedFolder
  obtain ⟨hcourse, hserved, hsucceeds⟩ :=
    extracted_outlines_read_back Tree.nestedFolder ⟨"swift", true⟩
  constructor
  · have hallowed : ∀ m ∈ tellingMoves, tellingAnswers.allows m := by
      simp [tellingMoves, Answers.allows, tellingAnswers]
    have hall : ((Course.start Tree.nestedFolder ⟨"swift", true⟩ 2 false).play tellingMoves).taken =
        ((Course.start Tree.nestedFolder ⟨"swift", true⟩ 2 false).play
          tellingMoves).outlines.length := by decide +kernel
    have hunresolved : ((Course.start Tree.nestedFolder ⟨"swift", true⟩ 2 false).play
        tellingMoves).resolved = none := by decide +kernel
    have hextracted : ((Course.start Tree.nestedFolder ⟨"swift", true⟩ 2 false).play
        tellingMoves).extracted = ⟨2, 3, 1⟩ := by decide +kernel
    have h := hcourse tellingAnswers 2 tellingMoves hallowed
    generalize (Course.start Tree.nestedFolder ⟨"swift", true⟩ 2 false).play tellingMoves = c at *
    have houtlines : tellingAnswers.outlines true Tree.nestedFolder =
        [(j₀, .error (.response 1 "closed")), (j₁, .ok toldEntries)] := by
      rw [Answers.outlines, hjobs]
      rfl
    have h := h c rfl hall hunresolved
    rw [houtlines] at h
    obtain ⟨hfirst, hsecond⟩ := outline?_of_extracted h₀ h₁ h
    exact ⟨c, rfl, hfirst, hsecond, hextracted⟩
  · have houtlines : Extract.outlineAll tellingServer ⟨"swift", true⟩
        (Extract.jobs (Tree.ofFolder Tree.nestedFolder)) (.start false) =
          [(j₀, .error (.response 1 "closed")), (j₁, .ok toldEntries)] := by
      rw [hjobs]
      rfl
    have hpatient : ∀ before call, tellingServer.cancels before call = false := by
      intro before call
      cases call <;> rfl
    have hharmless : ∀ a ∈ Extract.outlineAll tellingServer ⟨"swift", true⟩
        (Extract.jobs (Tree.ofFolder Tree.nestedFolder)) (.start false), Harmless a.2 := by
      rw [houtlines]
      simp [Harmless, CallError.isFatal]
    have hreport : ((Tree.ofFolder Tree.nestedFolder).extractSymbols tellingServer ⟨"swift", true⟩
        (.start false)).2.2.toOption = some ⟨2, 3, 1⟩ := by decide +kernel
    obtain ⟨s', t, report, hrun⟩ := hsucceeds tellingServer (.start false) hpatient rfl hharmless
    rw [hrun] at hreport
    obtain rfl := Option.some.inj hreport
    have h := (hserved tellingServer (.start false) s' t _ hrun).1
    rw [houtlines] at h
    exact ⟨s', t, hrun, outline?_of_extracted h₀ h₁ h⟩

end Analysis

end SourceAtlas
