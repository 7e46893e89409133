import SourceAtlas.Proofs.Analysis.Completion
import SourceAtlas.Proofs.Analysis.References
import SourceAtlas.Proofs.Tree.Components
/-!
# Courses that follow a server

A server that neither breaks the connection nor cancels calls settles what an analysis
gives: the schedule leaves no trace (`follows_play`). The tree has the symbols of the
outlines and the dependencies the answers ask for, the reports account for them, and the
run succeeds.
-/

namespace SourceAtlas

namespace Analysis

namespace Progress

variable {α : Type} {p : Progress α} {outcome o : Except CallError α}

/-- A call that begins asks something before it is settled, if the run was not cancelled. -/
theorem eq_settled_of_launch (h : p.launch false false = .settled o) : p = .settled o := by
  cases p with
  | idle => cases h
  | opening | asked | settled _ => exact h

theorem eq_settled_of_answered (h : p.answered outcome = .settled o) :
    p = .settled o ∨ o = outcome := by
  cases p with
  | asked => exact .inr (settled.inj h).symm
  | idle | opening | settled _ => exact .inl h

end Progress

/-! ## What a server tells -/

namespace Answers

/-- What comes of the call about a file, which is announced first where that is wanted. -/
def outline (A : Answers) (opens : Bool) (n : Nat) : Extract.Outcome :=
  if opens then
    match A.opened n with
    | .ok () => A.outlined n
    | .error e => .error e
  else A.outlined n

/-- Neither the handshake nor any other call ends the run. -/
structure Harmless (A : Answers) (opens : Bool) : Prop where
  greeted : A.greeted = .ok ()
  outline : ∀ n, SourceAtlas.Harmless (A.outline opens n)
  answered : ∀ n, SourceAtlas.Harmless (A.answered n)

/-- How far the call about a file may be. -/
def Leads (A : Answers) (opens : Bool) (n : Nat) : Progress (List Outline.Entry) → Prop
  | .idle => True
  | .opening => opens = true
  | .asked => opens = true → A.opened n = .ok ()
  | .settled outcome => outcome = A.outline opens n

variable {A : Answers} {opens : Bool} {n : Nat} {p : Progress (List Outline.Entry)}

theorem leads_launch (h : A.Leads opens n p) : A.Leads opens n (p.launch false opens) := by
  cases p with
  | idle => cases opens <;> simp [Progress.launch, Leads]
  | opening | asked | settled _ => exact h

theorem leads_opened (h : A.Leads opens n p) :
    A.Leads opens n (p.opened (A.opened n)) := by
  cases p with
  | opening =>
      obtain rfl : opens = true := h
      cases hopened : A.opened n with
      | ok => exact fun _ => hopened
      | error e => simp [Progress.opened, Leads, outline, hopened]
  | idle | asked | settled _ => exact h

theorem leads_answered (h : A.Leads opens n p) :
    A.Leads opens n (p.answered (A.outlined n)) := by
  cases p with
  | asked =>
      cases opens with
      | false => rfl
      | true => simp [Progress.answered, Leads, outline, h rfl]
  | idle | opening | settled _ => exact h

/-- When the call about one file goes on as it may, the calls about all files do. -/
theorem leads_advance {calls : List (Extract.Job × Progress (List Outline.Entry))}
    (h : ∀ k job p, calls[k]? = some (job, p) → A.Leads opens k p)
    {f : Progress (List Outline.Entry) → Progress (List Outline.Entry)}
    (hf : ∀ p, A.Leads opens n p → A.Leads opens n (f p)) (k : Nat) (job : Extract.Job)
    (p : Progress (List Outline.Entry)) (hk : (Progress.advance calls n f)[k]? = some (job, p)) :
    A.Leads opens k p := by
  rw [Progress.getElem?_advance] at hk
  split at hk
  · next heq =>
      obtain ⟨⟨job', p'⟩, hcall, hpair⟩ := Option.map_eq_some_iff.mp hk
      obtain ⟨-, rfl⟩ := Prod.mk.inj hpair
      exact heq ▸ hf p' (h n job' p' (heq ▸ hcall))
  · exact h k job p hk

/-- Where one question goes on and is settled as the server answers, all of them are. -/
theorem settled_advance {questions : List (Resolve.Query × Progress (List Location))}
    (h : ∀ k q o, questions[k]? = some (q, .settled o) → o = A.answered k)
    {f : Progress (List Location) → Progress (List Location)}
    (hf : ∀ p o, f p = .settled o → p = .settled o ∨ o = A.answered n) (k : Nat)
    (q : Resolve.Query) (o : Resolve.Outcome)
    (hk : (Progress.advance questions n f)[k]? = some (q, .settled o)) : o = A.answered k := by
  rw [Progress.getElem?_advance] at hk
  split at hk
  · next heq =>
      obtain ⟨⟨q', p⟩, hcall, hpair⟩ := Option.map_eq_some_iff.mp hk
      obtain ⟨-, hp⟩ := Prod.mk.inj hpair
      rcases hf p o hp with rfl | rfl
      · exact h k q' o hcall
      · rw [heq]
  · exact h k q o hk

/-- What comes of the calls about the files of a folder. -/
def outlines (A : Answers) (opens : Bool) (folder : Folder) :
    List (Extract.Job × Extract.Outcome) :=
  (Extract.jobs (Tree.ofFolder folder)).zip
    ((List.range (Extract.jobs (Tree.ofFolder folder)).length).map (A.outline opens))

theorem take_succ_outlines (A : Answers) (opens : Bool) {folder : Folder} {job : Extract.Job}
    (hjob : (Extract.jobs (Tree.ofFolder folder))[n]? = some job) :
    (A.outlines opens folder).take (n + 1) =
      (A.outlines opens folder).take n ++ [(job, A.outline opens n)] := by
  have hn : (A.outlines opens folder)[n]? = some (job, A.outline opens n) := by
    have hrange := List.getElem?_range (List.getElem?_eq_some_iff.mp hjob).1
    exact List.getElem?_zip_eq_some.mpr ⟨hjob, by rw [List.getElem?_map, hrange]; rfl⟩
  rw [List.take_add_one, hn, Option.toList_some]

/-- What comes of the questions about the symbols of a tree. -/
def uses (A : Answers) (t : Tree) : List Resolve.Outcome :=
  (List.range (Resolve.queries t).length).map A.answered

/-- The tree of a folder with the symbols of its outlines. -/
def outlinedTree (A : Answers) (opens : Bool) (folder : Folder) : Tree :=
  Extract.enter (Tree.ofFolder folder) (A.outlines opens folder)

theorem outlined_outlinedTree (A : Answers) (opens : Bool) (folder : Folder) :
    Extract.Outlined folder (A.outlinedTree opens folder) :=
  (Extract.Outlined.loaded folder).enter fun _ ha => (List.of_mem_zip ha).1

end Answers

/-- A tree with the dependencies that outcomes of its queries ask for. -/
def resolvedTree (t : Tree) (outcomes : List Resolve.Outcome) : Tree :=
  t.run (Resolve.requests t (Resolve.places ((Resolve.queries t).zip outcomes)))

/-- The report on these outcomes. -/
def resolvedReport (t : Tree) (outcomes : List Resolve.Outcome) : Resolve.Report :=
  Resolve.Report.tally
    ⟨(Resolve.queries t).length, t.symbolIds.countP (Resolve.isSkipped t), 0, 0, 0, 0⟩
    (((Resolve.queries t).zip outcomes).countP fun a => !a.2.isOk)
    (Resolve.classes t (Resolve.places ((Resolve.queries t).zip outcomes)))

namespace Course

variable {A : Answers} {folder : Folder} {opens : Bool} {c c' : Course} {m : Move}

/-- What is taken in is what came of the next file. -/
theorem taken_succ (hsound : Sound folder c)
    (houtlines : ∀ n job p, c.outlines[n]? = some (job, p) → A.Leads opens n p)
    {job : Extract.Job} {outcome : Extract.Outcome} {tree : Tree} {extracted : Extract.Report}
    (hnext : c.outlines[c.taken]? = some (job, .settled outcome))
    (habsorb : Extract.absorb c.tree c.extracted job outcome = .ok (tree, extracted)) :
    SourceAtlas.Harmless outcome ∧
      (A.outlines opens folder).take (c.taken + 1) =
        (A.outlines opens folder).take c.taken ++ [(job, outcome)] ∧
      tree = Extract.enter c.tree [(job, outcome)] ∧
      extracted = c.extracted.tally [(job, outcome)] := by
  have hjob : (Extract.jobs (Tree.ofFolder folder))[c.taken]? = some job := by
    rw [← hsound.jobs, List.getElem?_map, hnext, Option.map_some]
  obtain rfl : outcome = A.outline opens c.taken := houtlines _ _ _ hnext
  have hharmless := Extract.harmless_of_absorb habsorb
  rw [Extract.absorb_eq hharmless] at habsorb
  obtain ⟨rfl, rfl⟩ := Prod.mk.inj (Except.ok.inj habsorb)
  exact ⟨hharmless, A.take_succ_outlines opens hjob, rfl, rfl⟩

/-- When all outcomes are collected they are the answers to all questions, in the order in
which they arrived. -/
theorem perm_arrived (hsound : Sound folder c)
    (hsettled : ∀ n q o, c.questions[n]? = some (q, .settled o) → o = A.answered n)
    (hphase : c.phase = .asking) (hall : c.arrived.length = c.questions.length) :
    c.arrived.Perm (Resolve.numbered (A.uses c.tree)) := by
  have hlength : c.questions.length = (Resolve.queries c.tree).length := by
    rw [← (hsound.queries hphase).2, List.length_map]
  have hsubset : c.arrived ⊆ Resolve.numbered (A.uses c.tree) := by
    rintro ⟨n, o⟩ ho
    obtain ⟨q, hq⟩ := hsound.settled ho
    have hn : n < (Resolve.queries c.tree).length :=
      hlength ▸ (List.getElem?_eq_some_iff.mp hq).1
    refine Resolve.mem_numbered.mpr ?_
    rw [Answers.uses, List.getElem?_map, List.getElem?_range hn, hsettled n q o hq]
    rfl
  refine (hsound.collected.of_map.subperm hsubset).perm_of_length_le ?_
  simp [Resolve.numbered, Answers.uses, hall, hlength]

/-- What is settled once the dependencies are recorded. -/
structure Recorded (A : Answers) (folder : Folder) (opens : Bool) (c : Course) :
    Prop where
  taken : c.taken = c.outlines.length
  tree : c.tree = resolvedTree (A.outlinedTree opens folder)
    (A.uses (A.outlinedTree opens folder))
  resolved : c.resolved = some (resolvedReport (A.outlinedTree opens folder)
    (A.uses (A.outlinedTree opens folder)))

/-- What holds of a course whose moves keep to the answers of a server. -/
structure Follows (A : Answers) (folder : Folder) (opens : Bool) (c : Course) :
    Prop where
  announces : c.options.openDocuments = opens
  running : c.cancelled = false
  outlines : ∀ n job p, c.outlines[n]? = some (job, p) → A.Leads opens n p
  questions : ∀ n q o, c.questions[n]? = some (q, .settled o) → o = A.answered n
  tree : c.resolved = none → c.tree =
    Extract.enter (Tree.ofFolder folder) ((A.outlines opens folder).take c.taken)
  extracted : c.extracted = Extract.Report.tally
    ⟨(Extract.jobs (Tree.ofFolder folder)).length, 0, 0⟩
    ((A.outlines opens folder).take c.taken)
  recorded : c.phase.isEarly = false → Recorded A folder opens c
  ended : ∀ result, c.phase = .ended result → result = finish c.tree

namespace Follows

/-- The calls about files go on as the server answers. -/
theorem outline (h : Follows A folder opens c) (hphase : c.phase = .outlining) (n : Nat)
    {f : Progress (List Outline.Entry) → Progress (List Outline.Entry)}
    (hf : ∀ p, A.Leads opens n p → A.Leads opens n (f p)) :
    Follows A folder opens { c with outlines := Progress.advance c.outlines n f } where
  announces := h.announces
  running := h.running
  outlines := Answers.leads_advance h.outlines hf
  questions := h.questions
  tree := h.tree
  extracted := h.extracted
  recorded := fun hlate => by simp [hphase, Phase.isEarly] at hlate
  ended := h.ended

/-- Questions go on as the server answers. -/
theorem question (h : Follows A folder opens c) (hphase : c.phase = .asking) (n : Nat)
    {f : Progress (List Location) → Progress (List Location)}
    (hf : ∀ p o, f p = .settled o → p = .settled o ∨ o = A.answered n) :
    Follows A folder opens { c with questions := Progress.advance c.questions n f } where
  announces := h.announces
  running := h.running
  outlines := h.outlines
  questions := Answers.settled_advance h.questions hf
  tree := h.tree
  extracted := h.extracted
  recorded := fun hlate => by simp [hphase, Phase.isEarly] at hlate
  ended := h.ended

/-- The outcome that is taken in next. -/
theorem take (hsound : Sound folder c) (h : Follows A folder opens c)
    (hphase : c.phase = .outlining) {job : Extract.Job} {outcome : Extract.Outcome} {tree : Tree}
    {extracted : Extract.Report} (hnext : c.outlines[c.taken]? = some (job, .settled outcome))
    (habsorb : Extract.absorb c.tree c.extracted job outcome = .ok (tree, extracted)) :
    Follows A folder opens { c with tree, extracted, taken := c.taken + 1 } := by
  have hunresolved := hsound.unresolved (by rw [hphase]; rfl)
  obtain ⟨-, hone, rfl, rfl⟩ := taken_succ hsound h.outlines hnext habsorb
  constructor
  case announces => exact h.announces
  case running => exact h.running
  case outlines => exact h.outlines
  case questions => exact h.questions
  case tree =>
    intro _
    rw [hone, Extract.enter_append, ← h.tree hunresolved]
  case extracted => rw [hone, Extract.Report.tally_append, ← h.extracted]
  case recorded =>
    intro hlate
    simp [hphase, Phase.isEarly] at hlate
  case ended =>
    intro result hended
    rw [hphase] at hended
    cases hended

/-- All outcomes are recorded as the server answers. -/
theorem resolveWith_arrived (hA : A.Harmless opens) (hsound : Sound folder c)
    (h : Follows A folder opens c) (hphase : c.phase = .asking)
    (hall : c.arrived.length = c.questions.length) :
    c.tree = A.outlinedTree opens folder ∧ c.tree.resolveWith c.cancelled c.arrived =
      (resolvedTree c.tree (A.uses c.tree), .ok (resolvedReport c.tree (A.uses c.tree))) := by
  have hunresolved := hsound.unresolved (by rw [hphase]; rfl)
  constructor
  · have hcount : (A.outlines opens folder).length ≤ c.taken := by
      rw [(hsound.queries hphase).1, hsound.length_outlines]
      simp [Answers.outlines]
    rw [h.tree hunresolved, List.take_of_length_le hcount]
    rfl
  · rw [h.running]
    refine Resolve.resolveWith_eq (hsound.outlined hunresolved).wellFormed (by simp [Answers.uses])
      ?_ (perm_arrived hsound h.questions hphase hall)
    rintro o ho ⟨reason, rfl⟩
    obtain ⟨n, -, hn⟩ := List.mem_map.mp ho
    cases hA.answered n _ hn

theorem step (hA : A.Harmless opens) (hsound : Sound folder c) (h : Follows A folder opens c)
    (hm : A.allows m) (s : Step c m c') : Follows A folder opens c' := by
  have running {P : Prop} (hc : c.cancelled = true) : P := by
    rw [h.running] at hc
    cases hc
  have early {p : Phase} (hp : p.isEarly = true) :
      Follows A folder opens { c with phase := p } := by
    refine ⟨h.announces, h.running, h.outlines, h.questions, h.tree, h.extracted, ?_, ?_⟩
    · intro hlate
      rw [hp] at hlate
      cases hlate
    · rintro result rfl
      cases hp
  cases s with
  | cancel => exact hm.elim
  | refuse _ hc => exact running hc
  | greet => exact early rfl
  | greeted => exact early rfl
  | rebuff e =>
      have hanswer : .error e = A.greeted := hm
      rw [hA.greeted] at hanswer
      cases hanswer
  | launch n hphase =>
      refine h.outline hphase n fun p hp => ?_
      rw [h.running, h.announces]
      exact Answers.leads_launch hp
  | opened n answer hphase =>
      obtain rfl : answer = A.opened n := hm
      exact h.outline hphase n fun p => Answers.leads_opened
  | outlined n outcome hphase =>
      obtain rfl : outcome = A.outlined n := hm
      exact h.outline hphase n fun p => Answers.leads_answered
  | drop _ hc => exact running hc
  | take hphase _ hnext habsorb => exact h.take hsound hphase hnext habsorb
  | fail _ _ hnext habsorb =>
      rw [h.outlines _ _ _ hnext, Extract.absorb_eq (hA.outline _)] at habsorb
      cases habsorb
  | leave _ _ hc => exact running hc
  | turn =>
      refine ⟨h.announces, h.running, h.outlines, ?_, h.tree, h.extracted, nofun, nofun⟩
      intro n q o hn
      simp at hn
  | ask n hphase =>
      refine h.question hphase n fun p o hp => .inl ?_
      rw [h.running] at hp
      exact Progress.eq_settled_of_launch hp
  | answered n outcome hphase =>
      obtain rfl : outcome = A.answered n := hm
      exact h.question hphase n fun p o => Progress.eq_settled_of_answered
  | join hphase =>
      refine ⟨h.announces, h.running, h.outlines, h.questions, h.tree, h.extracted, ?_, h.ended⟩
      intro hlate
      simp [hphase, Phase.isEarly] at hlate
  | sever _ hn =>
      cases hA.answered _ _ (h.questions _ _ _ hn).symm
  | record hphase hall hresolved =>
      obtain ⟨htree, hrecorded⟩ := h.resolveWith_arrived hA hsound hphase hall
      rw [hrecorded, htree] at hresolved
      obtain ⟨rfl, hreport⟩ := Prod.mk.inj hresolved
      obtain rfl := Except.ok.inj hreport
      exact ⟨h.announces, h.running, h.outlines, h.questions, nofun, h.extracted,
        fun _ => ⟨(hsound.queries hphase).1, rfl, rfl⟩, nofun⟩
  | discard hphase hall hresolved =>
      rw [(h.resolveWith_arrived hA hsound hphase hall).2] at hresolved
      cases hresolved
  | withhold _ hc => exact running hc
  | conclude hphase =>
      have hrecorded := h.recorded (by rw [hphase]; rfl)
      refine ⟨h.announces, h.running, h.outlines, h.questions, h.tree, h.extracted,
        fun _ => ⟨hrecorded.taken, hrecorded.tree, hrecorded.resolved⟩, ?_⟩
      exact fun result hended => (Phase.ended.inj hended).symm

end Follows

variable (folder : Folder) (options : Extract.Options) (maxRequests : Nat)

theorem follows_start (A : Answers) :
    Follows A folder options.openDocuments (start folder options maxRequests false) where
  announces := rfl
  running := rfl
  outlines := by
    intro n job p hn
    obtain ⟨_, -, hpair⟩ := Option.map_eq_some_iff.mp (List.getElem?_map .. ▸ hn)
    obtain ⟨-, rfl⟩ := Prod.mk.inj hpair
    trivial
  questions := nofun
  tree := fun _ => rfl
  extracted := rfl
  recorded := nofun
  ended := nofun

theorem follows_play {A : Answers} (hA : A.Harmless options.openDocuments) {ms : List Move}
    (hms : ∀ m ∈ ms, A.allows m) :
    Follows A folder options.openDocuments ((start folder options maxRequests false).play ms) := by
  induction ms using List.reverseRecOn with
  | nil => exact follows_start folder options maxRequests A
  | append_singleton ms m ih =>
      have ih := ih fun m' hm' => hms m' (List.mem_append_left _ hm')
      rw [play_concat]
      rcases move_cases ((start folder options maxRequests false).play ms) m with same | s
      · rwa [same]
      · exact ih.step hA (sound_play folder options maxRequests false ms) (hms m (by simp)) s

end Course

/-! ## The finished tree -/

/-- Dependencies that were recorded leave the metrics to be computed, and what is open about
their numbering leaves no trace in the finished tree. -/
theorem finish_resolvedTree {folder : Folder} {t : Tree} (h : Extract.Outlined folder t)
    (outcomes : List Resolve.Outcome) :
    ∃ t', finish (resolvedTree t outcomes) = .ok t' ∧
      ∀ choices : Nat → Graph.Choices, (∀ s, (choices s).Lawful) →
        ((resolvedTree t outcomes).computeMetricsWith choices).map Tree.sort = .ok t' := by
  have hasks := Resolve.asks_requests h.wellFormed outcomes
  obtain ⟨cs, hcs, hadd⟩ := h
  have hhistory := hasks.history_run hcs
  have hunmeasured : Tree.Change.computeMetrics ∉
      cs ++ Resolve.requests t (Resolve.places ((Resolve.queries t).zip outcomes)) := by
    rw [List.mem_append, not_or]
    refine ⟨fun hmem => Bool.false_ne_true (hadd _ hmem), fun hmem => ?_⟩
    obtain ⟨r, d, heq, -⟩ := hasks _ hmem
    cases heq
  have hlawful (s : Nat) : Graph.Choices.standard.Lawful := Graph.lawful_standard
  refine ⟨((resolvedTree t outcomes).measureAllWith fun _ => .standard).sort, ?_, ?_⟩
  · rw [finish, Tree.computeMetrics, resolvedTree, hhistory.computeMetricsWith_eq_ok hunmeasured]
    rfl
  · intro choices hchoices
    rw [resolvedTree, hhistory.computeMetricsWith_eq_ok hunmeasured,
      Tree.measureAllWith_congr hchoices hlawful]
    rfl

end Analysis

end SourceAtlas
