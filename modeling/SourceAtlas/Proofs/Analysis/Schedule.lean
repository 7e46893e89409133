import SourceAtlas.Analysis.Course
import SourceAtlas.Proofs.Analysis.Arrivals
import SourceAtlas.Proofs.Analysis.Entering
/-!
# What every schedule keeps

`Step` lists what a move can do to a course, and `move_cases` says that it does one of
these things or nothing. The rest is read off that list: a cancelled course stays
cancelled, and whatever the schedule is, the calls are those of the files and symbols of
the tree, each collected once (`sound_play`).
-/

namespace SourceAtlas

namespace Analysis

namespace Course

variable {c c' : Course} {m : Move}

@[simp] theorem play_nil (c : Course) : c.play [] = c := rfl

@[simp] theorem play_cons (c : Course) (m : Move) (ms : List Move) :
    c.play (m :: ms) = (c.move m).play ms := rfl

theorem play_append (c : Course) (ms ms' : List Move) :
    c.play (ms ++ ms') = (c.play ms).play ms' :=
  List.foldl_append

theorem play_concat (c : Course) (ms : List Move) (m : Move) :
    c.play (ms ++ [m]) = (c.play ms).move m := by
  rw [play_append, play_cons, play_nil]

/-! ## What a move can do -/

inductive Step (c : Course) : Move → Course → Prop where
  | cancel : Step c .cancel { c with cancelled := true }
  | refuse : c.phase = .ready → c.cancelled = true → Step c .greet (c.stop .cancelled)
  | greet : c.phase = .ready → c.cancelled = false →
      Step c .greet { c with phase := .greeting }
  | greeted : c.phase = .greeting → Step c (.greeted (.ok ())) { c with phase := .outlining }
  | rebuff (e : CallError) : c.phase = .greeting →
      Step c (.greeted (.error e)) (c.stop (.ofCall e))
  | launch (n : Nat) : c.phase = .outlining → n < c.taken + c.limit →
      Step c (.launch n)
        { c with
          outlines := Progress.advance c.outlines n
            (.launch c.cancelled c.options.openDocuments) }
  | opened (n : Nat) (answer : Except CallError Unit) : c.phase = .outlining →
      Step c (.opened n answer)
        { c with outlines := Progress.advance c.outlines n (.opened answer) }
  | outlined (n : Nat) (outcome : Except CallError (List Outline.Entry)) :
      c.phase = .outlining → Step c (.outlined n outcome)
        { c with outlines := Progress.advance c.outlines n (.answered outcome) }
  | drop {job : Extract.Job} {outcome : Except CallError (List Outline.Entry)} :
      c.phase = .outlining → c.cancelled = true →
      c.outlines[c.taken]? = some (job, .settled outcome) → Step c .take (c.stop .cancelled)
  | take {job : Extract.Job} {outcome : Except CallError (List Outline.Entry)}
      {tree : Tree} {extracted : Extract.Report} : c.phase = .outlining → c.cancelled = false →
      c.outlines[c.taken]? = some (job, .settled outcome) →
      Extract.absorb c.tree c.extracted job outcome = .ok (tree, extracted) →
      Step c .take { c with tree, extracted, taken := c.taken + 1 }
  | fail {job : Extract.Job} {outcome : Except CallError (List Outline.Entry)} {e : Failure} :
      c.phase = .outlining → c.cancelled = false →
      c.outlines[c.taken]? = some (job, .settled outcome) →
      Extract.absorb c.tree c.extracted job outcome = .error e → Step c .take (c.stop e)
  | leave : c.phase = .outlining → c.taken = c.outlines.length → c.cancelled = true →
      Step c .turn (c.stop .cancelled)
  | turn : c.phase = .outlining → c.taken = c.outlines.length → c.cancelled = false →
      Step c .turn
        { c with
          phase := .asking
          questions := (Resolve.queries c.tree).map fun q => (q, .idle) }
  | ask (n : Nat) : c.phase = .asking → (c.cancelled = true ∨ c.inFlight < c.limit) →
      Step c (.ask n)
        { c with questions := Progress.advance c.questions n (.launch c.cancelled false) }
  | answered (n : Nat) (outcome : Resolve.Outcome) : c.phase = .asking →
      Step c (.answered n outcome)
        { c with questions := Progress.advance c.questions n (.answered outcome) }
  | join {n : Nat} {q : Resolve.Query} {outcome : Resolve.Outcome} : c.phase = .asking →
      c.questions[n]? = some (q, .settled outcome) → n ∉ c.arrived.map (·.1) →
      (∀ reason, outcome ≠ .error (.transport reason)) →
      Step c (.join n) { c with arrived := c.arrived ++ [(n, outcome)] }
  | sever {n : Nat} {q : Resolve.Query} {reason : String} : c.phase = .asking →
      c.questions[n]? = some (q, .settled (.error (.transport reason))) →
      n ∉ c.arrived.map (·.1) →
      Step c (.join n)
        ({ c with arrived := c.arrived ++ [(n, Except.error (CallError.transport reason))] }.stop
          (.transport reason))
  | record {tree : Tree} {report : Resolve.Report} : c.phase = .asking →
      c.arrived.length = c.questions.length →
      c.tree.resolveWith c.cancelled c.arrived = (tree, .ok report) →
      Step c .record { c with tree, resolved := some report, phase := .recorded }
  | discard {tree : Tree} {e : Failure} : c.phase = .asking →
      c.arrived.length = c.questions.length →
      c.tree.resolveWith c.cancelled c.arrived = (tree, .error e) →
      Step c .record ({ c with tree }.stop e)
  | withhold : c.phase = .recorded → c.cancelled = true →
      Step c .conclude (c.stop .cancelled)
  | conclude : c.phase = .recorded → c.cancelled = false →
      Step c .conclude { c with phase := .ended (finish c.tree) }

/-- A move does one of these things, or it cannot be made. -/
theorem move_cases (c : Course) (m : Move) : c.move m = c ∨ Step c m (c.move m) := by
  have idle (b : Bool) (h : ¬ b = true) : b = false := by simpa using h
  cases m with
  | cancel => exact .inr .cancel
  | greet =>
      simp only [move, greet]
      split
      · next hphase =>
          split
          · next hc => exact .inr (.refuse hphase hc)
          · next hc => exact .inr (.greet hphase (idle _ hc))
      · exact .inl rfl
  | greeted answer =>
      simp only [move, greeted]
      split
      · next hphase =>
          match answer with
          | .ok () => exact .inr (.greeted hphase)
          | .error e => exact .inr (.rebuff e hphase)
      · exact .inl rfl
  | launch n =>
      simp only [move, launch, outline]
      split
      · next hroom =>
          split
          · next hphase => exact .inr (.launch n hphase hroom)
          · exact .inl rfl
      · exact .inl rfl
  | opened n answer =>
      simp only [move, outline]
      split
      · next hphase => exact .inr (.opened n answer hphase)
      · exact .inl rfl
  | outlined n outcome =>
      simp only [move, outline]
      split
      · next hphase => exact .inr (.outlined n outcome hphase)
      · exact .inl rfl
  | take =>
      simp only [move, take]
      split
      · next job outcome hphase hnext =>
          split
          · next hc => exact .inr (.drop hphase hc hnext)
          · next hc =>
              split
              · next tree extracted habsorb =>
                  exact .inr (.take hphase (idle _ hc) hnext habsorb)
              · next e habsorb => exact .inr (.fail hphase (idle _ hc) hnext habsorb)
      · exact .inl rfl
  | turn =>
      simp only [move, turn]
      split
      · next hphase =>
          split
          · next hall =>
              split
              · next hc => exact .inr (.leave hphase hall hc)
              · next hc => exact .inr (.turn hphase hall (idle _ hc))
          · exact .inl rfl
      · exact .inl rfl
  | ask n =>
      simp only [move, ask, question]
      split
      · next hroom =>
          split
          · next hphase => exact .inr (.ask n hphase hroom)
          · exact .inl rfl
      · exact .inl rfl
  | answered n outcome =>
      simp only [move, question]
      split
      · next hphase => exact .inr (.answered n outcome hphase)
      · exact .inl rfl
  | join n =>
      simp only [move, join]
      split
      · next q outcome hphase hsettled =>
          split
          · exact .inl rfl
          · next hnew =>
              split
              · exact .inr (.sever hphase hsettled hnew)
              · next hbroken =>
                  exact .inr (.join hphase hsettled hnew fun reason h => hbroken reason h)
      · exact .inl rfl
  | record =>
      simp only [move, record]
      split
      · next hphase =>
          split
          · next hall =>
              split
              · next tree report hresolved => exact .inr (.record hphase hall hresolved)
              · next tree e hresolved => exact .inr (.discard hphase hall hresolved)
          · exact .inl rfl
      · exact .inl rfl
  | conclude =>
      simp only [move, conclude]
      split
      · next hphase =>
          split
          · next hc => exact .inr (.withhold hphase hc)
          · next hc => exact .inr (.conclude hphase (idle _ hc))
      · exact .inl rfl

/-- Each of these is what a move does. -/
theorem Step.move_eq (s : Step c m c') : c.move m = c' := by
  cases s with
  | cancel => rfl
  | refuse hphase hc => simp only [move, Course.greet, hphase, if_pos hc]
  | greet hphase hc => simp [move, Course.greet, hphase, hc]
  | greeted hphase => simp only [move, Course.greeted, hphase]
  | rebuff e hphase => simp only [move, Course.greeted, hphase]
  | launch n hphase hroom => simp only [move, Course.launch, outline, hphase, if_pos hroom]
  | opened n answer hphase => simp only [move, outline, hphase]
  | outlined n outcome hphase => simp only [move, outline, hphase]
  | drop hphase hc hnext => simp only [move, Course.take, hphase, hnext, if_pos hc]
  | take hphase hc hnext habsorb => simp [move, Course.take, hphase, hc, hnext, habsorb]
  | fail hphase hc hnext habsorb => simp [move, Course.take, hphase, hc, hnext, habsorb]
  | leave hphase hall hc => simp only [move, Course.turn, hphase, if_pos hall, if_pos hc]
  | turn hphase hall hc => simp [move, Course.turn, hphase, hall, hc]
  | ask n hphase hroom => simp only [move, Course.ask, question, hphase, if_pos hroom]
  | answered n outcome hphase => simp only [move, question, hphase]
  | @join n q outcome hphase hn hnew hbroken =>
      match outcome with
      | .ok _ | .error (.response _ _) | .error (.decode _ _) | .error .cancelled =>
          simp only [move, Course.join, hphase, hn, if_neg hnew]
      | .error (.transport reason) => exact absurd rfl (hbroken reason)
  | sever hphase hn hnew => simp only [move, Course.join, hphase, hn, if_neg hnew]
  | record hphase hall hresolved => simp only [move, Course.record, hphase, if_pos hall, hresolved]
  | discard hphase hall hresolved => simp only [move, Course.record, hphase, if_pos hall, hresolved]
  | withhold hphase hc => simp only [move, Course.conclude, hphase, if_pos hc]
  | conclude hphase hc => simp [move, Course.conclude, hphase, hc]

/-- A cancelled course stays cancelled. -/
theorem cancelled_move (h : c.cancelled = true) (m : Move) : (c.move m).cancelled = true := by
  rcases move_cases c m with same | step
  · rwa [same]
  · generalize c.move m = c' at step
    cases step <;> first | rfl | exact h

/-! ## Calls and collected outcomes -/

/-- What holds of a course of a folder under every schedule. -/
structure Sound (folder : Folder) (c : Course) : Prop where
  limit : 0 < c.limit
  jobs : c.outlines.map (·.1) = Extract.jobs (Tree.ofFolder folder)
  taken : c.taken ≤ c.outlines.length
  unresolved : c.phase.isEarly → c.resolved = none
  outlined : c.resolved = none → Extract.Outlined folder c.tree
  unasked : c.phase.isEarly → c.phase ≠ .asking → c.questions = []
  queries : c.phase = .asking →
    c.taken = c.outlines.length ∧ c.questions.map (·.1) = Resolve.queries c.tree
  unopened : ∀ q ∈ c.questions, q.2 ≠ .opening
  collected : (c.arrived.map (·.1)).Nodup
  settled : ∀ {n o}, (n, o) ∈ c.arrived → ∃ q, c.questions[n]? = some (q, .settled o)

namespace Sound

variable {folder : Folder}

theorem ended (h : Sound folder c) (result : Except Failure Tree) :
    Sound folder { c with phase := .ended result } where
  limit := h.limit
  jobs := h.jobs
  taken := h.taken
  unresolved := nofun
  outlined := h.outlined
  unasked := nofun
  queries := nofun
  unopened := h.unopened
  collected := h.collected
  settled := h.settled

theorem stop (h : Sound folder c) (e : Failure) : Sound folder (c.stop e) :=
  h.ended (.error e)

/-- The handshake goes on. -/
theorem phase (h : Sound folder c) (hearly : c.phase.isEarly) (hasking : c.phase ≠ .asking)
    {p : Phase} (hp : p ≠ .asking) : Sound folder { c with phase := p } where
  limit := h.limit
  jobs := h.jobs
  taken := h.taken
  unresolved := fun _ => h.unresolved hearly
  outlined := h.outlined
  unasked := fun _ _ => h.unasked hearly hasking
  queries := fun hphase => absurd hphase hp
  unopened := h.unopened
  collected := h.collected
  settled := h.settled

theorem outlines (h : Sound folder c) (hphase : c.phase = .outlining) (n : Nat)
    (f : Progress (List Outline.Entry) → Progress (List Outline.Entry)) :
    Sound folder { c with outlines := Progress.advance c.outlines n f } where
  limit := h.limit
  jobs := by rw [Progress.map_fst_advance, h.jobs]
  taken := by rw [Progress.length_advance]; exact h.taken
  unresolved := h.unresolved
  outlined := h.outlined
  unasked := h.unasked
  queries := fun hasking => by rw [hphase] at hasking; cases hasking
  unopened := h.unopened
  collected := h.collected
  settled := h.settled

theorem length_outlines (h : Sound folder c) :
    c.outlines.length = (Extract.jobs (Tree.ofFolder folder)).length := by
  rw [← h.jobs, List.length_map]

/-- Outcomes were collected of some of the questions, of each once. -/
theorem subperm_range (h : Sound folder c) :
    (c.arrived.map (·.1)).Subperm (List.range c.questions.length) := by
  refine h.collected.subperm fun n hn => ?_
  obtain ⟨⟨k, o⟩, ho, rfl⟩ := List.mem_map.mp hn
  obtain ⟨q, hq⟩ := h.settled ho
  exact List.mem_range.mpr (List.getElem?_eq_some_iff.mp hq).1

theorem length_arrived_le (h : Sound folder c) : c.arrived.length ≤ c.questions.length := by
  simpa using h.subperm_range.length_le

/-- A settled question stays settled, and none waits for a document. -/
theorem questions (h : Sound folder c) (n : Nat)
    (f : Progress (List Location) → Progress (List Location))
    (kept : ∀ o, f (.settled o) = .settled o) (closed : ∀ p, p ≠ .opening → f p ≠ .opening) :
    c.phase = .asking → Sound folder { c with questions := Progress.advance c.questions n f } := by
  intro hphase
  constructor
  case limit => exact h.limit
  case jobs => exact h.jobs
  case taken => exact h.taken
  case unresolved => exact h.unresolved
  case outlined => exact h.outlined
  case unasked => exact fun _ hasking => absurd hphase hasking
  case queries =>
    intro _
    obtain ⟨hall, hqueries⟩ := h.queries hphase
    exact ⟨hall, by rw [Progress.map_fst_advance, hqueries]⟩
  case unopened =>
    intro q hq
    obtain ⟨k, hk⟩ := List.mem_iff_getElem?.mp hq
    rw [Progress.getElem?_advance] at hk
    split at hk
    · obtain ⟨q', hq', rfl⟩ := Option.map_eq_some_iff.mp hk
      exact closed _ (h.unopened q' (List.mem_of_getElem? hq'))
    · exact h.unopened q (List.mem_of_getElem? hk)
  case collected => exact h.collected
  case settled =>
    intro k o ho
    obtain ⟨q, hq⟩ := h.settled ho
    refine ⟨q, ?_⟩
    rw [Progress.getElem?_advance, hq]
    split
    · rw [Option.map_some, kept]
    · rfl

theorem turn (h : Sound folder c) (hphase : c.phase = .outlining)
    (hall : c.taken = c.outlines.length) :
    Sound folder
      { c with
        phase := .asking
        questions := (Resolve.queries c.tree).map fun q => (q, .idle) } where
  limit := h.limit
  jobs := h.jobs
  taken := h.taken
  unresolved := fun _ => h.unresolved (by rw [hphase]; rfl)
  outlined := h.outlined
  unasked := fun _ hasking => absurd rfl hasking
  queries := fun _ => ⟨hall, (List.map_map ..).trans (List.map_id _)⟩
  unopened := by simp
  collected := h.collected
  settled := by
    -- Nothing was collected, because there was no question yet.
    intro n o ho
    obtain ⟨q, hq⟩ := h.settled ho
    rw [h.unasked (by rw [hphase]; rfl) (by rw [hphase]; nofun)] at hq
    cases hq

theorem take (h : Sound folder c) (hphase : c.phase = .outlining) {job : Extract.Job}
    {outcome : Except CallError (List Outline.Entry)} {tree : Tree} {extracted : Extract.Report}
    (hnext : c.outlines[c.taken]? = some (job, .settled outcome))
    (habsorb : Extract.absorb c.tree c.extracted job outcome = .ok (tree, extracted)) :
    Sound folder { c with tree, extracted, taken := c.taken + 1 } := by
  have hunresolved : c.resolved = none := h.unresolved (by rw [hphase]; rfl)
  have hjob : job ∈ Extract.jobs (Tree.ofFolder folder) :=
    h.jobs ▸ List.mem_map.mpr ⟨_, List.mem_of_getElem? hnext, rfl⟩
  have hentered : tree = Extract.enter c.tree [(job, outcome)] := by
    rw [Extract.absorb_eq (Extract.harmless_of_absorb habsorb)] at habsorb
    exact (Prod.mk.inj (Except.ok.inj habsorb)).1.symm
  constructor
  case limit => exact h.limit
  case jobs => exact h.jobs
  case taken => exact Nat.succ_le_of_lt (List.getElem?_eq_some_iff.mp hnext).1
  case unresolved => exact h.unresolved
  case outlined =>
    intro _
    rw [hentered]
    exact (h.outlined hunresolved).enter fun a ha => by rwa [List.mem_singleton.mp ha]
  case unasked => exact h.unasked
  case queries =>
    intro hasking
    rw [hphase] at hasking
    cases hasking
  case unopened => exact h.unopened
  case collected => exact h.collected
  case settled => exact h.settled

theorem join (h : Sound folder c) {n : Nat} {q : Resolve.Query} {outcome : Resolve.Outcome}
    (hsettled : c.questions[n]? = some (q, .settled outcome))
    (hnew : n ∉ c.arrived.map (·.1)) :
    Sound folder { c with arrived := c.arrived ++ [(n, outcome)] } where
  limit := h.limit
  jobs := h.jobs
  taken := h.taken
  unresolved := h.unresolved
  outlined := h.outlined
  unasked := h.unasked
  queries := h.queries
  unopened := h.unopened
  collected := by
    rw [List.map_append]
    exact h.collected.append (List.nodup_singleton n) (by simpa using hnew)
  settled := by
    intro k o ho
    rcases List.mem_append.mp ho with ho | ho
    · exact h.settled ho
    · obtain ⟨rfl, rfl⟩ : k = n ∧ o = outcome := by simpa using ho
      exact ⟨q, hsettled⟩

theorem record (h : Sound folder c) (tree : Tree) (report : Resolve.Report) :
    Sound folder { c with tree, resolved := some report, phase := .recorded } where
  limit := h.limit
  jobs := h.jobs
  taken := h.taken
  unresolved := nofun
  outlined := nofun
  unasked := nofun
  queries := nofun
  unopened := h.unopened
  collected := h.collected
  settled := h.settled

theorem step (h : Sound folder c) (s : Step c m c') : Sound folder c' := by
  cases s with
  | cancel =>
      exact ⟨h.limit, h.jobs, h.taken, h.unresolved, h.outlined, h.unasked, h.queries,
        h.unopened, h.collected, h.settled⟩
  | refuse => exact h.stop _
  | greet hphase => exact h.phase (by rw [hphase]; rfl) (by rw [hphase]; nofun) nofun
  | greeted hphase => exact h.phase (by rw [hphase]; rfl) (by rw [hphase]; nofun) nofun
  | rebuff => exact h.stop _
  | launch n hphase => exact h.outlines hphase n _
  | opened n answer hphase => exact h.outlines hphase n _
  | outlined n outcome hphase => exact h.outlines hphase n _
  | drop => exact h.stop _
  | take hphase _ hnext habsorb => exact h.take hphase hnext habsorb
  | fail => exact h.stop _
  | leave => exact h.stop _
  | turn hphase hall => exact h.turn hphase hall
  | ask n hphase =>
      refine h.questions n _ (fun o => rfl) (fun p hp => ?_) hphase
      cases p <;> simp_all [Progress.launch]
      split <;> nofun
  | answered n outcome hphase =>
      refine h.questions n _ (fun o => rfl) (fun p hp => ?_) hphase
      cases p <;> simp_all [Progress.answered]
  | join _ hsettled hnew => exact h.join hsettled hnew
  | sever _ hsettled hnew => exact (h.join hsettled hnew).stop _
  | record => exact h.record _ _
  | discard _ _ hfailed =>
      rw [Resolve.resolveWith_error hfailed]
      exact h.stop _
  | withhold => exact h.stop _
  | conclude => exact h.ended _

end Sound

theorem sound_start (folder : Folder) (options : Extract.Options) (maxRequests : Nat)
    (cancelled : Bool) : Sound folder (start folder options maxRequests cancelled) where
  limit := Nat.lt_of_lt_of_le Nat.one_pos (Nat.le_max_left 1 maxRequests)
  jobs := (List.map_map ..).trans (List.map_id _)
  taken := Nat.zero_le _
  unresolved := fun _ => rfl
  outlined := fun _ => .loaded folder
  unasked := fun _ _ => rfl
  queries := nofun
  unopened := nofun
  collected := List.nodup_nil
  settled := nofun

theorem Sound.play {folder : Folder} (h : Sound folder c) (ms : List Move) :
    Sound folder (c.play ms) := by
  induction ms generalizing c with
  | nil => exact h
  | cons m ms ih =>
      rw [play_cons]
      rcases move_cases c m with same | step
      · exact ih (same.symm ▸ h)
      · exact ih (h.step step)

theorem sound_play (folder : Folder) (options : Extract.Options) (maxRequests : Nat)
    (cancelled : Bool) (ms : List Move) :
    Sound folder ((start folder options maxRequests cancelled).play ms) :=
  (sound_start folder options maxRequests cancelled).play ms

end Course

end Analysis

end SourceAtlas
