import SourceAtlas.Proofs.Analysis.Completion
/-!
# Courses that are cancelled

A course that is cancelled before its dependencies are recorded ends without a tree,
whatever the schedule is (`endsCancelled`): it was cancelled, unless the handshake that
was under way fails or the connection breaks under a question. It begins no call any
more, and it records no dependency.
-/

namespace SourceAtlas

namespace Analysis

/-! ## Calls under way -/

namespace Progress

variable {κ α : Type}

def isUnderWay : Progress α → Bool
  | .opening | .asked => true
  | .idle | .settled _ => false

/-- A call is with the server, or its document is. -/
def UnderWay (calls : List (κ × Progress α)) (n : Nat) : Prop :=
  ∃ call, calls[n]? = some call ∧ call.2.isUnderWay = true

/-- A change that begins no call. -/
def Quiet (f : Progress α → Progress α) : Prop :=
  ∀ p, (f p).isUnderWay = true → p.isUnderWay = true

theorem quiet_launch (opens : Bool) : Quiet (launch (α := α) true opens) := by
  intro p h
  cases p with
  | idle => cases h
  | opening | asked | settled outcome => exact h

theorem quiet_opened (answer : Except CallError Unit) : Quiet (opened (α := α) answer) := by
  intro p h
  cases p with
  | opening => rfl
  | idle | asked | settled outcome => exact h

theorem quiet_answered (outcome : Except CallError α) : Quiet (answered outcome) := by
  intro p h
  cases p with
  | asked => rfl
  | idle | opening | settled outcome => exact h

theorem Quiet.underWay {f : Progress α → Progress α} (hf : Quiet f)
    {calls : List (κ × Progress α)} {n k : Nat} (h : UnderWay (advance calls n f) k) :
    UnderWay calls k := by
  obtain ⟨call, hcall, hopen⟩ := h
  rw [getElem?_advance] at hcall
  split at hcall
  · obtain ⟨call', hcall', rfl⟩ := Option.map_eq_some_iff.mp hcall
    exact ⟨call', hcall', hf _ hopen⟩
  · exact ⟨call, hcall, hopen⟩

end Progress

namespace Course

variable {c c' c'' : Course} {m : Move}

/-- Every call that is under way in one course was under way in another one. -/
structure Quieter (c c' : Course) : Prop where
  handshake : c'.phase = .greeting → c.phase = .greeting
  outlines : ∀ n, Progress.UnderWay c'.outlines n → Progress.UnderWay c.outlines n
  questions : ∀ n, Progress.UnderWay c'.questions n → Progress.UnderWay c.questions n

namespace Quieter

theorem refl (c : Course) : Quieter c c :=
  ⟨id, fun _ => id, fun _ => id⟩

theorem trans (h : Quieter c c') (h' : Quieter c' c'') : Quieter c c'' :=
  ⟨fun hphase => h.handshake (h'.handshake hphase),
    fun n hn => h.outlines n (h'.outlines n hn),
    fun n hn => h.questions n (h'.questions n hn)⟩

theorem stop (c : Course) (e : Failure) : Quieter c (c.stop e) :=
  ⟨nofun, fun _ => id, fun _ => id⟩

theorem step (hc : c.cancelled = true) (s : Step c m c') : Quieter c c' := by
  cases s with
  | cancel => exact ⟨id, fun _ => id, fun _ => id⟩
  | refuse => exact stop c _
  | greet _ hgo => rw [hc] at hgo; cases hgo
  | greeted => exact ⟨nofun, fun _ => id, fun _ => id⟩
  | rebuff => exact stop c _
  | launch =>
      rw [hc]
      exact ⟨id, fun _ => (Progress.quiet_launch _).underWay, fun _ => id⟩
  | opened => exact ⟨id, fun _ => (Progress.quiet_opened _).underWay, fun _ => id⟩
  | outlined => exact ⟨id, fun _ => (Progress.quiet_answered _).underWay, fun _ => id⟩
  | drop => exact stop c _
  | take _ hgo => rw [hc] at hgo; cases hgo
  | fail => exact stop c _
  | leave => exact stop c _
  | turn _ _ hgo => rw [hc] at hgo; cases hgo
  | ask =>
      rw [hc]
      exact ⟨id, fun _ => id, fun _ => (Progress.quiet_launch _).underWay⟩
  | answered => exact ⟨id, fun _ => id, fun _ => (Progress.quiet_answered _).underWay⟩
  | join => exact ⟨id, fun _ => id, fun _ => id⟩
  | sever | record | discard | withhold | conclude => exact ⟨nofun, fun _ => id, fun _ => id⟩

/-- A cancelled course begins no call. -/
theorem play (hc : c.cancelled = true) (ms : List Move) : Quieter c (c.play ms) := by
  induction ms generalizing c with
  | nil => exact refl c
  | cons m ms ih =>
      refine trans ?_ (ih (cancelled_move hc m))
      rcases move_cases c m with same | s
      · exact same.symm ▸ refl c
      · exact step hc s

end Quieter

/-! ## Broken connections -/

/-- The connection broke under the question of a number. -/
def Severed (c : Course) (n : Nat) (reason : String) : Prop :=
  ∃ q, c.questions[n]? = some (q, .settled (.error (.transport reason)))

theorem severed_step {n : Nat} {reason : String} (s : Step c m c') (h : c'.Severed n reason) :
    c.Severed n reason ∨ m = .answered n (.error (.transport reason)) := by
  cases s with
  | turn =>
      obtain ⟨q, hq⟩ := h
      simp at hq
  | ask k =>
      obtain ⟨q, hq⟩ := h
      rw [Progress.getElem?_advance] at hq
      split at hq
      · obtain ⟨⟨q', p⟩, hcall, heq⟩ := Option.map_eq_some_iff.mp hq
        obtain ⟨rfl, hp⟩ := Prod.mk.inj heq
        refine .inl ⟨q', hcall.trans ?_⟩
        cases p with
        | idle =>
            simp only [Progress.launch] at hp
            split at hp <;> cases hp
        | opening | asked | settled outcome => rw [← hp]; rfl
      · exact .inl ⟨q, hq⟩
  | answered k outcome =>
      obtain ⟨q, hq⟩ := h
      rw [Progress.getElem?_advance] at hq
      split at hq
      · next heq =>
          obtain ⟨⟨q', p⟩, hcall, hpair⟩ := Option.map_eq_some_iff.mp hq
          obtain ⟨rfl, hp⟩ := Prod.mk.inj hpair
          cases p with
          | asked =>
              obtain rfl : outcome = .error (.transport reason) := by
                simpa [Progress.answered] using hp
              exact .inr (by rw [heq])
          | idle | opening | settled _ => exact .inl ⟨q', hcall.trans (by rw [← hp]; rfl)⟩
      · exact .inl ⟨q, hq⟩
  | cancel | refuse | greet | greeted | rebuff | launch | opened | outlined | drop | take | fail
  | leave | join | sever | record | discard | withhold | conclude => exact .inl h

/-- A connection breaks only by an answer. -/
theorem severed_play {n : Nat} {reason : String} {ms : List Move}
    (h : (c.play ms).Severed n reason) :
    c.Severed n reason ∨ .answered n (.error (.transport reason)) ∈ ms := by
  induction ms generalizing c with
  | nil => exact .inl h
  | cons m ms ih =>
      rcases ih h with h | h
      · rcases move_cases c m with same | s
        · exact .inl (same ▸ h)
        · rcases severed_step s h with h | rfl
          · exact .inl h
          · exact .inr List.mem_cons_self
      · exact .inr (List.mem_cons_of_mem m h)

/-! ## How a cancelled course ends -/

/-- How a course may fail that was cancelled in a phase, by the moves before and after:
it was cancelled, or the handshake that was under way fails, or the connection breaks
under a question. -/
inductive Excuse (phase : Phase) (before after : List Move) : Failure → Prop where
  | cancelled : Excuse phase before after .cancelled
  | handshake {e : CallError} : phase = .greeting → .greeted (.error e) ∈ after →
      Excuse phase before after (.ofCall e)
  | severed {n : Nat} {reason : String} : phase = .asking →
      .answered n (.error (.transport reason)) ∈ before ++ after →
      Excuse phase before after (.transport reason)

theorem Excuse.append {phase : Phase} {before after : List Move} {f : Failure}
    (h : Excuse phase before after f) (more : List Move) :
    Excuse phase before (after ++ more) f := by
  cases h with
  | cancelled => exact .cancelled
  | handshake hphase hmem => exact .handshake hphase (List.mem_append_left _ hmem)
  | severed hphase hmem =>
      exact .severed hphase (List.append_assoc .. ▸ List.mem_append_left more hmem)

/-- What holds of a course after it was cancelled in a phase. Only a handshake that goes
well takes it to another phase. -/
structure Halting (phase : Phase) (before after : List Move) (c : Course) : Prop where
  cancelled : c.cancelled = true
  unresolved : c.resolved = none
  phase : c.phase = phase ∨ (phase = .greeting ∧ c.phase = .outlining) ∨
    ∃ f, c.phase = .ended (.error f) ∧ Excuse phase before after f

namespace Halting

variable {phase : Phase} {before after : List Move}

theorem stop (h : Halting phase before after c) {f : Failure} (hf : Excuse phase before after f) :
    Halting phase before after (c.stop f) :=
  ⟨h.cancelled, h.unresolved, .inr (.inr ⟨f, rfl, hf⟩)⟩

theorem append (h : Halting phase before after c) (more : List Move) :
    Halting phase before (after ++ more) c := by
  refine ⟨h.cancelled, h.unresolved, ?_⟩
  rcases h.phase with same | later | ⟨f, hended, hf⟩
  · exact .inl same
  · exact .inr (.inl later)
  · exact .inr (.inr ⟨f, hended, hf.append more⟩)

theorem phase_eq (h : Halting phase before after c) (houtlining : c.phase ≠ .outlining)
    (hended : ∀ result, c.phase ≠ .ended result) : phase = c.phase := by
  rcases h.phase with same | ⟨-, later⟩ | ⟨f, done, -⟩
  · exact same.symm
  · exact absurd later houtlining
  · exact absurd done (hended _)

theorem severed (h : Halting phase before after c) (hphase : c.phase = .asking)
    (hanswered : ∀ n reason, c.Severed n reason →
      .answered n (.error (.transport reason)) ∈ before ++ after) {n : Nat} {reason : String}
    (hn : c.Severed n reason) : Excuse phase before after (.transport reason) :=
  .severed ((h.phase_eq (by rw [hphase]; nofun) (by rw [hphase]; nofun)).trans hphase)
    (hanswered n reason hn)

theorem step {folder : Folder} (h : Halting phase before after c) (hsound : Sound folder c)
    (hearly : phase.isEarly = true)
    (hanswered : ∀ n reason, c.Severed n reason →
      .answered n (.error (.transport reason)) ∈ before ++ after)
    (s : Step c m c') : Halting phase before (after ++ [m]) c' := by
  have running {c' : Course} (hgo : c.cancelled = false) :
      Halting phase before (after ++ [m]) c' := by
    rw [h.cancelled] at hgo
    cases hgo
  have unrecorded (hphase : c.phase = .recorded) : False := by
    rw [h.phase_eq (by rw [hphase]; nofun) (by rw [hphase]; nofun), hphase] at hearly
    cases hearly
  have same (c' : Course) (hc : c'.cancelled = c.cancelled) (hr : c'.resolved = c.resolved)
      (hp : c'.phase = c.phase) : Halting phase before (after ++ [m]) c' :=
    ⟨hc ▸ h.cancelled, hr ▸ h.unresolved, hp ▸ (h.append [m]).phase⟩
  cases s with
  | cancel => exact ⟨rfl, h.unresolved, (h.append _).phase⟩
  | refuse => exact (h.append _).stop .cancelled
  | greet _ hgo => exact running hgo
  | greeted hphase =>
      have hgreeting := h.phase_eq (by rw [hphase]; nofun) (by rw [hphase]; nofun)
      exact ⟨h.cancelled, h.unresolved, .inr (.inl ⟨hgreeting.trans hphase, rfl⟩)⟩
  | rebuff e hphase =>
      have hgreeting := h.phase_eq (by rw [hphase]; nofun) (by rw [hphase]; nofun)
      exact (h.append _).stop (.handshake (hgreeting.trans hphase) (by simp))
  | launch | opened | outlined | ask | answered | join => exact same _ rfl rfl rfl
  | drop => exact (h.append _).stop .cancelled
  | take _ hgo => exact running hgo
  | fail _ hgo => exact running hgo
  | leave => exact (h.append _).stop .cancelled
  | turn _ _ hgo => exact running hgo
  | sever hphase hn =>
      have hsevered := h.severed hphase hanswered ⟨_, hn⟩
      exact ⟨h.cancelled, h.unresolved, .inr (.inr ⟨_, rfl, hsevered.append _⟩)⟩
  | record hphase _ hresolved =>
      obtain ⟨e, hfailed, -⟩ := Resolve.resolveWith_cancelled c.tree c.arrived
      rw [h.cancelled, hfailed] at hresolved
      cases hresolved
  | discard hphase _ hresolved =>
      obtain ⟨e, hfailed, he⟩ := Resolve.resolveWith_cancelled c.tree c.arrived
      rw [h.cancelled, hfailed] at hresolved
      obtain ⟨rfl, rfl⟩ : c.tree = _ ∧ e = _ := by simpa using hresolved
      rcases he with rfl | ⟨n, reason, hmem, rfl⟩
      · exact (h.append _).stop .cancelled
      · exact (h.append _).stop ((h.severed hphase hanswered (hsound.settled hmem)).append _)
  | withhold hphase => exact absurd hphase unrecorded
  | conclude hphase => exact absurd hphase unrecorded

end Halting

/-- What comes of a course that was cancelled after some moves: it never gives a tree,
however it goes on, it can always be brought to its end, it begins no call any more and
records no dependency. A document that was being announced may still be outlined. -/
structure EndsCancelled (c : Course) (before : List Move) : Prop where
  fails : ∀ after result, (c.play (before ++ after)).phase = .ended result →
    ∃ f, result = .error f ∧ Excuse (c.play before).phase before after f
  ends : ∀ (A : Answers) (after : List Move), ∃ more, (∀ m ∈ more, A.allows m) ∧
    ∃ result, (c.play (before ++ after ++ more)).phase = .ended result
  quiet : ∀ after, Quieter (c.play before) (c.play (before ++ after))
  unrecorded : ∀ after i k, ((c.play (before ++ after)).tree.links i).outgoing k = [] ∧
    ((c.play (before ++ after)).tree.links i).incoming k = []

variable (folder : Folder) (options : Extract.Options) (maxRequests : Nat) (cancelled : Bool)

theorem halting_play {before : List Move}
    (hc : ((start folder options maxRequests cancelled).play before).cancelled = true)
    (hearly : ((start folder options maxRequests cancelled).play before).phase.isEarly = true)
    (after : List Move) :
    Halting ((start folder options maxRequests cancelled).play before).phase before after
      ((start folder options maxRequests cancelled).play (before ++ after)) := by
  induction after using List.reverseRecOn with
  | nil =>
      rw [List.append_nil]
      have hsound := sound_play folder options maxRequests cancelled before
      exact ⟨hc, hsound.unresolved hearly, .inl rfl⟩
  | append_singleton after m ih =>
      rw [← List.append_assoc, play_append _ (before ++ after)]
      rcases move_cases ((start folder options maxRequests cancelled).play (before ++ after)) m with
        same | s
      · rw [play_cons, play_nil, same]
        exact ih.append [m]
      · have hsound := sound_play folder options maxRequests cancelled (before ++ after)
        refine ih.step hsound hearly (fun n reason hn => ?_) s
        rcases severed_play hn with ⟨q, hq⟩ | hanswered
        · cases hq
        · exact hanswered

theorem endsCancelled {before : List Move}
    (hc : ((start folder options maxRequests cancelled).play before).cancelled = true)
    (hearly : ((start folder options maxRequests cancelled).play before).phase.isEarly = true) :
    EndsCancelled (start folder options maxRequests cancelled) before where
  fails := by
    intro after result hended
    rcases (halting_play folder options maxRequests cancelled hc hearly after).phase with
      same | ⟨-, later⟩ | ⟨f, hf, hexcuse⟩
    · rw [← same, hended] at hearly
      cases hearly
    · rw [hended] at later
      cases later
    · rw [hended] at hf
      exact ⟨f, Phase.ended.inj hf, hexcuse⟩
  ends := by
    intro A after
    obtain ⟨more, hmore, hended⟩ :=
      exists_ended A (sound_play folder options maxRequests cancelled (before ++ after))
    exact ⟨more, hmore, play_append .. ▸ hended⟩
  quiet := fun after => play_append .. ▸ Quieter.play hc after
  unrecorded := by
    intro after i k
    have hhalting := halting_play folder options maxRequests cancelled hc hearly after
    have hsound := sound_play folder options maxRequests cancelled (before ++ after)
    exact (hsound.outlined hhalting.unresolved).links_eq_nil i k

end Course

end Analysis

end SourceAtlas
