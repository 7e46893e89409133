import Mathlib.Data.List.Nodup
import SourceAtlas.Analysis.Resolve
/-!
# Outcomes in the order they arrive

Outcomes are collected under the numbers of their queries, so the order in which they
arrive leaves no trace (`gather_eq_ok`). Asked one after another, a server answers every
query after the calls for those before it (`Answered`).
-/

namespace SourceAtlas

namespace Resolve

variable {outcomes : List Outcome} {arrivals : List (Nat × Outcome)}

/-- What was answered; nothing where the query failed. -/
def answer? : Outcome → Option (List Location)
  | .ok locations => some locations
  | .error _ => none

/-- Whether an outcome says that the connection is broken. -/
def Broken (o : Outcome) : Prop := ∃ reason, o = .error (.transport reason)

/-! ## Collecting -/

/-- An outcome of a call on a working connection does not end the collection. -/
theorem collect_cons {o : Outcome} (h : ¬ Broken o) (n : Nat) (arrivals : List (Nat × Outcome))
    (answers : Array (Option (List Location))) :
    ∃ answers', collect ((n, o) :: arrivals) answers = collect arrivals answers' := by
  match o with
  | .ok locations => exact ⟨answers.setIfInBounds n (some locations), rfl⟩
  | .error (.transport reason) => exact absurd ⟨reason, rfl⟩ h
  | .error (.response _ _) | .error (.decode _ _) | .error .cancelled => exact ⟨answers, rfl⟩

/-- Collecting stores every answer under its number and nothing else. -/
theorem collect_eq_ok (hbroken : ∀ a ∈ arrivals, ¬ Broken a.2)
    (hnodup : (arrivals.map Prod.fst).Nodup) (answers : Array (Option (List Location))) :
    ∃ collected, collect arrivals answers = .ok collected ∧ collected.size = answers.size ∧
      (∀ n locations, (n, .ok locations) ∈ arrivals → n < answers.size →
        collected[n]? = some (some locations)) ∧
      ∀ n, (∀ locations, (n, .ok locations) ∉ arrivals) → collected[n]? = answers[n]? := by
  induction arrivals generalizing answers with
  | nil => exact ⟨answers, rfl, rfl, by simp, by simp⟩
  | cons a arrivals ih =>
      obtain ⟨n, outcome⟩ := a
      obtain ⟨hn, hrest⟩ := List.nodup_cons.mp hnodup
      have ih := ih (fun a ha => hbroken a (List.mem_cons_of_mem _ ha)) hrest
      cases outcome with
      | ok locations =>
          obtain ⟨collected, hok, hsize, hmem, hnot⟩ :=
            ih (answers.setIfInBounds n (some locations))
          rw [Array.size_setIfInBounds] at hsize hmem
          refine ⟨collected, hok, hsize, ?_, ?_⟩
          · intro m found hfound hm
            rcases List.mem_cons.mp hfound with heq | hfound
            · obtain ⟨rfl, rfl⟩ : m = n ∧ found = locations := by simpa using heq
              rw [hnot m fun _ h => hn (List.mem_map.mpr ⟨_, h, rfl⟩)]
              simp [hm]
            · exact hmem m found hfound hm
          · intro m hm
            have hne : n ≠ m := fun heq => hm locations (heq ▸ List.mem_cons_self)
            rw [hnot m fun _ h => hm _ (List.mem_cons_of_mem _ h)]
            simp [hne]
      | error e =>
          obtain ⟨collected, hok, hsize, hmem, hnot⟩ := ih answers
          have hstep : collect ((n, .error e) :: arrivals) answers = collect arrivals answers := by
            cases e with
            | transport reason => exact absurd ⟨reason, rfl⟩ (hbroken _ List.mem_cons_self)
            | response code message => rfl
            | decode method reason => rfl
            | cancelled => rfl
          refine ⟨collected, hstep.trans hok, hsize, ?_, ?_⟩
          · intro m found hfound hm
            exact hmem m found (by simpa using hfound) hm
          · intro m hm
            exact hnot m fun _ h => hm _ (List.mem_cons_of_mem _ h)

/-- Only a broken connection ends the collection. -/
theorem collect_eq_error {e : Failure} {answers : Array (Option (List Location))}
    (h : collect arrivals answers = .error e) :
    ∃ n reason, (n, .error (.transport reason)) ∈ arrivals ∧ e = .transport reason := by
  induction arrivals generalizing answers with
  | nil => cases h
  | cons a arrivals ih =>
      obtain ⟨n, outcome⟩ := a
      by_cases hbroken : Broken outcome
      · obtain ⟨reason, rfl⟩ := hbroken
        exact ⟨n, reason, List.mem_cons_self, (Except.error.inj h).symm⟩
      · obtain ⟨answers', heq⟩ := collect_cons hbroken n arrivals answers
        obtain ⟨m, reason, hmem, he⟩ := ih (heq ▸ h)
        exact ⟨m, reason, List.mem_cons_of_mem _ hmem, he⟩

/-- A broken connection ends the collection, wherever its outcome arrives. -/
theorem collect_of_broken (h : ∃ a ∈ arrivals, Broken a.2)
    (answers : Array (Option (List Location))) :
    ∃ n reason, (n, .error (.transport reason)) ∈ arrivals ∧
      collect arrivals answers = .error (.transport reason) := by
  induction arrivals generalizing answers with
  | nil => simp at h
  | cons a arrivals ih =>
      obtain ⟨n, outcome⟩ := a
      by_cases houtcome : Broken outcome
      · obtain ⟨reason, rfl⟩ := houtcome
        exact ⟨n, reason, List.mem_cons_self, rfl⟩
      · obtain ⟨answers', heq⟩ := collect_cons houtcome n arrivals answers
        have hlater : ∃ a ∈ arrivals, Broken a.2 := by
          simpa [houtcome] using h
        obtain ⟨m, reason, hmem, hcollect⟩ := ih hlater answers'
        exact ⟨m, reason, List.mem_cons_of_mem _ hmem, heq.trans hcollect⟩

/-- A cancelled run records nothing. -/
theorem resolveWith_cancelled (t : Tree) (arrivals : List (Nat × Outcome)) :
    ∃ e, t.resolveWith true arrivals = (t, .error e) ∧ (e = .cancelled ∨
      ∃ n reason, (n, .error (.transport reason)) ∈ arrivals ∧ e = .transport reason) := by
  rw [Tree.resolveWith, gather]
  cases hcollect : collect arrivals (Array.replicate (queries t).length none) with
  | error e => exact ⟨e, rfl, .inr (collect_eq_error hcollect)⟩
  | ok answers => exact ⟨.cancelled, rfl, .inl rfl⟩

/-- Outcomes that fail leave the tree as it was. -/
theorem resolveWith_error {t t' : Tree} {cancelled : Bool} {e : Failure}
    (h : t.resolveWith cancelled arrivals = (t', .error e)) : t' = t := by
  rw [Tree.resolveWith] at h
  split at h
  · exact (Prod.mk.inj h).1.symm
  · cases (Prod.mk.inj h).2

theorem mem_numbered {n : Nat} {o : Outcome} :
    (n, o) ∈ numbered outcomes ↔ outcomes[n]? = some o := by
  simp [numbered, List.mem_zipIdx_iff_getElem?]

theorem map_fst_numbered (outcomes : List Outcome) :
    (numbered outcomes).map Prod.fst = List.range outcomes.length := by
  rw [numbered, List.map_map, List.range_eq_range', ← List.zipIdx_map_snd 0 outcomes]
  rfl

/-- Whatever the order of arrival, every query gets its own answer. -/
theorem gather_eq_ok (hbroken : ∀ o ∈ outcomes, ¬ Broken o)
    (harrivals : arrivals.Perm (numbered outcomes)) :
    gather outcomes.length false arrivals = .ok (outcomes.map answer?).toArray := by
  have hmem : ∀ n o, (n, o) ∈ arrivals ↔ outcomes[n]? = some o := fun n o =>
    harrivals.mem_iff.trans mem_numbered
  have hnodup : (arrivals.map Prod.fst).Nodup := by
    rw [(harrivals.map Prod.fst).nodup_iff, map_fst_numbered]
    exact List.nodup_range
  have hbroken : ∀ a ∈ arrivals, ¬ Broken a.2 := fun a ha =>
    hbroken a.2 (List.mem_of_getElem? ((hmem a.1 a.2).mp ha))
  obtain ⟨collected, hok, hsize, hfound, hnot⟩ :=
    collect_eq_ok hbroken hnodup (Array.replicate outcomes.length none)
  rw [gather, hok]
  refine congrArg Except.ok (Array.ext_getElem? fun n => ?_)
  have hright : (outcomes.map answer?).toArray[n]? = outcomes[n]?.map answer? := by simp
  rw [hright]
  rw [Array.size_replicate] at hsize hfound
  cases hn : outcomes[n]? with
  | none =>
      have hle : outcomes.length ≤ n := List.getElem?_eq_none_iff.mp hn
      rw [Array.getElem?_eq_none (hsize ▸ hle)]
      rfl
  | some o =>
      have hlt : n < outcomes.length := (List.getElem?_eq_some_iff.mp hn).1
      cases o with
      | ok locations => exact hfound n locations ((hmem n _).mpr hn) hlt
      | error e =>
          rw [hnot n fun locations h => by simp [(hmem n _).mp h] at hn]
          simp [hlt, answer?]

theorem mem_of_perm_numbered (h : arrivals.Perm (numbered outcomes)) {o : Outcome} :
    o ∈ outcomes ↔ ∃ n, (n, o) ∈ arrivals := by
  rw [List.mem_iff_getElem?]
  exact exists_congr fun n => (h.mem_iff.trans mem_numbered).symm

theorem gather_of_broken (hbroken : ∃ o ∈ outcomes, Broken o)
    (harrivals : arrivals.Perm (numbered outcomes)) (count : Nat) (cancelled : Bool) :
    ∃ reason, .error (.transport reason) ∈ outcomes ∧
      gather count cancelled arrivals = .error (.transport reason) := by
  obtain ⟨o, ho, hbroken⟩ := hbroken
  obtain ⟨n, hn⟩ := (mem_of_perm_numbered harrivals).mp ho
  obtain ⟨m, reason, hmem, hcollect⟩ :=
    collect_of_broken ⟨(n, o), hn, hbroken⟩ (Array.replicate count none)
  refine ⟨reason, (mem_of_perm_numbered harrivals).mpr ⟨m, hmem⟩, ?_⟩
  rw [gather, hcollect]

theorem resolveWith_of_gather_error {t : Tree} {cancelled : Bool} {e : Failure}
    (h : gather (queries t).length cancelled arrivals = .error e) :
    t.resolveWith cancelled arrivals = (t, .error e) := by
  simp only [Tree.resolveWith, h]

/-! ## Asking -/

/-- The call a query makes. -/
def Query.call (q : Query) : Call := .references q.uri q.position

/-- The outcomes of queries are the answers of a server that is asked one after another,
after some calls. -/
def Answered (server : Server) (calls : List Call) (qs : List Query)
    (outcomes : List Outcome) : Prop :=
  outcomes.length = qs.length ∧ ∀ i q, qs[i]? = some q → outcomes[i]? =
    some (server.references (calls ++ (qs.take i).map Query.call) q.uri q.position).result

/-- Where the answers do not depend on the calls before, neither does their order. -/
theorem Answered.eq_map {server : Server} {calls : List Call} {qs : List Query}
    {answer : String → Position → Outcome} (h : Answered server calls qs outcomes)
    (hserver : ∀ calls uri position, (server.references calls uri position).result =
      answer uri position) : outcomes = qs.map fun q => answer q.uri q.position := by
  refine List.ext_getElem? fun i => ?_
  rw [List.getElem?_map]
  cases hq : qs[i]? with
  | none => exact List.getElem?_eq_none_iff.mpr (h.1 ▸ List.getElem?_eq_none_iff.mp hq)
  | some q => rw [h.2 i q hq, hserver, Option.map_some]

/-- Once a run is cancelled it stays cancelled. -/
theorem cancelled_ask (server : Server) (qs : List Query) {s : Session} (h : s.cancelled = true) :
    (ask server qs s).1.cancelled = true := by
  induction qs generalizing s with
  | nil => exact h
  | cons q qs ih =>
      rw [ask, if_pos h]
      exact ih h

/-- A run that is not cancelled asks everything. -/
theorem answered_ask {server : Server} {qs : List Query} {s : Session}
    (h : (ask server qs s).1.cancelled = false) :
    (ask server qs s).1.calls = s.calls ++ qs.map Query.call ∧
      Answered server s.calls qs (ask server qs s).2 := by
  induction qs generalizing s with
  | nil => exact ⟨by simp [ask], rfl, by simp⟩
  | cons q qs ih =>
      have hs : ¬ s.cancelled = true := fun hs => by
        rw [cancelled_ask server (q :: qs) hs] at h
        cases h
      rw [ask, if_neg hs] at h ⊢
      obtain ⟨hcalls, hlength, hanswers⟩ := ih h
      refine ⟨hcalls.trans (by simp [Session.references, Session.record, Query.call]),
        by simp [hlength], ?_⟩
      · intro i q' hq'
        cases i with
        | zero =>
            obtain rfl : q = q' := by simpa using hq'
            simp [Session.references]
        | succ i =>
            have hanswer := hanswers i q' (by simpa using hq')
            simpa [Session.references, Session.record, Query.call] using hanswer

end Resolve

end SourceAtlas
