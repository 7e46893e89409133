import SourceAtlas.Proofs.Analysis.Arrivals
import SourceAtlas.Proofs.Analysis.Entering
import SourceAtlas.Proofs.Analysis.Recording
/-!
# Refused calls

A call that one server refuses may get an empty list from another (`Spares`). The tree
cannot tell the two apart, because outcomes reach it only by the entries and places in
them; a report counts one failure more.
-/

namespace SourceAtlas

namespace Analysis

/-- A chosen call is refused by one server and gets an empty list from another. All others
get the same harmless outcome. -/
def Spares {α : Type} (chosen : Bool) (o o' : Except CallError (List α)) : Prop :=
  if chosen then (∃ e, o = .error e ∧ e.isFatal = false) ∧ o' = .ok []
  else o = o' ∧ Harmless o'

namespace Spares

variable {α : Type} {chosen : Bool}

theorem harmless {o o' : Except CallError (List α)} (h : Spares chosen o o') :
    Harmless o ∧ Harmless o' := by
  cases chosen with
  | false =>
      obtain ⟨rfl, ho⟩ := h
      exact ⟨ho, ho⟩
  | true =>
      obtain ⟨⟨e, rfl, he⟩, rfl⟩ := h
      exact ⟨fun e' heq => Except.error.inj heq ▸ he, nofun⟩

theorem entries_eq {o o' : Extract.Outcome} (h : Spares chosen o o') :
    Extract.entries o = Extract.entries o' := by
  cases chosen with
  | false => rw [h.1]
  | true =>
      obtain ⟨⟨e, rfl, -⟩, rfl⟩ := h
      rfl

theorem located_eq {o o' : Resolve.Outcome} (h : Spares chosen o o') :
    Resolve.located o = Resolve.located o' := by
  cases chosen with
  | false => rw [h.1]
  | true =>
      obtain ⟨⟨e, rfl, -⟩, rfl⟩ := h
      rfl

/-- Of the calls in a list, the one server refuses those that the other refuses and those
that were chosen. -/
theorem countP_zip {f f' : Nat → Except CallError (List α)} {chosen : Nat → Bool}
    (h : ∀ n, Spares (chosen n) (f n) (f' n)) {β : Type} (as : List β) :
    (as.zip ((List.range as.length).map f)).countP (fun a => !a.2.isOk) =
      (as.zip ((List.range as.length).map f')).countP (fun a => !a.2.isOk) +
        (List.range as.length).countP chosen := by
  have bySecond (f : Nat → Except CallError (List α)) :
      (as.zip ((List.range as.length).map f)).countP (fun a => !a.2.isOk) =
        (List.range as.length).countP fun n => !(f n).isOk := by
    have hsecond : (as.zip ((List.range as.length).map f)).map Prod.snd =
        (List.range as.length).map f := List.map_snd_zip (by simp)
    have hcount := congrArg (List.countP fun o : Except CallError (List α) => !o.isOk) hsecond
    rwa [List.countP_map, List.countP_map] at hcount
  rw [bySecond, bySecond]
  generalize List.range as.length = ns
  induction ns with
  | nil => rfl
  | cons n ns ih =>
      rw [List.countP_cons, List.countP_cons, List.countP_cons, ih]
      have hn := h n
      cases hchosen : chosen n with
      | false =>
          rw [hchosen] at hn
          rw [hn.1]
          simp only [Bool.false_eq_true, if_false]
          omega
      | true =>
          rw [hchosen] at hn
          obtain ⟨⟨e, he, -⟩, he'⟩ := hn
          rw [he, he']
          simp [Except.isOk, Except.toBool]
          omega

end Spares

/-- Places enter the requests of a run, and no more than that. -/
theorem places_congr {outcomes outcomes' : List Resolve.Outcome}
    (h : outcomes.map Resolve.located = outcomes'.map Resolve.located) (qs : List Resolve.Query) :
    Resolve.places (qs.zip outcomes) = Resolve.places (qs.zip outcomes') := by
  have byPlaces (outcomes : List Resolve.Outcome) : Resolve.places (qs.zip outcomes) =
      (qs.zip (outcomes.map Resolve.located)).flatMap fun a =>
        a.2.map fun l => (a.1.symbol, l) := by
    rw [List.zip_map_right, List.flatMap_map]
    rfl
  rw [byPlaces, byPlaces, h]

end Analysis

end SourceAtlas
