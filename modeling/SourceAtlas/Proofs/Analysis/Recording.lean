import SourceAtlas.Proofs.Analysis.Arrivals
import SourceAtlas.Proofs.Tree.Containment
import SourceAtlas.Proofs.Tree.Dependencies
/-!
# What answers record

Recording a dependency changes neither which symbol is around a place nor which
dependencies can be (`SameView`), so what a run records is settled before it records
anything: the tree it leaves has one more request for every answered place in a symbol,
and the report tallies the classes of those places (`resolveWith_eq`).
-/

namespace SourceAtlas

namespace Resolve

open SourceAtlas.Tree

variable {t u : Tree} {d i r : Nat}

/-! ## What recording leaves alone -/

/-- Two trees have the same symbols around every place and allow the same
dependencies. -/
structure SameView (t u : Tree) : Prop where
  symbolAt? : ∀ l, symbolAt? u l = symbolAt? t l
  classify? : ∀ r d, u.classify? r d = t.classify? r d

/-- What lies around a place depends on origins, parts and files only. -/
theorem symbolAt?_congr (h : t.WellFormed) (hu : u.WellFormed)
    (horigin : ∀ i, u.origin? i = t.origin? i) (hparts : ∀ i, u.parts i = t.parts i)
    (hfiles : u.files = t.files) (l : Location) : symbolAt? u l = symbolAt? t l := by
  have hfacts : u.facts? = t.facts? := funext fun i => by
    rw [facts?_eq_origin?, horigin, ← facts?_eq_origin?]
  have haround : u.symbolAround? l.range = t.symbolAround? l.range := funext fun i => by
    rw [symbolAround?, symbolAround?, hfacts]
    exact h.fold_congr hu hparts _ i
  have hcontaining : ∀ file, u.symbolContaining? file l.range = t.symbolContaining? file l.range :=
    fun file => by rw [symbolContaining?, symbolContaining?, hparts, haround]
  rw [symbolAt?, symbolAt?, fileForUri?, fileForUri?, hfiles]
  exact congrArg _ (funext hcontaining)

theorem keeps_addDependency (h : u.WellFormed) (hview : SameView t u) (r d : Nat) :
    (u.addDependency r d).WellFormed ∧ SameView t (u.addDependency r d) := by
  rcases addDependency_cases u r d with ⟨-, heq⟩ | ⟨k, -, heq⟩
  · rw [heq]
    exact ⟨h, hview⟩
  · have horigin := origin?_link u k r d
    have hwf : (u.link k r d).WellFormed :=
      h.congr (size_link u k r d) horigin fun i => .of_eq (parts_link u k r d i)
    rw [heq]
    refine ⟨hwf, fun l => ?_, fun x y => (classify?_congr horigin x y).trans (hview.classify? x y)⟩
    rw [symbolAt?_congr h hwf horigin (parts_link u k r d) rfl, hview.symbolAt?]

/-! ## What is recorded -/

/-- The places of an answer; none where the query failed. -/
def located : Outcome → List Location
  | .ok locations => locations
  | .error _ => []

/-- The places that were answered, each with the symbol that was asked about. -/
def places (answers : List (Query × Outcome)) : List (Nat × Location) :=
  answers.flatMap fun a => (located a.2).map fun l => (a.1.symbol, l)

/-- The dependencies that places ask for. -/
def requests (t : Tree) (ps : List (Nat × Location)) : List Change :=
  ps.filterMap fun p => (symbolAt? t p.2).map fun r => .addDependency r p.1

def classes (t : Tree) (ps : List (Nat × Location)) : List (Option EdgeClass) :=
  ps.map fun p => edge? t p.1 p.2

theorem requests_append (t : Tree) (ps qs : List (Nat × Location)) :
    requests t (ps ++ qs) = requests t ps ++ requests t qs :=
  List.filterMap_append

theorem classes_append (t : Tree) (ps qs : List (Nat × Location)) :
    classes t (ps ++ qs) = classes t ps ++ classes t qs :=
  List.map_append

theorem places_cons (a : Query × Outcome) (answers : List (Query × Outcome)) :
    places (a :: answers) = (located a.2).map (fun l => (a.1.symbol, l)) ++ places answers :=
  List.flatMap_cons

/-- A report with more failed queries and more places, by their classes. -/
def Report.tally (r : Report) (failed : Nat) (ks : List (Option EdgeClass)) : Report :=
  { r with
    failed := r.failed + failed
    scopeEdges := r.scopeEdges + ks.count (some .inScope)
    externalEdges := r.externalEdges + ks.count (some .external)
    dropped := r.dropped + ks.count none }

theorem Report.count_eq_tally (r : Report) (k : Option EdgeClass) : r.count k = r.tally 0 [k] := by
  rcases k with _ | _ | _ <;> rfl

theorem Report.tally_tally (r : Report) (m n : Nat) (ks js : List (Option EdgeClass)) :
    (r.tally m ks).tally n js = r.tally (m + n) (ks ++ js) := by
  simp [tally, List.count_append, Nat.add_assoc]

theorem recordPlace_eq (hview : SameView t u) (d : Nat) (l : Location) :
    recordPlace u d l = u.run (requests t [(d, l)]) := by
  rw [recordPlace, hview.symbolAt?]
  cases hl : symbolAt? t l <;> simp [requests, hl, run, Change.apply]

theorem edge?_congr (hview : SameView t u) (d : Nat) (l : Location) :
    edge? u d l = edge? t d l := by
  rw [edge?, edge?, hview.symbolAt?]
  exact congrArg _ (funext fun r => hview.classify? r d)

theorem keeps_recordPlace (h : u.WellFormed) (hview : SameView t u) (d : Nat) (l : Location) :
    (recordPlace u d l).WellFormed ∧ SameView t (recordPlace u d l) := by
  rw [recordPlace]
  split
  · exact keeps_addDependency h hview _ d
  · exact ⟨h, hview⟩

/-- Recording places makes the requests and tallies the classes that the tree gave them
to begin with. -/
theorem recordPlaces_eq (h : u.WellFormed) (hview : SameView t u) (d : Nat)
    (ls : List Location) (report : Report) :
    ((recordPlaces d ls (u, report)).1.WellFormed ∧
      SameView t (recordPlaces d ls (u, report)).1) ∧
    recordPlaces d ls (u, report) =
      (u.run (requests t (ls.map fun l => (d, l))),
        report.tally 0 (classes t (ls.map fun l => (d, l)))) := by
  induction ls generalizing u report with
  | nil => exact ⟨⟨h, hview⟩, rfl⟩
  | cons l ls ih =>
      obtain ⟨hwf, hview'⟩ := keeps_recordPlace h hview d l
      obtain ⟨hkept, heq⟩ := ih hwf hview' (report.count (edge? u d l))
      rw [recordPlaces]
      refine ⟨hkept, ?_⟩
      rw [heq, recordPlace_eq hview, edge?_congr hview, Report.count_eq_tally, Report.tally_tally,
        ← run_append, ← requests_append]
      rfl

theorem recordAnswers_eq (h : u.WellFormed) (hview : SameView t u)
    (answers : List (Query × Outcome)) (report : Report) :
    recordAnswers (answers.map fun a => (a.1, answer? a.2)) (u, report) =
      (u.run (requests t (places answers)),
        report.tally (answers.countP fun a => !a.2.isOk) (classes t (places answers))) := by
  induction answers generalizing u report with
  | nil => rfl
  | cons a answers ih =>
      obtain ⟨q, outcome⟩ := a
      cases outcome with
      | ok locations =>
          obtain ⟨⟨hwf, hview'⟩, heq⟩ := recordPlaces_eq h hview q.symbol locations report
          rw [List.map_cons, answer?, recordAnswers, heq]
          rw [heq] at hwf hview'
          rw [ih hwf hview', Report.tally_tally, ← run_append, places_cons, requests_append,
            classes_append]
          simp [located, Except.isOk, Except.toBool]
      | error e =>
          have hfailed : { report with failed := report.failed + 1 } = report.tally 1 [] := rfl
          rw [List.map_cons, answer?, recordAnswers, hfailed, ih h hview, Report.tally_tally,
            places_cons, Nat.add_comm 1]
          simp [located, Except.isOk, Except.toBool]

/-- Outcomes of all queries, in whatever order they arrive, record the dependencies that
the answered places ask for. -/
theorem resolveWith_eq (h : t.WellFormed) {outcomes : List Outcome}
    {arrivals : List (Nat × Outcome)} (hlength : outcomes.length = (queries t).length)
    (hbroken : ∀ o ∈ outcomes, ¬ Broken o) (harrivals : arrivals.Perm (numbered outcomes)) :
    t.resolveWith false arrivals =
      (t.run (requests t (places ((queries t).zip outcomes))),
        .ok (Report.tally ⟨(queries t).length, t.symbolIds.countP (isSkipped t), 0, 0, 0, 0⟩
          (((queries t).zip outcomes).countP fun a => !a.2.isOk)
          (classes t (places ((queries t).zip outcomes))))) := by
  have hzip : (queries t).zip (outcomes.map answer?) =
      ((queries t).zip outcomes).map fun a => (a.1, answer? a.2) := List.zip_map_right
  rw [resolveWith, ← hlength, gather_eq_ok hbroken harrivals]
  dsimp only
  rw [hzip, recordAnswers_eq h ⟨fun _ => rfl, fun _ _ => rfl⟩]

end Resolve

end SourceAtlas
