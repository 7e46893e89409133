import SourceAtlas.Proofs.Analysis.Recording
/-!
# Dependencies from references

The requests that a run makes are the references in the answers
(`mem_requests_iff_refers`). With the account of what asking for dependencies adds to a
tree, this says which dependencies there are afterwards, and what the counts of the
report have to do with them (`Resolved`).
-/

namespace SourceAtlas

namespace Resolve

open SourceAtlas.Tree

variable {t : Tree} {d i r : Nat}

/-! ## Queries -/

/-- A symbol is asked about at the start of its name, unless it is a name space or its
file is none of the tree. -/
theorem query?_eq_some_iff {q : Query} :
    query? t d = some q ↔ ∃ facts uri, t.facts? d = some facts ∧
      facts.kind.isNamespace = false ∧ uriOf? t facts.file = some uri ∧
      q = ⟨d, uri, facts.selection.start⟩ := by
  rw [query?, isSkipped]
  cases hfacts : t.facts? d with
  | none => simp
  | some facts =>
      cases hkind : facts.kind.isNamespace <;> simp [hkind, eq_comm (a := q)]

theorem isSome_uriOf? (t : Tree) (file : Nat) : (uriOf? t file).isSome = t.isFile file := by
  rw [uriOf?, isFile]
  cases ha : t.get? file with
  | none => rfl
  | some a => cases hcontent : a.content <;> simp [hcontent, Content.isFile]

theorem mem_queries (h : t.WellFormed) {q : Query} :
    q ∈ queries t ↔ query? t q.symbol = some q := by
  rw [queries, List.mem_filterMap]
  constructor
  · rintro ⟨d, -, hq⟩
    obtain ⟨facts, uri, -, -, -, rfl⟩ := query?_eq_some_iff.mp hq
    exact hq
  · intro hq
    obtain ⟨facts, uri, hfacts, -⟩ := query?_eq_some_iff.mp hq
    exact ⟨q.symbol, h.mem_symbolIds.mpr (by simp [isSymbol, hfacts]), hq⟩

theorem nodup_queries (h : t.WellFormed) : (queries t).Nodup := by
  refine h.nodup_symbolIds.filterMap fun d e q hd he => ?_
  obtain ⟨facts, uri, -, -, -, rfl⟩ := query?_eq_some_iff.mp hd
  obtain ⟨facts', uri', -, -, -, heq⟩ := query?_eq_some_iff.mp he
  exact (Query.mk.inj heq).1

/-- Every query has one outcome. -/
theorem existsUnique_outcome (h : t.WellFormed) {outcomes : List Outcome}
    (hlength : outcomes.length = (queries t).length) {q : Query} (hq : q ∈ queries t) :
    ∃! o, (q, o) ∈ (queries t).zip outcomes := by
  obtain ⟨i, hi, rfl⟩ := List.mem_iff_getElem.mp hq
  refine ⟨outcomes[i], List.mem_iff_getElem.mpr ⟨i, by simp [hi, hlength], by simp⟩, ?_⟩
  intro o ho
  obtain ⟨j, hj, heq⟩ := List.mem_iff_getElem.mp ho
  rw [List.getElem_zip, Prod.mk.injEq] at heq
  obtain rfl : j = i := (nodup_queries h).getElem_inj_iff.mp heq.1
  exact heq.2.symm

/-- When every symbol stands in a file, all but the name spaces are asked about. -/
theorem length_queries_add_skipped (h : t.WellFormed)
    (hfiles : ∀ d facts, t.facts? d = some facts → t.isFile facts.file = true) :
    (queries t).length + t.symbolIds.countP (isSkipped t) = t.stats.symbols := by
  rw [← h.length_symbolIds, List.length_eq_countP_add_countP (isSkipped t), Nat.add_comm, queries,
    List.length_filterMap_eq_countP]
  congr 1
  refine List.countP_congr fun d hd => ?_
  obtain ⟨facts, hfacts⟩ := Option.isSome_iff_exists.mp (h.mem_symbolIds.mp hd)
  have huri : (uriOf? t facts.file).isSome = true := by rw [isSome_uriOf?, hfiles d facts hfacts]
  obtain ⟨uri, huri⟩ := Option.isSome_iff_exists.mp huri
  cases hskipped : isSkipped t d <;> simp [query?, hskipped, hfacts, huri]

/-! ## Places -/

theorem mem_places {answers : List (Query × Outcome)} {l : Location} :
    (d, l) ∈ places answers ↔
      ∃ q locations, (q, .ok locations) ∈ answers ∧ q.symbol = d ∧ l ∈ locations := by
  rw [places, List.mem_flatMap]
  constructor
  · rintro ⟨⟨q, outcome⟩, ha, hl⟩
    cases outcome with
    | error e => simp [located] at hl
    | ok locations =>
        obtain ⟨m, hm, heq⟩ := List.mem_map.mp hl
        obtain ⟨rfl, rfl⟩ := Prod.mk.inj heq
        exact ⟨q, locations, ha, rfl, hm⟩
  · rintro ⟨q, locations, ha, rfl, hl⟩
    exact ⟨_, ha, List.mem_map.mpr ⟨l, hl, rfl⟩⟩

theorem length_places (answers : List (Query × Outcome)) :
    (places answers).length = total (fun a => (located a.2).length) answers := by
  induction answers with
  | nil => rfl
  | cons a answers ih => rw [places_cons, List.length_append, List.length_map, ih, total_cons]

/-- Every place falls in one of the three counts. -/
theorem counts_eq_length (ks : List (Option EdgeClass)) :
    ks.count (some .inScope) + ks.count (some .external) + ks.count none = ks.length := by
  induction ks with
  | nil => rfl
  | cons k ks ih =>
      rw [List.length_cons, ← ih]
      rcases k with _ | _ | _ <;> simp +arith

/-- What is found around a place is a symbol. -/
theorem isSymbol_of_symbolAround? (h : t.WellFormed) {range : Range}
    (hr : t.symbolAround? range i = some r) : t.isSymbol r = true := by
  induction i using h.wellFounded_parts.induction with
  | _ i ih =>
      rw [symbolAround?, h.fold_eq] at hr
      cases hfacts : t.facts? i with
      | none => simp [hfacts] at hr
      | some facts =>
          simp only [hfacts] at hr
          rcases Option.or_eq_some_iff.mp hr with hbelow | ⟨-, hhere⟩
          · obtain ⟨found, hfound, rfl⟩ := List.exists_of_findSome?_eq_some hbelow
            obtain ⟨p, hp, heq⟩ := List.mem_map.mp hfound
            exact ih p hp heq
          · split at hhere
            · obtain rfl := Option.some.inj hhere
              simp [isSymbol, hfacts]
            · cases hhere

theorem isSymbol_of_symbolAt? (h : t.WellFormed) {l : Location} (hr : symbolAt? t l = some r) :
    t.isSymbol r = true := by
  obtain ⟨file, -, hfile⟩ := Option.bind_eq_some_iff.mp hr
  obtain ⟨part, -, hpart⟩ := List.exists_of_findSome?_eq_some hfile
  exact isSymbol_of_symbolAround? h hpart

/-! ## References -/

/-- The symbol `d` is no name space and was asked about, and `r` is the innermost symbol
around a place in the answer. -/
def Refers (t : Tree) (answers : List (Query × Outcome)) (r d : Nat) : Prop :=
  ∃ facts uri locations, t.facts? d = some facts ∧ facts.kind.isNamespace = false ∧
    uriOf? t facts.file = some uri ∧
    (⟨d, uri, facts.selection.start⟩, .ok locations) ∈ answers ∧
    ∃ l ∈ locations, ∃ file, t.fileForUri? l.uri = some file ∧
      t.symbolContaining? file l.range = some r

theorem mem_requests {ps : List (Nat × Location)} :
    .addDependency r d ∈ requests t ps ↔ ∃ l, (d, l) ∈ ps ∧ symbolAt? t l = some r := by
  rw [requests, List.mem_filterMap]
  constructor
  · rintro ⟨⟨e, l⟩, hp, heq⟩
    obtain ⟨r', hr', hrd⟩ := Option.map_eq_some_iff.mp heq
    obtain ⟨rfl, rfl⟩ := Change.addDependency.inj hrd
    exact ⟨l, hp, hr'⟩
  · rintro ⟨l, hp, hr⟩
    exact ⟨(d, l), hp, by rw [hr]; rfl⟩

/-- The dependencies asked for are the references in the answers. -/
theorem mem_requests_iff_refers (h : t.WellFormed) (outcomes : List Outcome) :
    .addDependency r d ∈ requests t (places ((queries t).zip outcomes)) ↔
      Refers t ((queries t).zip outcomes) r d := by
  rw [mem_requests]
  constructor
  · rintro ⟨l, hp, hr⟩
    obtain ⟨q, locations, ha, rfl, hl⟩ := mem_places.mp hp
    obtain ⟨facts, uri, hfacts, hkind, huri, hq⟩ :=
      query?_eq_some_iff.mp ((mem_queries h).mp (List.of_mem_zip ha).1)
    obtain ⟨file, hfile, haround⟩ := Option.bind_eq_some_iff.mp hr
    exact ⟨facts, uri, locations, hfacts, hkind, huri, hq ▸ ha, l, hl, file, hfile, haround⟩
  · rintro ⟨facts, uri, locations, -, -, -, ha, l, hl, file, hfile, haround⟩
    exact ⟨l, mem_places.mpr ⟨_, locations, ha, rfl, hl⟩,
      Option.bind_eq_some_iff.mpr ⟨file, hfile, haround⟩⟩

theorem Refers.isSymbol (h : t.WellFormed) {answers : List (Query × Outcome)}
    (hrd : Refers t answers r d) : t.isSymbol r = true ∧ t.isSymbol d = true := by
  obtain ⟨facts, uri, locations, hfacts, -, -, -, l, -, file, hfile, haround⟩ := hrd
  refine ⟨isSymbol_of_symbolAt? h (Option.bind_eq_some_iff.mpr ⟨file, hfile, haround⟩), ?_⟩
  rw [Tree.isSymbol, hfacts]
  rfl

theorem asks_requests (h : t.WellFormed) (outcomes : List Outcome) :
    t.Asks (requests t (places ((queries t).zip outcomes))) := by
  intro c hc
  obtain ⟨⟨d, l⟩, hp, heq⟩ := List.mem_filterMap.mp hc
  obtain ⟨r, hr, rfl⟩ := Option.map_eq_some_iff.mp heq
  have hsymbols := ((mem_requests_iff_refers h outcomes).mp hc).isSymbol h
  exact ⟨r, d, rfl, lt_size_of_isSymbol hsymbols.1, lt_size_of_isSymbol hsymbols.2⟩

/-- In a tree that had none, the dependencies of a class are no more than the places of that
class. -/
theorem edgeCount_run_le {f : Folder} {cs : List Change} (h : History f cs t)
    {ps : List (Nat × Location)} (hasks : t.Asks (requests t ps)) {k : EdgeClass}
    (hnone : t.edgeCount k = 0) :
    (t.run (requests t ps)).edgeCount k ≤ (classes t ps).count (some k) := by
  let found := (ps.filter fun p => edge? t p.1 p.2 == some k).map fun p =>
    ((symbolAt? t p.2).getD root, p.1)
  have hafter := hasks.history_run h
  have hempty : t.edgesOf k = [] :=
    List.eq_nil_of_length_eq_zero (by rw [length_edgesOf, hnone])
  have hsubset : (t.run (requests t ps)).edgesOf k ⊆ found := by
    rintro ⟨r, d⟩ hrd
    rw [hafter.wellFormed.mem_edgesOf, hasks.mem_outgoing_run h, ← h.wellFormed.mem_edgesOf k (r, d),
      hempty] at hrd
    obtain ⟨hrequest, hk⟩ := hrd.resolve_left List.not_mem_nil
    obtain ⟨l, hp, hr⟩ := mem_requests.mp hrequest
    refine List.mem_map.mpr ⟨(d, l), List.mem_filter.mpr ⟨hp, ?_⟩, by simp [hr]⟩
    simp [edge?, hr, hk]
  have hlength : found.length = (classes t ps).count (some k) := by
    rw [List.length_map, ← List.countP_eq_length_filter, classes, List.count, List.countP_map]
    rfl
  have hnodup := hafter.wellFormed.nodup_edgesOf hafter.records.ascending_outgoing k
  rw [← length_edgesOf, ← hlength]
  exact (hnodup.subperm hsubset).length_le

/-! ## Main statement -/

/-- What a tree and a report say after the queries of the tree were answered. -/
structure Resolved (t : Tree) (answers : List (Query × Outcome)) (t' : Tree) (report : Report) :
    Prop where
  alike : Alike t' t
  mem_outgoing : ∀ r d k, d ∈ (t'.links r).outgoing k ↔ d ∈ (t.links r).outgoing k ∨
    (Refers t answers r d ∧ t.contains r d = false ∧ t.contains d r = false ∧
      (k = .inScope ↔ t.scopeOf? r = t.scopeOf? d))
  mem_incoming : ∀ r d k, r ∈ (t'.links d).incoming k ↔ d ∈ (t'.links r).outgoing k
  class_iff : ∀ r d k, d ∈ (t'.links r).outgoing k →
    (k = .inScope ↔ t.scopeOf? r = t.scopeOf? d)
  asked : ∀ d facts uri, t.facts? d = some facts → facts.kind.isNamespace = false →
    uriOf? t facts.file = some uri → ∃! o, (⟨d, uri, facts.selection.start⟩, o) ∈ answers
  queried : report.queried = answers.length
  queried_add_skipped : (∀ d facts, t.facts? d = some facts → t.isFile facts.file = true) →
    report.queried + report.skipped = t.stats.symbols
  failed : report.failed = answers.countP fun a => !a.2.isOk
  placed : report.scopeEdges + report.externalEdges + report.dropped =
    total (fun a => (located a.2).length) answers
  edgeCount_le : (∀ k, t.edgeCount k = 0) →
    t'.edgeCount .inScope ≤ report.scopeEdges ∧ t'.edgeCount .external ≤ report.externalEdges

theorem resolved_of_outcomes {f : Folder} {cs : List Change} (h : History f cs t)
    {outcomes : List Outcome} (hlength : outcomes.length = (queries t).length) :
    Resolved t ((queries t).zip outcomes)
      (t.run (requests t (places ((queries t).zip outcomes))))
      (Report.tally ⟨(queries t).length, t.symbolIds.countP (isSkipped t), 0, 0, 0, 0⟩
        (((queries t).zip outcomes).countP fun a => !a.2.isOk)
        (classes t (places ((queries t).zip outcomes)))) := by
  have hwf := h.wellFormed
  have hasks := asks_requests hwf outcomes
  set answers := (queries t).zip outcomes with hanswers
  set t' := t.run (requests t (places answers))
  have hrec := (hasks.history_run h).records
  have halike : Alike t' t := hasks.alike_run h
  constructor
  · exact halike
  · intro r d k
    rw [hasks.mem_outgoing_run h, mem_requests_iff_refers hwf, classify?_eq_some_iff]
    refine or_congr_right (and_congr_right fun hrefers => ?_)
    rw [and_iff_right (hrefers.isSymbol hwf).1, and_iff_right (hrefers.isSymbol hwf).2]
  · intro r d k
    rw [hrec.mem_incoming, hrec.mem_outgoing]
  · intro r d k hd
    have hk := ((hrec.mem_outgoing r d k).mp hd).2
    rw [classify?_congr halike.origin?] at hk
    exact (classify?_eq_some_iff.mp hk).2.2.2.2
  · intro d facts uri hfacts hkind huri
    refine existsUnique_outcome hwf hlength ((mem_queries hwf).mpr ?_)
    exact query?_eq_some_iff.mpr ⟨facts, uri, hfacts, hkind, huri, rfl⟩
  · simp [Report.tally, hanswers, hlength]
  · exact length_queries_add_skipped hwf
  · simp [Report.tally]
  · simp only [Report.tally, Nat.zero_add]
    rw [counts_eq_length, classes, List.length_map, length_places]
  · intro hnone
    have hle : ∀ k, t'.edgeCount k ≤ (classes t (places answers)).count (some k) := fun k =>
      edgeCount_run_le h hasks (hnone k)
    simpa [Report.tally] using And.intro (hle .inScope) (hle .external)

/-! ## A server that knows one use -/

def nestedOutlined : Tree := (ofFolder nestedFolder).run nestedOutlines

/-- Where 8 stands, in the first file. -/
def oddPlace : Location := ⟨"file:///app/core/core.swift", ⟨⟨26, 4⟩, ⟨26, 8⟩⟩⟩

/-- The uses of what stands in line 10 of one file and line 20 of the other: the one is
used by 8, the other is refused. Nothing else is used anywhere. -/
def oneUse (uri : String) (position : Position) : Outcome :=
  if uri = "file:///app/main.swift" ∧ position.line = 10 then .ok [oddPlace]
  else if uri = "file:///app/core/core.swift" ∧ position.line = 20 then
    .error (.response 1 "refused")
  else .ok []

def oneUseServer : Server where
  handshake _ _ _ := ⟨.ok (), false⟩
  openDocument _ _ _ _ := ⟨.ok (), false⟩
  outline _ _ := ⟨.ok [], false⟩
  references _ uri position := ⟨oneUse uri position, false⟩

theorem not_broken_oneUse (uri : String) (position : Position) : ¬ Broken (oneUse uri position) := by
  rintro ⟨reason, h⟩
  rw [oneUse] at h
  split at h
  · cases h
  · split at h
    · cases h
    · cases h

end Resolve

namespace Tree

open Resolve

variable {t : Tree}

/-- Without broken connection and without cancellation dependencies are resolved. What is
recorded are the references in the answers between symbols of which neither contains the
other, and the report accounts for every symbol, every query and every place. This holds
in whatever order the outcomes of the queries arrive, and for a server that is asked one
query after another. -/
theorem resolveDependencies_records_references {f : Folder} {cs : List Change}
    (h : History f cs t) :
    (∀ outcomes arrivals, outcomes.length = (queries t).length → (∀ o ∈ outcomes, ¬ Broken o) →
      arrivals.Perm (numbered outcomes) →
        ∃ t' report, t.resolveWith false arrivals = (t', .ok report) ∧
          Resolved t ((queries t).zip outcomes) t' report) ∧
    ∀ (server : Server) (s : Session),
      (∀ calls uri position, ¬ Broken (server.references calls uri position).result) →
      (t.resolveDependencies server s).1.cancelled = false →
        ∃ outcomes t' report, (t.resolveDependencies server s).2 = (t', .ok report) ∧
          (t.resolveDependencies server s).1.calls = s.calls ++ (queries t).map Query.call ∧
          Answered server s.calls (queries t) outcomes ∧
          Resolved t ((queries t).zip outcomes) t' report := by
  have harrived : ∀ outcomes arrivals, outcomes.length = (queries t).length →
      (∀ o ∈ outcomes, ¬ Broken o) → arrivals.Perm (numbered outcomes) →
        ∃ t' report, t.resolveWith false arrivals = (t', .ok report) ∧
          Resolved t ((queries t).zip outcomes) t' report :=
    fun outcomes arrivals hlength hbroken harrivals =>
      ⟨_, _, resolveWith_eq h.wellFormed hlength hbroken harrivals, resolved_of_outcomes h hlength⟩
  refine ⟨harrived, fun server s hbroken hcancelled => ?_⟩
  have hcancelled : (ask server (queries t) s).1.cancelled = false := hcancelled
  obtain ⟨hcalls, hanswered⟩ := answered_ask hcancelled
  have hbroken : ∀ o ∈ (ask server (queries t) s).2, ¬ Broken o := by
    intro o ho
    obtain ⟨i, hi, rfl⟩ := List.mem_iff_getElem.mp ho
    have hq := hanswered.2 i _ (List.getElem?_eq_getElem (hanswered.1 ▸ hi))
    rw [List.getElem?_eq_getElem hi] at hq
    rw [Option.some.inj hq]
    exact hbroken _ _ _
  obtain ⟨t', report, hresult, hresolved⟩ := harrived _ _ hanswered.1 hbroken (.refl _)
  refine ⟨_, t', report, ?_, hcalls, hanswered, hresolved⟩
  rw [resolveDependencies, ← hresult, ← hcancelled]

/-- The outcomes arrive in reverse order, and 8 depends on 12 all the same. One symbol was
asked about in vain. -/
theorem resolveDependencies_records_references_nestedOutlined :
    (∃ t' report, (nestedOutlined.resolveDependencies oneUseServer (.start false)).2 =
        (t', .ok report) ∧
      12 ∈ (t'.links 8).outgoing .external ∧ report.queried + report.skipped = 9) ∧
    ∃ t' report,
      nestedOutlined.resolveWith false (numbered ((queries nestedOutlined).map fun q =>
        oneUse q.uri q.position)).reverse = (t', .ok report) ∧
      12 ∈ (t'.links 8).outgoing .external ∧ report.failed = 1 ∧
        t'.edgeCount .inScope ≤ report.scopeEdges := by
  have houtlined : History nestedFolder nestedOutlines nestedOutlined :=
    history_run (by decide +kernel)
  set outcomes := (queries nestedOutlined).map fun q => oneUse q.uri q.position with houtcomes
  have hrefers : Refers nestedOutlined ((queries nestedOutlined).zip outcomes) 8 12 :=
    ⟨⟨.function, ⟨⟨10, 0⟩, ⟨14, 0⟩⟩, ⟨⟨10, 0⟩, ⟨10, 1⟩⟩, 3⟩, "file:///app/main.swift", [oddPlace],
      by decide +kernel, rfl, by decide +kernel, by decide +kernel, oddPlace,
      List.mem_singleton_self _, 2, by decide +kernel, by decide +kernel⟩
  have hsymbols : nestedOutlined.stats.symbols = 9 := by decide +kernel
  have hfiles : ∀ d < nestedOutlined.size,
      (nestedOutlined.facts? d).all fun facts => nestedOutlined.isFile facts.file := by
    decide +kernel
  have hnone : ∀ k, nestedOutlined.edgeCount k = 0 := fun k => by cases k <;> decide +kernel
  have hclass : nestedOutlined.contains 8 12 = false ∧ nestedOutlined.contains 12 8 = false ∧
      (EdgeClass.external = .inScope ↔ nestedOutlined.scopeOf? 8 = nestedOutlined.scopeOf? 12) := by
    decide +kernel
  obtain ⟨harrived, hserved⟩ := resolveDependencies_records_references houtlined
  obtain ⟨served, t', report, hresult, -, hanswered, hresolved⟩ := hserved oneUseServer
    (.start false) (fun _ => not_broken_oneUse) (by decide +kernel)
  obtain rfl : served = outcomes := hanswered.eq_map fun _ _ _ => rfl
  obtain ⟨t'', report', hresult', hresolved'⟩ := harrived outcomes (numbered outcomes).reverse
    (List.length_map _) (by simp [houtcomes, not_broken_oneUse]) (List.reverse_perm _)
  refine ⟨⟨t', report, hresult, ?_, ?_⟩, t'', report', hresult', ?_, ?_, ?_⟩
  · exact (hresolved.mem_outgoing 8 12 .external).mpr (.inr ⟨hrefers, hclass⟩)
  · rw [hresolved.queried_add_skipped fun d facts hfacts => ?_, hsymbols]
    have hd := hfiles d (lt_size_of_isSymbol (by simp [isSymbol, hfacts]))
    rwa [hfacts] at hd
  · exact (hresolved'.mem_outgoing 8 12 .external).mpr (.inr ⟨hrefers, hclass⟩)
  · rw [hresolved'.failed]
    decide +kernel
  · exact (hresolved'.edgeCount_le hnone).1

end Tree

end SourceAtlas
