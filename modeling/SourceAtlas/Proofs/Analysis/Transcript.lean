import SourceAtlas.Proofs.Analysis.Ending
import SourceAtlas.Proofs.Load
import SourceAtlas.Proofs.Tree.Postorder
/-!
# The calls of a run

A run that succeeds asks in a fixed order: it greets the server, then it visits file after
file in tree order, and then it asks one question for every symbol that is no name space. The
symbols are those of the outlines that the visits brought, each entry after those nested in
it (`Visit.questions`). The tree that is asked about was built from these outlines, and
`map_call_queries_enter` reads them off it again; nothing that is done to the tree later changes what
its symbols are, so the questions are those about the symbols of the finished tree as well
(`calls_of_run_eq_ok`).
-/

namespace SourceAtlas

/-- The question about an entry of a document, unless it is a name space. -/
def Outline.Entry.question? (uri : String) (e : Outline.Entry) : Option Call :=
  if e.kind.isNamespace then none else some (.references uri e.selection.start)

namespace Resolve

variable {t t' : Tree}

/-! ## Questions about symbols -/

/-- The call about a symbol of which these facts are recorded. -/
def callAbout? (t : Tree) (facts : SymbolFacts) : Option Call :=
  if facts.kind.isNamespace then none
  else (uriOf? t facts.file).map fun uri => .references uri facts.selection.start

/-- The calls of all questions are settled by what is recorded of the symbols. -/
theorem map_call_queries (t : Tree) : (queries t).map Query.call =
    (t.symbolIds.map t.facts?).filterMap fun facts => facts.bind (callAbout? t) := by
  rw [queries, List.map_filterMap, List.filterMap_map]
  refine List.filterMap_congr fun i _ => ?_
  rw [Function.comp, query?, isSkipped]
  cases t.facts? i with
  | none => rfl
  | some facts =>
      rw [Option.any_some, Option.bind_some, Option.bind_some, callAbout?]
      cases facts.kind.isNamespace with
      | true => rfl
      | false => exact Option.map_map ..

theorem uriOf?_congr {i : Nat} (h : t'.origin? i = t.origin? i) : uriOf? t' i = uriOf? t i := by
  rw [Tree.origin?, Tree.origin?] at h
  rw [uriOf?, uriOf?]
  cases hget : t.get? i with
  | none =>
      rw [hget] at h
      rw [Option.map_eq_none_iff.mp h]
  | some a =>
      rw [hget] at h
      obtain ⟨a', hget', horigin⟩ := Option.map_eq_some_iff.mp h
      have hcontent := congrArg Artifact.content horigin
      dsimp only [Artifact.origin] at hcontent
      rw [hget', Option.bind_some, Option.bind_some, hcontent]

/-- What holds of any two symbols of which one comes after the other holds of those that are
asked about. -/
theorem pairwise_symbol_queries {R : Nat → Nat → Prop} (h : t.symbolIds.Pairwise R) :
    ((queries t).map Query.symbol).Pairwise R := by
  rw [List.pairwise_map, queries, List.pairwise_filterMap]
  refine h.imp fun {i j} hij p hp q hq => ?_
  obtain ⟨facts, uri, -, -, -, rfl⟩ := query?_eq_some_iff.mp hp
  obtain ⟨facts', uri', -, -, -, rfl⟩ := query?_eq_some_iff.mp hq
  exact hij

/-- One call for each symbol of a tree that is no name space, and none of them before one for
a symbol inside it: it asks where the name is used that stands in the file of the symbol. -/
structure Inquires (t : Tree) (symbols : List Nat) (calls : List Call) : Prop where
  once : symbols.Nodup
  complete : ∀ i, i ∈ symbols ↔
    ∃ facts, t.facts? i = some facts ∧ facts.kind.isNamespace = false
  nested : symbols.Pairwise fun i j => t.contains i j = false
  asked : List.Forall₂ (fun i call => ∃ facts uri, t.facts? i = some facts ∧
    uriOf? t facts.file = some uri ∧ call = .references uri facts.selection.start) symbols calls

/-- The questions about a tree inquire about its symbols, if these stand in files. -/
theorem inquires_queries (h : t.WellFormed)
    (hfiles : ∀ i facts, t.facts? i = some facts → t.isFile facts.file = true) :
    Inquires t ((queries t).map Query.symbol) ((queries t).map Query.call) where
  once := pairwise_symbol_queries h.nodup_symbolIds
  complete i := by
    rw [List.mem_map]
    constructor
    · rintro ⟨q, hq, rfl⟩
      obtain ⟨facts, uri, hfacts, hkind, -⟩ := query?_eq_some_iff.mp ((mem_queries h).mp hq)
      exact ⟨facts, hfacts, hkind⟩
    · rintro ⟨facts, hfacts, hkind⟩
      have huri : (uriOf? t facts.file).isSome = true := by
        rw [isSome_uriOf?, hfiles i facts hfacts]
      obtain ⟨uri, huri⟩ := Option.isSome_iff_exists.mp huri
      exact ⟨⟨i, uri, facts.selection.start⟩, (mem_queries h).mpr
        (query?_eq_some_iff.mpr ⟨facts, uri, hfacts, hkind, huri, rfl⟩), rfl⟩
  nested := pairwise_symbol_queries ((h.pairwise_walk Tree.root).filter t.isSymbol)
  asked := by
    rw [List.forall₂_map_left_iff, List.forall₂_map_right_iff, List.forall₂_same]
    intro q hq
    obtain ⟨facts, uri, hfacts, -, huri, heq⟩ := query?_eq_some_iff.mp ((mem_queries h).mp hq)
    exact ⟨facts, uri, hfacts, huri, congrArg Query.call heq⟩

/-- What is asked about depends on what was added to a tree only. -/
theorem Inquires.congr {symbols : List Nat} {calls : List Call} (h : Inquires t symbols calls)
    (halike : Tree.Alike t' t) : Inquires t' symbols calls := by
  have huri (i : Nat) : uriOf? t' i = uriOf? t i := uriOf?_congr (halike.origin? i)
  constructor
  case once => exact h.once
  case complete => simpa only [halike.facts?] using h.complete
  case nested => simpa only [halike.contains] using h.nested
  case asked => simpa only [halike.facts?, huri] using h.asked

end Resolve

namespace Extract

variable {folder : Folder} {t : Tree} {outlined : List (Job × Outcome)}

/-! ## Symbols in tree order -/

/-- A walk comes to the symbols below one file after another, in the order of the files. -/
theorem filter_isSymbol_walk (ht : t.WellFormed)
    (horigin : ∀ i < (Tree.ofFolder folder).size,
      t.origin? i = (Tree.ofFolder folder).origin? i)
    (hparts : ∀ i < (Tree.ofFolder folder).size, t.isFile i = false →
      t.parts i = (Tree.ofFolder folder).parts i)
    (g : Folder) {i : Nat} (h : (Tree.ofFolder folder).Bears i g.branch) :
    (t.walk i).filter t.isSymbol =
      ((List.range' i g.branch.size).filter (Tree.ofFolder folder).isFile).flatMap
        fun f => (t.parts f).flatMap t.walk := by
  have old {i : Nat} {l : Label} (hl : (Tree.ofFolder folder).label? i = some l) :
      i < (Tree.ofFolder folder).size ∧ t.isFile i = l.content.isFile ∧ t.isSymbol i = false := by
    obtain ⟨a, hget, -⟩ := Option.map_eq_some_iff.mp hl
    have hi := Tree.lt_size_of_get? hget
    refine ⟨hi, ?_, ?_⟩
    · rw [Tree.isFile_congr (horigin i hi), Tree.isFile, Tree.any_content, hl, Option.any_some]
    · rw [Tree.isSymbol_congr (horigin i hi), Tree.isSymbol_ofFolder]
  induction g using Folder.induct generalizing i with
  | h name path folders files ih =>
      obtain ⟨hlabel, hbelow, hbears⟩ := h
      obtain ⟨hi, hfile, hsymbol⟩ := old hlabel
      have hfolder : (Tree.ofFolder folder).isFile i = false :=
        (Tree.isFile_congr (horigin i hi)).symm.trans hfile
      have hflat := hbears.flatMap_starts (P := (Tree.ofFolder folder).isFile)
        (F := fun j => (t.walk j).filter t.isSymbol) (G := fun f => (t.parts f).flatMap t.walk)
        fun b hb j hj => ?_
      · rw [ht.walk_eq, hparts i hi hfile, hbelow, List.filter_append, List.filter_flatMap, hflat,
          List.filter_cons_of_neg (by simp [hsymbol]), List.filter_nil, List.append_nil,
          Folder.branch, Branch.size_node, List.range'_succ,
          List.filter_cons_of_neg (by simp [hfolder])]
      · rw [Folder.branches_eq] at hb
        rcases List.mem_append.mp hb with hb | hb
        · obtain ⟨g, hg, rfl⟩ := List.mem_map.mp hb
          exact ih g hg hj
        · obtain ⟨file, -, rfl⟩ := List.mem_map.mp hb
          obtain ⟨hj', hisFile, hnone⟩ := old hj.1
          have hleaf : (Tree.ofFolder folder).isFile j = true :=
            (Tree.isFile_congr (horigin j hj')).symm.trans hisFile
          have hbelow : ((t.parts j).flatMap t.walk).filter t.isSymbol = (t.parts j).flatMap t.walk :=
            List.filter_eq_self.mpr fun k hk => ht.isSymbol_of_mem_walk hisFile hk
          rw [ht.walk_eq, List.filter_append, hbelow,
            List.filter_cons_of_neg (by simp [hnone]), List.filter_nil, List.append_nil]
          simp [SourceFile.branch, Branch.size_node, hleaf]

section Loaded

variable (hjobs : outlined.map (·.1) = jobs (Tree.ofFolder folder))

include hjobs

/-- The symbols of an extracted tree are those of one file after another. -/
theorem symbolIds_enter : (enter (Tree.ofFolder folder) outlined).symbolIds =
    outlined.flatMap fun a => ((enter (Tree.ofFolder folder) outlined).parts a.1.file).flatMap
      (enter (Tree.ofFolder folder) outlined).walk := by
  have hfiles : (List.range' Tree.root folder.branch.size).filter (Tree.ofFolder folder).isFile =
      outlined.map (·.1.file) := by
    rw [map_file_eq hjobs, Tree.fileIds,
      (Tree.bears_ofFolder folder).filter_walk (Tree.wellFormed_ofFolder folder)]
  rw [Tree.symbolIds, filter_isSymbol_walk (outlined_enter hjobs).wellFormed
    (entered_ofFolder hjobs).origin? (fun _ => parts_enter hjobs) folder
    (Tree.bears_ofFolder folder), hfiles, List.flatMap_map]

/-- They are what the entries of the outlines became, in postorder. -/
theorem map_facts?_symbolIds_enter :
    (enter (Tree.ofFolder folder) outlined).symbolIds.map
        (enter (Tree.ofFolder folder) outlined).facts? =
      outlined.flatMap fun a =>
        (Outline.Entry.postorderAll (entries a.2)).map fun e => some (e.facts a.1.file) := by
  rw [symbolIds_enter hjobs, List.map_flatMap]
  refine List.flatMap_congr fun a ha => ?_
  obtain ⟨n, hparts, hbears⟩ := exists_parts_enter hjobs ha
  rw [hparts, hbears.map_facts?_flatMap_walk (outlined_enter hjobs).wellFormed]

/-- Every symbol stands in a file that was asked about, and that file has a uri. -/
theorem uriOf?_enter {a : Job × Outcome} (ha : a ∈ outlined) :
    Resolve.uriOf? (enter (Tree.ofFolder folder) outlined) a.1.file = some a.1.uri := by
  rw [← uriOf?_of_mem_jobs (mem_jobs_of_mem hjobs ha)]
  exact Resolve.uriOf?_congr
    ((entered_ofFolder hjobs).origin? _ (lt_size_of_mem_jobs (mem_jobs_of_mem hjobs ha)))

/-- The questions about an extracted tree can be read off the outlines. -/
theorem map_call_queries_enter :
    (Resolve.queries (enter (Tree.ofFolder folder) outlined)).map Resolve.Query.call =
      outlined.flatMap fun a =>
        (Outline.Entry.postorderAll (entries a.2)).filterMap
          (Outline.Entry.question? a.1.uri) := by
  rw [Resolve.map_call_queries, map_facts?_symbolIds_enter hjobs, List.filterMap_flatMap]
  refine List.flatMap_congr fun a ha => ?_
  rw [List.filterMap_map]
  refine List.filterMap_congr fun e _ => ?_
  dsimp only [Function.comp, Option.bind_some, Outline.Entry.facts, Resolve.callAbout?]
  rw [uriOf?_enter hjobs ha]
  rfl

/-- Every symbol of an extracted tree stands in a file. -/
theorem isFile_of_facts?_enter {i : Nat} {facts : SymbolFacts}
    (h : (enter (Tree.ofFolder folder) outlined).facts? i = some facts) :
    (enter (Tree.ofFolder folder) outlined).isFile facts.file = true := by
  have hi : i ∈ (enter (Tree.ofFolder folder) outlined).symbolIds :=
    (outlined_enter hjobs).wellFormed.mem_symbolIds.mpr (by rw [Tree.isSymbol, h]; rfl)
  have hmem := List.mem_map_of_mem (f := (enter (Tree.ofFolder folder) outlined).facts?) hi
  rw [map_facts?_symbolIds_enter hjobs, h, List.mem_flatMap] at hmem
  obtain ⟨a, ha, hmem⟩ := hmem
  obtain ⟨e, -, heq⟩ := List.mem_map.mp hmem
  obtain rfl := Option.some.inj heq
  rw [Outline.Entry.facts, ← Resolve.isSome_uriOf?, uriOf?_enter hjobs ha]
  rfl

end Loaded

end Extract

/-! ## The order of files -/

/-- The names in every folder ascend, and no file is there twice. -/
structure Folder.InOrder (F : Folder) : Prop where
  ascending : ∀ g, .folder g ∈ F.items →
    (g.folders.map fun h => Utf8.encode h.name).Pairwise (· < ·) ∧
      (g.files.map fun file => Utf8.encode file.name).Pairwise (· < ·)
  apart : (F.sources.map SourceFile.path).Nodup

theorem Load.inOrder_of_load {d : Disk} {o : Load.Options} (hproper : d.root.isProper = true)
    {F : Folder} (h : Folder.load d o = .ok F) : F.InOrder where
  ascending := by
    obtain ⟨place, entries, -, hholds⟩ :=
      exists_holds_of_load_eq_ok Disk.Walk.lawful_standard hproper h
    exact hholds.ascending
  apart := by
    obtain ⟨hnodup, place, hplace⟩ :=
      exists_place_of_load_eq_ok Disk.Walk.lawful_standard hproper h
    rw [Folder.sources_eq, List.map_map, List.Nodup, List.pairwise_map]
    refine (List.pairwise_map.mp hnodup).imp_of_mem fun {p q} hp hq hne heq => hne ?_
    obtain ⟨hpath, hnames⟩ := hplace p.1 p.2 hp
    obtain ⟨hpath', hnames'⟩ := hplace q.1 q.2 hq
    have hsame : Disk.pathOf (place ++ p.1) = Disk.pathOf (place ++ q.1) :=
      hpath.symm.trans (heq.trans hpath')
    exact List.append_cancel_left (Disk.pathOf_injOn hnames hnames' hsame)

namespace Analysis

variable {server : Server} {options : Extract.Options} {folder : Folder} {processId : Nat}
  {s : Session} {t u : Tree} {vs : List Visit}

/-! ## The questions of a run -/

/-- The questions about what came of a visit: one for every entry of the outline that is no
name space, each after those about the entries nested in it. -/
def Visit.questions (v : Visit) : List Call :=
  (Outline.Entry.postorderAll (Extract.entries v.outcome)).filterMap
    (Outline.Entry.question? (Uri.ofPath v.file.path))

theorem flatMap_questions {jobs : List Extract.Job}
    (h : List.Forall₂ Extract.AsksFor jobs (vs.map Visit.file)) :
    ((jobs.zip (vs.map Visit.outcome)).flatMap fun a =>
      (Outline.Entry.postorderAll (Extract.entries a.2)).filterMap
        (Outline.Entry.question? a.1.uri)) = vs.flatMap Visit.questions := by
  induction vs generalizing jobs with
  | nil => rw [List.map_nil, List.zip_nil_right]; rfl
  | cons v vs ih =>
      obtain ⟨job, jobs, hjob, hjobs, rfl⟩ := List.forall₂_cons_right_iff.mp h
      rw [List.map_cons, List.zip_cons_cons, List.flatMap_cons, ih hjobs, List.flatMap_cons,
        hjob.1, Visit.questions]

/-- The questions after visits to all files are those about what came of the visits, and they
inquire about the symbols of the tree. -/
theorem inquires_visitedTree (h : vs.map Visit.file = folder.sources) :
    (Resolve.queries (visitedTree folder vs)).map Resolve.Query.call =
        vs.flatMap Visit.questions ∧
      ∃ symbols, Resolve.Inquires (visitedTree folder vs) symbols (vs.flatMap Visit.questions) := by
  have hasks : List.Forall₂ Extract.AsksFor (Extract.jobs (Tree.ofFolder folder))
      (vs.map Visit.file) := h ▸ Extract.asksFor_sources folder
  have hjobs : ((Extract.jobs (Tree.ofFolder folder)).zip (vs.map Visit.outcome)).map (·.1) =
      Extract.jobs (Tree.ofFolder folder) :=
    List.map_fst_zip (by simpa using hasks.length_eq.le)
  have hquestions : (Resolve.queries (visitedTree folder vs)).map Resolve.Query.call =
      vs.flatMap Visit.questions :=
    (Extract.map_call_queries_enter hjobs).trans (flatMap_questions hasks)
  refine ⟨hquestions, _, hquestions ▸ Resolve.inquires_queries
    (outlined_visitedTree folder vs).wellFormed fun _ _ => Extract.isFile_of_facts?_enter hjobs⟩

/-- Finishing a tree changes nothing of what was added to it. -/
theorem alike_of_finish (h : finish t = .ok u) : Tree.Alike u t := by
  rw [finish, Tree.computeMetrics] at h
  rcases Tree.computeMetricsWith_cases (fun _ => .standard) t with ⟨-, heq⟩ | ⟨-, heq⟩
  · rw [heq] at h
    cases h
  · rw [heq] at h
    cases h
    exact ⟨by simp, fun i => (Tree.origin?_sort _ i).trans (Tree.origin?_measureAllWith _ t i)⟩

theorem alike_resolvedTree (h : Extract.Outlined folder t) (outcomes : List Resolve.Outcome) :
    Tree.Alike (resolvedTree t outcomes) t := by
  have hasks := Resolve.asks_requests h.wellFormed outcomes
  obtain ⟨cs, hcs, -⟩ := h
  exact hasks.alike_run hcs

/-- A run that succeeds was not cancelled. -/
theorem running_of_run_eq_ok
    (h : run (.ok folder) options server processId (.start false) = (s, .ok t)) :
    s.cancelled = false := by
  have hfails := (silent_analyze folder options server processId false).2
  rw [show analyze folder options server processId (.start false) = (s, .ok t) from h] at hfails
  rw [← Bool.not_eq_true]
  intro hcancelled
  obtain ⟨f, hf, -⟩ := hfails hcancelled
  cases hf

/-! ## Main statement -/

/-- The calls of a run that succeeded. -/
structure Transcript (folder : Folder) (options : Extract.Options) (server : Server)
    (processId : Nat) (s : Session) (t : Tree) : Prop where
  /-- Every file was visited once, in tree order. -/
  files : (runVisits folder options server processId).map Visit.file = folder.sources
  calls : s.calls = greeting folder processId ::
    ((runVisits folder options server processId).flatMap Visit.calls ++
      (runVisits folder options server processId).flatMap Visit.questions)
  /-- Every symbol was asked about once, after those inside it. -/
  symbols : ∃ symbols, Resolve.Inquires t symbols
    ((runVisits folder options server processId).flatMap Visit.questions)

/-- A run that succeeds greets the server, visits the files of its folder in tree order, each
of them once, and asks one question about each symbol that is no name space, after those about
the symbols inside it. It makes no other calls. Where the folder was loaded from a disk, the
names in each folder ascend, and no file is there twice. -/
theorem calls_of_run_eq_ok {loaded : Except Failure Folder}
    (h : run loaded options server processId (.start false) = (s, .ok t)) :
    ∃ folder, loaded = .ok folder ∧ Transcript folder options server processId s t ∧
      ∀ d o, d.root.isProper = true → loaded = Folder.load d o → folder.InOrder := by
  cases loaded with
  | error e => cases h
  | ok folder =>
      refine ⟨folder, rfl, ?_, fun d o hproper hload => Load.inOrder_of_load hproper hload.symm⟩
      cases ending_run h (running_of_run_eq_ok h) with
      | @finished u _ outcomes hgreeted hharmless hu hcalls hanswered hunbroken hfinish =>
          subst hu
          have hfiles : (runVisits folder options server processId).map Visit.file =
              folder.sources := map_file_visits
          obtain ⟨hquestions, symbols, hinquires⟩ := inquires_visitedTree hfiles
          have halike := (alike_of_finish hfinish).trans
            (alike_resolvedTree (outlined_visitedTree folder _) outcomes)
          constructor
          case files => exact hfiles
          case calls => rw [hcalls, hquestions, List.cons_append]
          case symbols => exact ⟨symbols, hinquires.congr halike⟩

/-- A run on a folder of a disk succeeds whose server opens all documents. -/
theorem calls_of_run_eq_ok_sample : ∃ folder s t,
    Folder.load Load.sampleDisk Load.sampleOptions = .ok folder ∧
      run (.ok folder) ⟨"swift", true⟩ tellingServer 1 (.start false) = (s, .ok t) ∧
      Transcript folder ⟨"swift", true⟩ tellingServer 1 s t ∧ folder.InOrder := by
  have hnode : Load.sampleDisk.node? Load.sampleDisk.current =
      some (.folder Load.sampleEntries) := rfl
  obtain ⟨folder, hfolder⟩ : ∃ folder, folder = Load.assemble ["app"]
      (Load.collect .standard Load.sampleDisk Load.sampleOptions ["app"]) := ⟨_, rfl⟩
  have hload : Folder.load Load.sampleDisk Load.sampleOptions = .ok folder := by
    rw [Folder.load, Folder.loadWith, show Load.sampleOptions.root = ⟨"."⟩ from rfl,
      Disk.resolve_dot hnode]
    dsimp only
    rw [hnode]
    subst hfolder
    exact if_neg (by decide +kernel)
  obtain ⟨s, r, hrun⟩ : ∃ s r,
      run (.ok folder) ⟨"swift", true⟩ tellingServer 1 (.start false) = (s, r) := ⟨_, _, rfl⟩
  have hok : r.isOk = true := by
    have hfinishes : (run (.ok (Load.assemble ["app"] (Load.collect .standard Load.sampleDisk
        Load.sampleOptions ["app"]))) ⟨"swift", true⟩ tellingServer 1 (.start false)).2.isOk =
          true := by decide +kernel
    rwa [← hfolder, hrun] at hfinishes
  cases r with
  | error e => cases hok
  | ok t =>
      obtain ⟨_, hloaded, htranscript, horder⟩ := calls_of_run_eq_ok hrun
      cases hloaded
      exact ⟨folder, s, t, hload, hrun, htranscript, horder _ _ (by decide) hload.symm⟩

end Analysis

end SourceAtlas
