import SourceAtlas.Proofs.Analysis.Extracted
import SourceAtlas.Proofs.Analysis.Following
import SourceAtlas.Proofs.Analysis.Sequential
/-!
# Visits to files

An extraction asks about the files of a folder in tree order: what is in subfolders comes
before what is in the folder itself (`Folder.sources`, `asksFor_sources`). About each file it
makes one or two calls, and what they are depends on the answers as much as on the file
(`visit`). The calls about a file are made after all those about the files before it
(`visits`).

A run that is not cancelled makes the calls of its visits and no others. It gets to the end
when no visit ends it, and stops with the first visit that does: `extract_cases`.
-/

namespace SourceAtlas

namespace Folder

mutual

/-- The files of a folder in tree order: first those of its subfolders, then its own. -/
def sources : Folder → List SourceFile
  | ⟨_, _, folders, files⟩ => sourcesAll folders ++ files

def sourcesAll : List Folder → List SourceFile
  | [] => []
  | f :: fs => sources f ++ sourcesAll fs

end

theorem sourcesAll_eq (fs : List Folder) : sourcesAll fs = fs.flatMap sources := by
  induction fs with
  | nil => rfl
  | cons f fs ih => rw [sourcesAll, List.flatMap_cons, ih]

/-- A walk comes to the files in tree order. -/
theorem sources_eq (f : Folder) : f.sources = f.located.map Prod.snd := by
  induction f using induct with
  | h name path folders files ih =>
      have hfiles : (files.map fun f => ([f.name], f)).map Prod.snd = files := by
        rw [List.map_map]
        exact List.map_id files
      have hfolders : (folders.flatMap fun f => f.located.map (inside f.name)).map Prod.snd =
          folders.flatMap sources := by
        rw [List.map_flatMap]
        refine List.flatMap_congr fun f hf => ?_
        rw [List.map_map, ih f hf]
        rfl
      rw [sources, sourcesAll_eq, located_mk, List.map_append, hfolders, hfiles]

end Folder

namespace Analysis

/-- The calls about one file, and what comes of them. -/
structure Visit where
  file : SourceFile
  calls : List Call
  outcome : Extract.Outcome

/-- A file is announced with its text where that is wanted, and asked for its outline unless
the announcement was rejected. -/
def visit (server : Server) (options : Extract.Options) (before : List Call)
    (file : SourceFile) : Visit :=
  let uri := Uri.ofPath file.path
  let announcement := Call.openDocument uri options.language file.code
  if options.openDocuments then
    match (server.openDocument before uri options.language file.code).result with
    | .ok () =>
        ⟨file, [announcement, .outline uri], (server.outline (before ++ [announcement]) uri).result⟩
    | .error e => ⟨file, [announcement], .error e⟩
  else ⟨file, [.outline uri], (server.outline before uri).result⟩

/-- Visits to files one after another. -/
def visits (server : Server) (options : Extract.Options) :
    List Call → List SourceFile → List Visit
  | _, [] => []
  | before, file :: files =>
      let v := visit server options before file
      v :: visits server options (before ++ v.calls) files

variable {server : Server} {options : Extract.Options} {before : List Call}
  {files : List SourceFile} {s s' : Session}

@[simp] theorem visits_nil : visits server options before [] = [] := rfl

theorem visits_cons (file : SourceFile) (files : List SourceFile) :
    visits server options before (file :: files) = visit server options before file ::
      visits server options (before ++ (visit server options before file).calls) files := rfl

@[simp] theorem file_visit (file : SourceFile) :
    (visit server options before file).file = file := by
  simp only [visit]
  split
  · split <;> rfl
  · rfl

/-- Every file is visited once, in its turn. -/
theorem map_file_visits : (visits server options before files).map Visit.file = files := by
  induction files generalizing before with
  | nil => rfl
  | cons file files ih => rw [visits_cons, List.map_cons, file_visit, ih]

end Analysis

namespace Extract

/-! ## Jobs and files -/

/-- A job asks for a file. -/
def AsksFor (job : Job) (file : SourceFile) : Prop :=
  job.uri = Uri.ofPath file.path ∧ job.text = file.code

/-- Lists that go together still do when each pair is kept or left out as one. -/
theorem forall₂_filterMap {α β γ δ : Type} {R : α → β → Prop} {S : γ → δ → Prop}
    {f : α → Option γ} {g : β → Option δ} {as : List α} {bs : List β} (h : List.Forall₂ R as bs)
    (hR : ∀ a b, R a b → Option.Rel S (f a) (g b)) :
    List.Forall₂ S (as.filterMap f) (bs.filterMap g) := by
  induction h with
  | nil => exact .nil
  | @cons a b as bs hab _ ih =>
      have hone := hR a b hab
      rw [List.filterMap_cons, List.filterMap_cons]
      generalize f a = x at hone ⊢
      generalize g b = y at hone ⊢
      cases hone with
      | none => exact ih
      | some hxy => exact .cons hxy ih

theorem forall₂_range_getElem? {α : Type} (as : List α) :
    List.Forall₂ (fun i a => as[i]? = some a) (List.range as.length) as := by
  refine List.forall₂_iff_get.mpr ⟨List.length_range, fun i hi ha => ?_⟩
  simp

/-- The files of a folder are asked for in tree order. -/
theorem asksFor_sources (folder : Folder) :
    List.Forall₂ AsksFor (jobs (Tree.ofFolder folder)) folder.sources := by
  rw [jobs, Tree.fileIds_ofFolder, List.filterMap_filter, Tree.size_ofFolder,
    Folder.sources_eq, Folder.located_map_snd]
  refine forall₂_filterMap (forall₂_range_getElem? folder.items) fun i item hitem => ?_
  have hlabel := (Tree.bears_of_getElem?_items hitem).label?_eq
  have hfile : (Tree.ofFolder folder).isFile i = item.isFile := by
    rw [Tree.isFile, Tree.any_content, hlabel, Option.any_some, Folder.Item.isFile_label]
  obtain ⟨a, hget, ha⟩ := Option.map_eq_some_iff.mp hlabel
  rw [hfile, hget]
  cases item with
  | folder g => exact .none
  | file f =>
      have hcontent : a.content = .file f.path (Uri.ofPath f.path) := congrArg Label.content ha
      have hcode : a.code = some f.code := congrArg Label.code ha
      simp only [Folder.Item.isFile, if_true, Option.bind_some, hcontent, hcode]
      exact .some ⟨rfl, rfl⟩

end Extract

namespace Analysis

variable {server : Server} {options : Extract.Options} {s : Session} {jobs : List Extract.Job}
  {files : List SourceFile}

/-! ## What an extraction asks -/

/-- The calls about a file are those of its visit. -/
theorem outline_eq_visit (server : Server) (options : Extract.Options) (hs : s.cancelled = false)
    {job : Extract.Job} {file : SourceFile} (h : Extract.AsksFor job file) :
    (Extract.outline server options s job).1.calls =
        s.calls ++ (visit server options s.calls file).calls ∧
      (Extract.outline server options s job).2 = (visit server options s.calls file).outcome := by
  rw [Extract.outline, if_neg (by rw [hs]; exact Bool.false_ne_true), h.1, h.2]
  cases hopens : options.openDocuments with
  | false => simp [visit, hopens, Session.outline, Session.record]
  | true =>
      simp only [visit, hopens, if_true, Session.openDocument]
      cases (server.openDocument s.calls (Uri.ofPath file.path) options.language file.code).result with
      | error e => exact ⟨rfl, rfl⟩
      | ok => simp [Session.outline, Session.record]

theorem exists_fatal_of_not_harmless {α : Type} {o : Except CallError α} (h : ¬ Harmless o) :
    ∃ e, o = .error e ∧ e.isFatal = true := by
  simpa [Harmless] using h

/-- A file whose outline does not cancel the run is taken in, and then come the others. -/
theorem run_cons_of_running {job : Extract.Job} {s₁ : Session} {outcome : Extract.Outcome}
    (h : Extract.outline server options s job = (s₁, outcome)) (hs : s₁.cancelled = false)
    (report : Extract.Report) (t : Tree) :
    Extract.run server options (job :: jobs) report s t =
      match Extract.absorb t report job outcome with
      | .ok (t, report) => Extract.run server options jobs report s₁ t
      | .error e => (s₁, t, .error e) := by
  rw [Extract.run, h]
  exact if_neg (by rw [hs]; exact Bool.false_ne_true)

/-- The first of some visits that ends a run. -/
structure StopsAt (vs earlier : List Visit) (v : Visit) (e : CallError) : Prop where
  visits : ∃ later, vs = earlier ++ v :: later
  harmless : ∀ u ∈ earlier, Harmless u.outcome
  outcome : v.outcome = .error e
  fatal : e.isFatal = true

namespace StopsAt

variable {v w : Visit} {vs earlier : List Visit} {e : CallError}

theorem head (houtcome : v.outcome = .error e) (hfatal : e.isFatal = true) (vs : List Visit) :
    StopsAt (v :: vs) [] v e :=
  ⟨⟨vs, rfl⟩, nofun, houtcome, hfatal⟩

theorem cons (h : StopsAt vs earlier w e) (hv : Harmless v.outcome) :
    StopsAt (v :: vs) (v :: earlier) w e where
  visits := by
    obtain ⟨later, rfl⟩ := h.visits
    exact ⟨later, rfl⟩
  harmless := List.forall_mem_cons.mpr ⟨hv, h.harmless⟩
  outcome := h.outcome
  fatal := h.fatal

end StopsAt

/-- A run that is not cancelled makes the calls of its visits. It takes in what came of all of
them, or the first one that ends the run is the last. -/
theorem extract_cases (server : Server) (options : Extract.Options)
    (hjobs : List.Forall₂ Extract.AsksFor jobs files) (hs : s.cancelled = false)
    (report : Extract.Report) (t : Tree)
    (hlast : (Extract.run server options jobs report s t).1.cancelled = false) :
    ((∀ v ∈ visits server options s.calls files, Harmless v.outcome) ∧
      ∃ s' report', Extract.run server options jobs report s t = (s', Extract.enter t
          (jobs.zip ((visits server options s.calls files).map Visit.outcome)), .ok report') ∧
        s'.calls = s.calls ++ (visits server options s.calls files).flatMap Visit.calls) ∨
    ∃ earlier v e, StopsAt (visits server options s.calls files) earlier v e ∧
      (Extract.run server options jobs report s t).2.2 = .error (.ofCall e) ∧
      (Extract.run server options jobs report s t).1.calls =
        s.calls ++ (earlier ++ [v]).flatMap Visit.calls := by
  induction hjobs generalizing s report t with
  | nil => exact .inl ⟨nofun, s, report, rfl, (List.append_nil _).symm⟩
  | @cons job file jobs files hjob hjobs ih =>
      obtain ⟨hcalls, houtcome⟩ := outline_eq_visit server options hs hjob
      rw [visits_cons]
      generalize visit server options s.calls file = v at hcalls houtcome ⊢
      obtain ⟨s₁, outcome, hanswer⟩ :
          ∃ s₁ outcome, Extract.outline server options s job = (s₁, outcome) := ⟨_, _, rfl⟩
      rw [hanswer] at hcalls houtcome
      dsimp only at hcalls houtcome
      subst houtcome
      by_cases hs₁ : s₁.cancelled = false
      · rw [run_cons_of_running hanswer hs₁] at hlast ⊢
        by_cases hharmless : Harmless v.outcome
        · rw [Extract.absorb_eq hharmless] at hlast ⊢
          dsimp only at hlast ⊢
          rw [← hcalls]
          rcases ih hs₁ _ _ hlast with ⟨hall, s', report', hrun, hmade⟩ | ⟨earlier, w, e, hstops, hrest⟩
          · refine .inl ⟨List.forall_mem_cons.mpr ⟨hharmless, hall⟩, s', report', hrun, ?_⟩
            rw [hmade, hcalls, List.flatMap_cons, List.append_assoc]
          · refine .inr ⟨v :: earlier, w, e, hstops.cons hharmless, hrest.1, ?_⟩
            rw [hrest.2, hcalls, List.cons_append, List.flatMap_cons, List.append_assoc]
        · obtain ⟨e, he, hfatal⟩ := exists_fatal_of_not_harmless hharmless
          refine .inr ⟨[], v, e, .head he hfatal _, ?_⟩
          rw [he, Extract.absorb, if_pos hfatal]
          exact ⟨rfl, hcalls.trans (by simp)⟩
      · exfalso
        rw [Extract.run, hanswer] at hlast
        dsimp only at hlast
        rw [if_pos (by simpa using hs₁)] at hlast
        exact hs₁ hlast

end Analysis

end SourceAtlas
