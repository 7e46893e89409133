import Mathlib.Data.List.Induction
import SourceAtlas.Proofs.Folder.Index
import SourceAtlas.Proofs.Text.Utf8
/-!
# Files in any order

A folder is made of files that are entered one after another, each under its steps
(`Index.ofEntries`). A tidy index is settled by what is found in it (`Tidy.ext`), and what is
found are the files that were entered (`find?_ofEntries_iff`), so files under different steps
make the same folder in every order, and it holds each of them once (`toFolder_ofEntries`).
-/

namespace SourceAtlas

namespace Index

/-- A file to be entered: the steps to it, of which the last one is its name, its path and its
text. -/
structure Entry where
  steps : List String
  path : Path
  code : String

/-- The file that is found where the entry says. -/
def Entry.file (e : Entry) : SourceFile := ⟨e.steps.getLast?.getD "", e.path, e.code⟩

/-- The index that files are entered into, one after another. -/
def ofEntries (entries : List Entry) : Index :=
  entries.foldl (fun i e => i.insert e.path e.code e.steps) empty

variable {i j : Index} {entries entries' : List Entry} {steps : List String} {file : SourceFile}

theorem ofEntries_concat (entries : List Entry) (e : Entry) :
    ofEntries (entries ++ [e]) = (ofEntries entries).insert e.path e.code e.steps :=
  List.foldl_concat _ _ _ _

/-! ## What an index is settled by -/

theorem ne_nil_of_find?_eq_some (h : find? steps i = some file) : steps ≠ [] := by
  rintro rfl
  cases h

/-- A tidy index is settled by what is found in it: a folder is in it exactly when a file is
found inside. -/
theorem Tidy.ext (h : Tidy i) (h' : Tidy j) (hfind : ∀ steps, find? steps i = find? steps j) :
    i = j := by
  induction h generalizing j with
  | @node folders files hfolders hfiles hnamed hinhabited hbelow ih =>
      obtain @⟨folders', files', hfolders', hfiles', hnamed', hinhabited', hbelow'⟩ := h'
      have hfilesEq : files = files' := by
        refine hfiles.eq_of_mem_iff hfiles' fun ⟨name, file⟩ => ?_
        rw [← lookup_eq_some_iff_mem hfiles.nodup, ← lookup_eq_some_iff_mem hfiles'.nodup]
        exact Eq.congr_left (hfind [name])
      have hinside : ∀ step {names : List String}, names ≠ [] →
          (folders.lookup step).bind (find? names) = (folders'.lookup step).bind (find? names) := by
        intro step names hnames
        have hcons := hfind (step :: names)
        rwa [find?_cons hnames, find?_cons hnames] at hcons
      have hsame : ∀ {step k k'}, (step, k) ∈ folders → (step, k') ∈ folders' → k = k' := by
        intro step k k' hk hk'
        refine ih _ hk (hbelow' _ hk') fun names => ?_
        by_cases hnames : names = []
        · rw [hnames]
          rfl
        · have hcons := hinside step hnames
          rwa [(lookup_eq_some_iff_mem hfolders.nodup).mpr hk,
            (lookup_eq_some_iff_mem hfolders'.nodup).mpr hk'] at hcons
      have hfoldersEq : folders = folders' := by
        refine hfolders.eq_of_mem_iff hfolders' fun ⟨step, k⟩ => ⟨fun hk => ?_, fun hk' => ?_⟩
        · obtain ⟨names, file, hfile⟩ := hinhabited _ hk
          have hlookup := hinside step (ne_nil_of_find?_eq_some hfile)
          rw [(lookup_eq_some_iff_mem hfolders.nodup).mpr hk] at hlookup
          obtain ⟨k', hk', -⟩ := Option.bind_eq_some_iff.mp (hlookup.symm.trans hfile)
          have hmem := mem_of_lookup_eq_some hk'
          rwa [hsame hk hmem]
        · obtain ⟨names, file, hfile⟩ := hinhabited' _ hk'
          have hlookup := hinside step (ne_nil_of_find?_eq_some hfile)
          rw [(lookup_eq_some_iff_mem hfolders'.nodup).mpr hk'] at hlookup
          obtain ⟨k, hk, -⟩ := Option.bind_eq_some_iff.mp (hlookup.trans hfile)
          have hmem := mem_of_lookup_eq_some hk
          rwa [← hsame hmem hk']
      rw [hfilesEq, hfoldersEq]

/-! ## Entering files -/

theorem tidy_ofEntries (entries : List Entry) : (ofEntries entries).Tidy := by
  induction entries using List.reverseRecOn with
  | nil => exact tidy_empty
  | append_singleton entries e ih =>
      rw [ofEntries_concat]
      exact ih.insert e.steps

/-- What was entered is found under its steps, and nothing else is. -/
theorem find?_ofEntries_iff (hsteps : ∀ e ∈ entries, e.steps ≠ [])
    (hinj : ∀ e ∈ entries, ∀ e' ∈ entries, e.steps = e'.steps → e = e') :
    (ofEntries entries).find? steps = some file ↔
      ∃ e ∈ entries, e.steps = steps ∧ e.file = file := by
  induction entries using List.reverseRecOn with
  | nil => simp [ofEntries, find?_empty]
  | append_singleton entries e ih =>
      rw [ofEntries_concat]
      by_cases heq : e.steps = steps
      · subst heq
        have hne : e.steps ≠ [] := hsteps e List.mem_concat_self
        have hname : e.steps.getLast hne = e.steps.getLast?.getD "" := by
          rw [List.getLast?_eq_some_getLast hne, Option.getD_some]
        rw [find?_insert_self (tidy_ofEntries entries) hne, hname, Option.some.injEq]
        constructor
        · exact fun hfile => ⟨e, List.mem_concat_self, rfl, hfile⟩
        · rintro ⟨e', he', hsame, hfile⟩
          rwa [hinj e' he' e List.mem_concat_self hsame] at hfile
      · rw [find?_insert_of_ne (tidy_ofEntries entries) (Ne.symm heq),
          ih (fun e he => hsteps e (List.mem_append_left _ he)) fun e he e' he' =>
            hinj e (List.mem_append_left _ he) e' (List.mem_append_left _ he')]
        constructor
        · rintro ⟨e', he', h⟩
          exact ⟨e', List.mem_append_left _ he', h⟩
        · rintro ⟨e', he', h⟩
          rcases List.mem_append.mp he' with he' | he'
          · exact ⟨e', he', h⟩
          · exact absurd (List.mem_singleton.mp he' ▸ h.1) heq

/-- The order in which files under different steps are entered leaves no trace. -/
theorem ofEntries_eq_of_perm (hsteps : ∀ e ∈ entries, e.steps ≠ [])
    (hnodup : (entries.map Entry.steps).Nodup) (hperm : entries'.Perm entries) :
    ofEntries entries' = ofEntries entries := by
  refine (tidy_ofEntries entries').ext (tidy_ofEntries entries) fun steps =>
    Option.ext fun file => ?_
  have hinj := fun e he e' he' => List.inj_on_of_nodup_map hnodup (x := e) (y := e') he he'
  rw [find?_ofEntries_iff hsteps hinj, find?_ofEntries_iff
    (fun e he => hsteps e (hperm.mem_iff.mp he))
    fun e he e' he' => hinj e (hperm.mem_iff.mp he) e' (hperm.mem_iff.mp he')]
  simp only [hperm.mem_iff]

/-! ## The folder -/

/-- Every file that was entered is in the folder, once, where its steps say. -/
theorem perm_located_ofEntries (hsteps : ∀ e ∈ entries, e.steps ≠ [])
    (hnodup : (entries.map Entry.steps).Nodup) (name : String) (path : Path) :
    ((ofEntries entries).toFolder name path).located.Perm
      (entries.map fun e => (e.steps, e.file)) := by
  have htidy := tidy_ofEntries entries
  have hkeys : (entries.map fun e => (e.steps, e.file)).map Prod.fst = entries.map Entry.steps :=
    List.map_map
  refine (List.perm_ext_iff_of_nodup (nodup_located_toFolder htidy name path).of_map
    (hkeys ▸ hnodup).of_map).mpr fun ⟨steps, file⟩ => ?_
  rw [mem_located_toFolder htidy, List.mem_map,
    find?_ofEntries_iff hsteps fun e he e' he' => List.inj_on_of_nodup_map hnodup he he']
  simp only [Prod.mk.injEq]

/-- In every folder in the folder of an index, subfolders and files ascend by the octets of
their names, and subfolders lie where their names say. -/
theorem ordered_of_mem_items (h : Tidy i) {name : String} {path : Path} {g : Folder}
    (hg : .folder g ∈ (i.toFolder name path).items) :
    (g.folders.map fun f => Utf8.encode f.name).Pairwise (· < ·) ∧
      (g.files.map fun file => Utf8.encode file.name).Pairwise (· < ·) ∧
        ∀ f ∈ g.folders, f.path = g.path.join ⟨f.name⟩ := by
  obtain ⟨⟨steps, item⟩, hitem, heq⟩ := List.mem_map.mp hg
  obtain rfl : item = .folder g := heq
  obtain ⟨j, hj, rfl, -, -⟩ := exists_index_of_mem_walk h hitem
  obtain ⟨hfolders, hfiles⟩ := ascending_toFolder hj _ _
  refine ⟨?_, ?_, fun f hf => ?_⟩
  · exact List.pairwise_map.mpr ((List.pairwise_map.mp hfolders).imp Utf8.encode_lt_encode)
  · exact List.pairwise_map.mpr ((List.pairwise_map.mp hfiles).imp Utf8.encode_lt_encode)
  · obtain ⟨folders, files⟩ := j
    rw [toFolder, toFolders_eq] at hf
    obtain ⟨entry, -, rfl⟩ := List.mem_map.mp hf
    rw [path_toFolder, path_toFolder, name_toFolder]

/-- Files under different steps make the same folder in whatever order they are entered. It
holds each of them once, where its steps say and with its own path and text; in it, no folder
is without a file; and in every folder the subfolders and the files ascend by the octets of
their names, and the subfolders lie where their names say. -/
theorem toFolder_ofEntries (hsteps : ∀ e ∈ entries, e.steps ≠ [])
    (hnodup : (entries.map Entry.steps).Nodup) (name : String) (path : Path) :
    ∃ F : Folder, F.name = name ∧ F.path = path ∧
      (∀ entries' : List Entry, entries'.Perm entries →
        (ofEntries entries').toFolder name path = F) ∧
      F.located.Perm (entries.map fun e => (e.steps, e.file)) ∧
      (∀ steps g, (steps, .folder g) ∈ F.walk → steps ≠ [] → 0 < g.fileCount) ∧
      ∀ g, .folder g ∈ F.items →
        (g.folders.map fun f => Utf8.encode f.name).Pairwise (· < ·) ∧
          (g.files.map fun file => Utf8.encode file.name).Pairwise (· < ·) ∧
            ∀ f ∈ g.folders, f.path = g.path.join ⟨f.name⟩ := by
  have htidy := tidy_ofEntries entries
  refine ⟨(ofEntries entries).toFolder name path, name_toFolder .., path_toFolder .., ?_,
    perm_located_ofEntries hsteps hnodup name path, ?_, fun g hg => ordered_of_mem_items htidy hg⟩
  · exact fun entries' hperm => congrArg _ (ofEntries_eq_of_perm hsteps hnodup hperm)
  · intro steps g hg hne
    obtain ⟨j, -, -, -, hpos⟩ := exists_index_of_mem_walk htidy hg
    exact hpos hne

/-- Two files in one folder, one outside, and one named like the folder. -/
def sampleEntries : List Entry :=
  [⟨["lib", "b.swift"], ⟨"/app/lib/b.swift"⟩, "b"⟩, ⟨["lib"], ⟨"/app/lib"⟩, "text"⟩,
    ⟨["lib", "a.swift"], ⟨"/app/lib/a.swift"⟩, "a"⟩]

theorem toFolder_ofEntries_sample : ∃ F : Folder, F.name = "app" ∧
    (ofEntries sampleEntries).toFolder "app" ⟨"/app"⟩ = F ∧
      (ofEntries sampleEntries.reverse).toFolder "app" ⟨"/app"⟩ = F ∧ F.located.length = 3 := by
  have hsteps : ∀ e ∈ sampleEntries, e.steps ≠ [] := by decide
  have hnodup : (sampleEntries.map Entry.steps).Nodup := by decide
  obtain ⟨F, hname, -, hperm, hlocated, -⟩ := toFolder_ofEntries hsteps hnodup "app" ⟨"/app"⟩
  exact ⟨F, hname, hperm _ (.refl _), hperm _ (List.reverse_perm _), hlocated.length_eq⟩

end Index

end SourceAtlas
