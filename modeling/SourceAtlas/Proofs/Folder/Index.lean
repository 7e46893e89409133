import Mathlib.Data.List.Nodup
import SourceAtlas.Folder.Index
import SourceAtlas.Proofs.Ascending
import SourceAtlas.Proofs.Folder.Walk
/-!
# Finding files in an index

An index is looked at through the steps that lead to its files (`Index.find?`).
Entering a file changes what is found under its steps and nothing else
(`find?_insert_self`, `find?_insert_of_ne`), and keeps the index tidy: names ascend in
every folder, and no folder is empty (`Tidy.insert`).

The folder that a tidy index describes holds what is found there, each file once
(`mem_located_toFolder`, `nodup_located_toFolder`).
-/

namespace SourceAtlas

namespace Index

/-- The file under some steps, of which the last one is its name. -/
def find? : List String → Index → Option SourceFile
  | [], _ => none
  | [name], .node _ files => files.lookup name
  | step :: steps, .node folders _ => (folders.lookup step).bind (find? steps)

variable {path : Path} {code : String} {folders : List (String × Index)}
  {files : List (String × SourceFile)} {i : Index} {step : String} {steps : List String}

theorem find?_cons (hsteps : steps ≠ []) :
    find? (step :: steps) (.node folders files) = (folders.lookup step).bind (find? steps) := by
  rw [find?]
  exact hsteps

theorem insert_cons (hsteps : steps ≠ []) :
    insert path code (step :: steps) (.node folders files) =
      .node (Ascending.alter step (fun below => insert path code steps (below.getD empty)) folders)
        files := by
  rw [insert]
  exact hsteps

theorem find?_empty (steps : List String) : find? steps empty = none := by
  cases steps with
  | nil => rfl
  | cons step steps =>
      cases steps with
      | nil => rfl
      | cons next steps => rfl

/-- An index that files were entered into: names ascend, files are entered under their own
names, and every folder holds a file. -/
inductive Tidy : Index → Prop
  | node {folders : List (String × Index)} {files : List (String × SourceFile)}
      (folders_ascend : IsAscending folders) (files_ascend : IsAscending files)
      (named : ∀ entry ∈ files, entry.2.name = entry.1)
      (inhabited : ∀ entry ∈ folders, ∃ steps file, find? steps entry.2 = some file)
      (below : ∀ entry ∈ folders, Tidy entry.2) : Tidy (.node folders files)

theorem tidy_empty : Tidy empty :=
  .node .nil .nil nofun nofun nofun

theorem Tidy.getD {below : Option Index} (h : ∀ i ∈ below, Tidy i) : Tidy (below.getD empty) := by
  cases below with
  | none => exact tidy_empty
  | some i => exact h i rfl

theorem find?_getD_empty (below : Option Index) (steps : List String) :
    find? steps (below.getD empty) = below.bind (find? steps) := by
  cases below with
  | none => exact find?_empty steps
  | some i => rfl

/-- What is entered is found. -/
theorem find?_insert_self (h : Tidy i) (hsteps : steps ≠ []) :
    find? steps (i.insert path code steps) = some ⟨steps.getLast hsteps, path, code⟩ := by
  induction steps generalizing i with
  | nil => exact absurd rfl hsteps
  | cons step steps ih =>
      obtain ⟨hfolders, hfiles, -, -, hbelow⟩ := h
      by_cases hrest : steps = []
      · subst hrest
        exact Ascending.lookup_alter_self hfiles
      · rw [insert_cons hrest, find?_cons hrest, Ascending.lookup_alter_self hfolders,
          Option.bind_some, ih (Tidy.getD fun i hi => hbelow _ (mem_of_lookup_eq_some hi)) hrest,
          List.getLast_cons hrest]

/-- Entering a file changes nothing under other steps. -/
theorem find?_insert_of_ne (h : Tidy i) {other : List String} (hother : other ≠ steps) :
    find? other (i.insert path code steps) = find? other i := by
  induction steps generalizing i other with
  | nil => rw [insert_nil]
  | cons step steps ih =>
      obtain ⟨hfolders, hfiles, -, -, hbelow⟩ := h
      cases other with
      | nil => rfl
      | cons name names =>
          by_cases hsteps : steps = []
          · subst hsteps
            by_cases hnames : names = []
            · subst hnames
              exact Ascending.lookup_alter_of_ne fun heq => hother (heq ▸ rfl)
            · rw [insert, find?_cons hnames, find?_cons hnames]
          · by_cases hnames : names = []
            · subst hnames
              rw [insert_cons hsteps]
              rfl
            · rw [insert_cons hsteps, find?_cons hnames, find?_cons hnames]
              by_cases hname : name = step
              · subst hname
                rw [Ascending.lookup_alter_self hfolders, Option.bind_some, ih, find?_getD_empty]
                · exact Tidy.getD fun i hi => hbelow _ (mem_of_lookup_eq_some hi)
                · exact fun heq => hother (heq ▸ rfl)
              · rw [Ascending.lookup_alter_of_ne hname]

theorem Tidy.insert (h : Tidy i) (steps : List String) : Tidy (i.insert path code steps) := by
  induction steps generalizing i with
  | nil => rwa [insert_nil]
  | cons step steps ih =>
      obtain ⟨hfolders, hfiles, hnamed, hinhabited, hbelow⟩ := h
      by_cases hsteps : steps = []
      · subst hsteps
        refine .node hfolders (Ascending.isAscending_alter hfiles) ?_ hinhabited hbelow
        intro entry hentry
        rcases Ascending.mem_alter hfiles hentry with rfl | hentry
        · rfl
        · exact hnamed entry hentry
      · have hgetD := Tidy.getD fun i hi => hbelow (step, i) (mem_of_lookup_eq_some hi)
        rw [insert_cons hsteps]
        refine .node (Ascending.isAscending_alter hfolders) hfiles hnamed ?_ ?_
        · intro entry hentry
          rcases Ascending.mem_alter hfolders hentry with rfl | hentry
          · exact ⟨steps, _, find?_insert_self hgetD hsteps⟩
          · exact hinhabited entry hentry
        · intro entry hentry
          rcases Ascending.mem_alter hfolders hentry with rfl | hentry
          · exact ih hgetD
          · exact hbelow entry hentry

/-! ## The folder of an index -/

section

variable (name : String) (path : Path)

@[simp] theorem name_toFolder (i : Index) : (toFolder name path i).name = name := by
  cases i
  rfl

@[simp] theorem path_toFolder (i : Index) : (toFolder name path i).path = path := by
  cases i
  rfl

theorem toFolders_eq : toFolders path folders =
    folders.map fun entry => toFolder entry.1 (path.join ⟨entry.1⟩) entry.2 := by
  induction folders with
  | nil => rfl
  | cons entry rest ih =>
      obtain ⟨name, i⟩ := entry
      rw [toFolders, ih, List.map_cons]

theorem located_toFolder : (toFolder name path (.node folders files)).located =
    (folders.flatMap fun entry =>
      (toFolder entry.1 (path.join ⟨entry.1⟩) entry.2).located.map (Folder.inside entry.1)) ++
        files.map fun entry => ([entry.2.name], entry.2) := by
  rw [toFolder, Folder.located_mk, toFolders_eq, List.flatMap_map, List.map_map]
  simp only [name_toFolder]
  rfl

end

/-- A file is found among the files of a folder or inside one of its subfolders. -/
theorem find?_eq_some_iff (hfolders : IsAscending folders) (hfiles : IsAscending files)
    {file : SourceFile} :
    find? steps (.node folders files) = some file ↔
      (∃ entry ∈ folders, ∃ names, steps = entry.1 :: names ∧ find? names entry.2 = some file) ∨
        ∃ name, steps = [name] ∧ (name, file) ∈ files := by
  constructor
  · intro h
    cases steps with
    | nil => cases h
    | cons step names =>
        by_cases hnames : names = []
        · subst hnames
          exact .inr ⟨step, rfl, mem_of_lookup_eq_some h⟩
        · rw [find?_cons hnames] at h
          obtain ⟨i, hi, hfile⟩ := Option.bind_eq_some_iff.mp h
          exact .inl ⟨_, mem_of_lookup_eq_some hi, names, rfl, hfile⟩
  · rintro (⟨⟨step, i⟩, hentry, names, rfl, hfile⟩ | ⟨name, rfl, hfile⟩)
    · have hnames : names ≠ [] := by
        rintro rfl
        cases hfile
      rw [find?_cons hnames, (lookup_eq_some_iff_mem hfolders.nodup).mpr hentry]
      exact hfile
    · exact (lookup_eq_some_iff_mem hfiles.nodup).mpr hfile

/-- The folder of an index holds what is found there. -/
theorem mem_located_toFolder (h : Tidy i) {name : String} {path : Path} {file : SourceFile} :
    (steps, file) ∈ (i.toFolder name path).located ↔ find? steps i = some file := by
  induction h generalizing name path steps file with
  | @node folders files hfolders hfiles hnamed hinhabited hbelow ih =>
      rw [located_toFolder, List.mem_append, List.mem_flatMap, List.mem_map,
        find?_eq_some_iff hfolders hfiles]
      refine or_congr (exists_congr fun entry => and_congr_right fun hentry => ?_) ?_
      · rw [List.mem_map]
        constructor
        · rintro ⟨⟨names, found⟩, hfound, heq⟩
          cases heq
          exact ⟨names, rfl, (ih entry hentry).mp hfound⟩
        · rintro ⟨names, rfl, hfound⟩
          exact ⟨(names, file), (ih entry hentry).mpr hfound, rfl⟩
      · constructor
        · rintro ⟨entry, hentry, heq⟩
          cases heq
          exact ⟨_, rfl, by rwa [hnamed entry hentry]⟩
        · rintro ⟨name, rfl, hfile⟩
          exact ⟨_, hfile, by rw [hnamed _ hfile]⟩

theorem nodup_located_toFolder (h : Tidy i) (name : String) (path : Path) :
    ((i.toFolder name path).located.map Prod.fst).Nodup := by
  induction h generalizing name path with
  | @node folders files hfolders hfiles hnamed hinhabited hbelow ih =>
      have hinside (entry : String × Index) (found : List (List String × SourceFile)) :
          (found.map (Folder.inside entry.1)).map Prod.fst =
            (found.map Prod.fst).map (entry.1 :: ·) := by
        rw [List.map_map, List.map_map]
        rfl
      have hnames : (files.map fun entry => ([entry.2.name], entry.2)).map Prod.fst =
          (files.map Prod.fst).map ([·]) := by
        rw [List.map_map, List.map_map]
        exact List.map_congr_left fun entry hentry => congrArg ([·]) (hnamed entry hentry)
      rw [located_toFolder, List.map_append, List.map_flatMap, hnames]
      simp only [hinside]
      refine List.nodup_append.mpr ⟨List.nodup_flatMap.mpr ⟨?_, ?_⟩, ?_, ?_⟩
      · exact fun entry hentry => (ih entry hentry _ _).map List.cons_injective
      · refine (List.pairwise_map.mp hfolders.nodup).imp fun hne => ?_
        rintro steps hsteps hsteps'
        obtain ⟨names, -, rfl⟩ := List.mem_map.mp hsteps
        obtain ⟨names', -, heq⟩ := List.mem_map.mp hsteps'
        exact hne (List.cons.inj heq).1.symm
      · exact hfiles.nodup.map fun name name' heq => (List.cons.inj heq).1
      · rintro steps hsteps steps' hsteps' rfl
        obtain ⟨entry, hentry, hmem⟩ := List.mem_flatMap.mp hsteps
        obtain ⟨names, hfound, rfl⟩ := List.mem_map.mp hmem
        obtain ⟨name, -, heq⟩ := List.mem_map.mp hsteps'
        obtain ⟨⟨names', file⟩, hlocated, rfl⟩ := List.mem_map.mp hfound
        obtain rfl : names' = [] := (List.cons.inj heq).2.symm
        cases (mem_located_toFolder (hbelow entry hentry)).mp hlocated

theorem fileCount_toFolder_pos (h : Tidy i) {file : SourceFile} (hfile : find? steps i = some file)
    (name : String) (path : Path) : 0 < (i.toFolder name path).fileCount := by
  rw [Folder.fileCount_eq_length_located]
  exact List.length_pos_of_mem ((mem_located_toFolder h).mpr hfile)

/-- A folder met in the folder of an index is the folder of an index itself, and below the
outermost one it holds a file. -/
theorem exists_index_of_mem_walk (h : Tidy i) {name : String} {path : Path} {g : Folder}
    (hg : (steps, .folder g) ∈ (i.toFolder name path).walk) :
    ∃ j, Tidy j ∧ g = j.toFolder ((name :: steps).getLast (List.cons_ne_nil _ _))
        (steps.foldl (fun p step => p.join ⟨step⟩) path) ∧
      (steps = [] → j = i) ∧ (steps ≠ [] → 0 < g.fileCount) := by
  induction h generalizing name path steps with
  | @node folders files hfolders hfiles hnamed hinhabited hbelow ih =>
      rw [toFolder, Folder.walk_mk, toFolders_eq, List.mem_cons, List.mem_append, List.mem_flatMap,
        List.mem_map] at hg
      rcases hg with heq | ⟨f, hf, hmem⟩ | ⟨file, -, heq⟩
      · cases heq
        refine ⟨_, .node hfolders hfiles hnamed hinhabited hbelow, ?_, fun _ => rfl, (absurd rfl ·)⟩
        rw [toFolder, toFolders_eq]
        rfl
      · obtain ⟨entry, hentry, rfl⟩ := List.mem_map.mp hf
        obtain ⟨⟨names, item⟩, hitem, heq⟩ := List.mem_map.mp hmem
        rw [name_toFolder] at heq
        cases heq
        obtain ⟨j, hj, rfl, hself, hpos⟩ := ih entry hentry hitem
        refine ⟨j, hj, by rw [List.getLast_cons (List.cons_ne_nil _ _)]; rfl, nofun, fun _ => ?_⟩
        by_cases hnames : names = []
        · obtain ⟨found, file, hfile⟩ := hinhabited entry hentry
          exact fileCount_toFolder_pos hj (hself hnames ▸ hfile) _ _
        · exact hpos hnames
      · cases heq

/-- The folder of a tidy index has its subfolders and its files in the order of their
names. -/
theorem ascending_toFolder (h : Tidy i) (name : String) (path : Path) :
    ((i.toFolder name path).folders.map Folder.name).Pairwise (· < ·) ∧
      ((i.toFolder name path).files.map SourceFile.name).Pairwise (· < ·) := by
  obtain ⟨hfolders, hfiles, hnamed, -, -⟩ := h
  have hkeys : ∀ entry ∈ _, (SourceFile.name ∘ Prod.snd) entry = entry.1 := hnamed
  rw [toFolder, toFolders_eq, List.map_map, List.map_map, List.map_congr_left hkeys]
  refine ⟨?_, hfiles⟩
  have hname : (Folder.name ∘ fun entry : String × Index =>
      toFolder entry.1 (path.join ⟨entry.1⟩) entry.2) = Prod.fst :=
    funext fun entry => name_toFolder entry.1 _ entry.2
  rw [hname]
  exact hfolders

end Index

end SourceAtlas
