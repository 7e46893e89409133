import Mathlib.Data.List.Basic
import SourceAtlas.Folder
/-!
# Walking a folder

A walk meets everything a folder holds, the folder itself first: then each subfolder
with all that is below it, and the files last. Along with each item it keeps the steps
that lead there (`Folder.walk`), which in the folder itself are none.

The counts of a folder are counts over its walk: `folderCount_eq`, `fileCount_eq`,
`fileCount_eq_length_located`.
-/

namespace SourceAtlas

namespace Folder

/-- What a walk meets. -/
inductive Item where
  | folder (f : Folder)
  | file (f : SourceFile)

namespace Item

def file? : Item → Option SourceFile
  | .folder _ => none
  | .file f => some f

def isFolder : Item → Bool
  | .folder _ => true
  | .file _ => false

def isFile : Item → Bool
  | .folder _ => false
  | .file _ => true

def lineCount : Item → Nat
  | .folder f => f.lineCount
  | .file f => f.lineCount

end Item

/-- What was found under some steps in a folder of the given name, under the steps from
the folder around it. -/
def inside {α : Type} (name : String) (found : List String × α) : List String × α :=
  (name :: found.1, found.2)

mutual

/-- Everything in a folder and the folder itself, under the steps that lead there. -/
def walk : Folder → List (List String × Item)
  | ⟨name, path, folders, files⟩ =>
      ([], .folder ⟨name, path, folders, files⟩) ::
        (walkAll folders ++ files.map fun f => ([f.name], .file f))

def walkAll : List Folder → List (List String × Item)
  | [] => []
  | f :: fs => (walk f).map (inside f.name) ++ walkAll fs

end

/-- Everything in a folder and the folder itself. -/
def items (f : Folder) : List Item := f.walk.map Prod.snd

/-- The files in a folder, under the steps that lead there. -/
def located (f : Folder) : List (List String × SourceFile) :=
  f.walk.filterMap fun met => met.2.file?.map fun file => (met.1, file)

/-- What is shown of a folder from its subfolders is shown of every folder. -/
theorem induct {P : Folder → Prop}
    (h : ∀ name path folders files, (∀ f ∈ folders, P f) → P ⟨name, path, folders, files⟩)
    (f : Folder) : P f :=
  go f
where
  go : (f : Folder) → P f
    | ⟨name, path, folders, files⟩ => h name path folders files (goAll folders)
  goAll : (fs : List Folder) → ∀ f ∈ fs, P f
    | [], _, hf => absurd hf List.not_mem_nil
    | f :: fs, g, hg =>
        (List.mem_cons.mp hg).elim (fun heq => heq ▸ go f) fun hmem => goAll fs g hmem

section

variable (name : String) (path : Path) (folders : List Folder) (files : List SourceFile)

theorem walkAll_eq : walkAll folders = folders.flatMap fun f => f.walk.map (inside f.name) := by
  induction folders with
  | nil => rfl
  | cons f fs ih => rw [walkAll, List.flatMap_cons, ih]

theorem walk_mk : walk ⟨name, path, folders, files⟩ =
    ([], .folder ⟨name, path, folders, files⟩) ::
      ((folders.flatMap fun f => f.walk.map (inside f.name)) ++
        files.map fun f => ([f.name], .file f)) := by
  rw [walk, walkAll_eq]

theorem items_mk : items ⟨name, path, folders, files⟩ =
    .folder ⟨name, path, folders, files⟩ :: (folders.flatMap items ++ files.map .file) := by
  rw [items, walk_mk, List.map_cons, List.map_append, List.map_map, List.map_flatMap]
  simp only [List.map_map]
  rfl

theorem getElem?_items_zero (f : Folder) : f.items[0]? = some (.folder f) := by
  obtain ⟨name, path, folders, files⟩ := f
  rw [items_mk]
  rfl

theorem located_mk : located ⟨name, path, folders, files⟩ =
    (folders.flatMap fun f => f.located.map (inside f.name)) ++
      files.map fun f => ([f.name], f) := by
  rw [located, walk_mk, List.filterMap_cons_none rfl, List.filterMap_append,
    List.filterMap_flatMap, List.filterMap_map, ← List.filterMap_eq_map]
  congr 1
  · congr 1
    funext f
    rw [located, List.map_filterMap, List.filterMap_map]
    congr 1
    funext ⟨steps, item⟩
    cases item <;> rfl

theorem fileCountAll_eq : fileCountAll folders = total fileCount folders := by
  induction folders with
  | nil => rfl
  | cons f fs ih => rw [fileCountAll, total_cons, ih]

theorem folderCountAll_eq : folderCountAll folders = total folderCount folders := by
  induction folders with
  | nil => rfl
  | cons f fs ih => rw [folderCountAll, total_cons, ih]

theorem lineCountAll_eq : lineCountAll folders = total lineCount folders := by
  induction folders with
  | nil => rfl
  | cons f fs ih => rw [lineCountAll, total_cons, ih]

end

/-! ## Finding files and folders -/

theorem mem_located_iff {f : Folder} {steps : List String} {file : SourceFile} :
    (steps, file) ∈ f.located ↔ (steps, .file file) ∈ f.walk := by
  rw [located, List.mem_filterMap]
  constructor
  · rintro ⟨⟨names, item⟩, hmem, heq⟩
    cases item with
    | folder g => cases heq
    | file g =>
        cases heq
        exact hmem
  · exact fun hmem => ⟨_, hmem, rfl⟩

/-- What is found in a folder that a walk meets is found on that walk. -/
theorem located_of_mem_walk {f g : Folder} {steps names : List String} {file : SourceFile}
    (hg : (steps, .folder g) ∈ f.walk) (hfile : (names, file) ∈ g.located) :
    (steps ++ names, file) ∈ f.located := by
  induction f using induct generalizing steps with
  | h name path folders files ih =>
      rw [walk_mk, List.mem_cons, List.mem_append, List.mem_flatMap, List.mem_map] at hg
      rcases hg with heq | ⟨f, hf, hmem⟩ | ⟨file, -, heq⟩
      · cases heq
        exact hfile
      · obtain ⟨⟨rest, item⟩, hitem, heq⟩ := List.mem_map.mp hmem
        cases heq
        rw [located_mk, List.mem_append, List.mem_flatMap]
        exact .inl ⟨f, hf, List.mem_map.mpr ⟨_, ih f hf hitem, rfl⟩⟩
      · cases heq

/-- Files that are found once are met at one place of the walk. -/
theorem index_eq_of_steps_eq {f : Folder} (h : (f.located.map Prod.fst).Nodup) {i j : Nat}
    {steps : List String} {file file' : SourceFile} (hi : f.walk[i]? = some (steps, .file file))
    (hj : f.walk[j]? = some (steps, .file file')) : i = j := by
  rw [located, List.Nodup, List.pairwise_map, List.pairwise_filterMap,
    List.pairwise_iff_getElem] at h
  obtain ⟨hi, hfile⟩ := List.getElem?_eq_some_iff.mp hi
  obtain ⟨hj, hfile'⟩ := List.getElem?_eq_some_iff.mp hj
  rcases Nat.lt_trichotomy i j with hlt | heq | hlt
  · exact absurd rfl (h i j hi hj hlt (steps, file) (by rw [hfile]; rfl) (steps, file')
      (by rw [hfile']; rfl))
  · exact heq
  · exact absurd rfl (h j i hj hi hlt (steps, file') (by rw [hfile']; rfl) (steps, file)
      (by rw [hfile]; rfl))

/-! ## Counts -/

theorem located_map_snd (f : Folder) : f.located.map Prod.snd = f.items.filterMap Item.file? := by
  rw [located, items, List.map_filterMap, List.filterMap_map]
  congr 1
  funext ⟨steps, item⟩
  cases item <;> rfl

theorem total_items_mk (count : Item → Nat) (name : String) (path : Path)
    (folders : List Folder) (files : List SourceFile) :
    total count (items ⟨name, path, folders, files⟩) = count (.folder ⟨name, path, folders, files⟩) +
      (total (fun f => total count f.items) folders + total (fun f => count (.file f)) files) := by
  rw [items_mk, total_cons, total_append, total_flatMap, total_map]

theorem folderCount_eq (f : Folder) : f.folderCount = f.items.countP Item.isFolder := by
  rw [← total_eq_countP]
  induction f using induct with
  | h name path folders files ih =>
      rw [total_items_mk, folderCount, folderCountAll_eq, total_congr ih]
      exact congrArg (1 + ·) (total_const 0 files ▸ rfl)

theorem fileCount_eq (f : Folder) : f.fileCount = f.items.countP Item.isFile := by
  rw [← total_eq_countP]
  induction f using induct with
  | h name path folders files ih =>
      have hfiles : total (fun f => if (Item.file f).isFile then 1 else 0) files = files.length :=
        (total_const 1 files).trans (Nat.mul_one _)
      rw [total_items_mk, fileCount, fileCountAll_eq, total_congr ih, hfiles, Nat.add_comm]
      exact (Nat.zero_add _).symm

theorem fileCount_eq_length_located (f : Folder) : f.fileCount = f.located.length := by
  have hfile : Item.isFile = fun item => item.file?.isSome := by
    funext item
    cases item <;> rfl
  rw [← List.length_map Prod.snd, located_map_snd, fileCount_eq, hfile,
    List.length_filterMap_eq_countP]

end Folder

end SourceAtlas
