import SourceAtlas.Proofs.Load
import SourceAtlas.Proofs.Tree.Lines
import SourceAtlas.Proofs.Uri
/-!
# Files and their uris

A tree finds its files by the uris it announces them under. Every file is entered under the
steps of its path (`filesEntered_ofFolder`), and on a proper disk no two files of a loaded folder have
one path (`eq_of_path_eq`). So a file is found by its uri wherever its uri is read back as its
path, which is wherever the path has no backslash and no drive in it
(`fileForUri?_eq_some_iff`).
-/

namespace SourceAtlas

namespace Tree

variable {t : Tree} {f F : Folder} {i j : Nat} {path path' : Path} {uri uri' : String}

/-! ## The table of files -/

def content? (t : Tree) (i : Nat) : Option Content := (t.get? i).map Artifact.content

theorem content?_eq_label? (t : Tree) (i : Nat) :
    t.content? i = (t.label? i).map Label.content := by
  rw [content?, label?, Option.map_map]
  rfl

theorem content?_push (t : Tree) (scope : Option Nat) (name : String) (content : Content)
    (code : Option String) (ownLines : Option Nat) (i : Nat) :
    (t.push scope name content code ownLines).content? i =
      if i = t.size then some content else t.content? i := by
  have horigin (u : Tree) : u.content? i = (u.origin? i).map Artifact.content := by
    rw [origin?, Option.map_map]
    rfl
  rw [horigin, origin?_push, horigin]
  split <;> rfl

theorem content?_size (t : Tree) : t.content? t.size = none := by
  rw [content?, (t.get?_eq_none_iff t.size).mpr (Nat.le_refl _)]
  rfl

/-- The files are entered under the steps of their paths, and nothing else is. -/
def FilesEntered (t : Tree) : Prop :=
  ∀ c i, (c, i) ∈ t.files ↔ ∃ path uri, t.content? i = some (.file path uri) ∧ c = path.components

theorem filesEntered_push (h : t.FilesEntered) {scope : Option Nat} {name : String} :
    (t.push scope name .folder none none).FilesEntered := by
  intro c i
  rw [files_push, h c i, content?_push]
  split
  · next heq =>
      subst heq
      rw [content?_size]
      simp
  · rfl

theorem filesEntered_addFile (h : t.FilesEntered) (s : Nat) (g : SourceFile) :
    (t.addFile s g).FilesEntered := by
  intro c i
  have hcontent : (t.addFile s g).content? i =
      if i = t.size then some (.file g.path (Uri.ofPath g.path)) else t.content? i :=
    content?_push t (some s) g.name (.file g.path (Uri.ofPath g.path)) (some g.code)
      (some g.lineCount) i
  have hfiles : (t.addFile s g).files = (g.path.components, t.size) :: t.files := rfl
  rw [hfiles, List.mem_cons, h c i, hcontent, Prod.mk.injEq]
  split
  · next heq =>
      subst heq
      rw [content?_size]
      simp
  · next hne => simp [hne]

theorem filesEntered_ofFolder (f : Folder) : (ofFolder f).FilesEntered := by
  refine keeps_ofFolder (P := FilesEntered) (fun name => ?_)
    (fun t s name h _ => filesEntered_push h) (fun t s g h _ => filesEntered_addFile h s g) f
  exact filesEntered_push fun c i => by simp [empty, content?, get?]

/-! ## Files of a loaded folder -/

theorem content?_ofFolder (f : Folder) (i : Nat) :
    (ofFolder f).content? i = f.items[i]?.map fun item => item.branch.label.content := by
  rw [content?_eq_label?]
  rcases Nat.lt_or_ge i f.items.length with hlt | hge
  · have hitem := List.getElem?_eq_getElem hlt
    rw [(bears_of_getElem?_items hitem).label?_eq, hitem]
    rfl
  · rw [List.getElem?_eq_none hge, label?, ((ofFolder f).get?_eq_none_iff i).mpr]
    · rfl
    · rwa [size_ofFolder]

/-- A file artifact is made for a file of the folder and announced under the uri of its
path. -/
theorem exists_walk_of_content?_eq_file (h : (ofFolder f).content? i = some (.file path uri)) :
    uri = Uri.ofPath path ∧
      ∃ steps file, f.walk[i]? = some (steps, .file file) ∧ file.path = path := by
  rw [content?_ofFolder, Folder.items, List.getElem?_map, Option.map_map] at h
  obtain ⟨⟨steps, item⟩, hmet, hcontent⟩ := Option.map_eq_some_iff.mp h
  cases item with
  | folder g =>
      rw [Function.comp_apply, Folder.Item.branch, Folder.label_branch] at hcontent
      cases hcontent
  | file file =>
      cases hcontent
      exact ⟨rfl, steps, file, hmet, rfl⟩

/-- Every file of a folder has an artifact. -/
theorem exists_content?_eq_file {steps : List String} {file : SourceFile}
    (h : (steps, file) ∈ f.located) :
    ∃ i, (ofFolder f).content? i = some (.file file.path (Uri.ofPath file.path)) := by
  obtain ⟨i, hi⟩ := List.getElem?_of_mem (Folder.mem_located_iff.mp h)
  refine ⟨i, ?_⟩
  rw [content?_ofFolder, Folder.items, List.getElem?_map, hi]
  rfl

section Loaded

variable {d : Disk} {o : Load.Options} (hproper : d.root.isProper = true)
  (hload : Folder.load d o = .ok F)

include hproper hload

/-- The path of a file is spelled by names. -/
theorem exists_names_of_content?_eq_file
    (hi : (ofFolder F).content? i = some (.file path uri)) :
    ∃ names, (∀ name ∈ names, Path.IsName name) ∧ path = Disk.pathOf names := by
  obtain ⟨-, steps, file, hmet, rfl⟩ := exists_walk_of_content?_eq_file hi
  obtain ⟨-, place, hplace⟩ :=
    Load.exists_place_of_load_eq_ok Disk.Walk.lawful_standard hproper hload
  obtain ⟨hpath, hnames⟩ :=
    hplace steps file (Folder.mem_located_iff.mpr (List.mem_of_getElem? hmet))
  exact ⟨_, hnames, hpath⟩

/-- No two files of a loaded folder have one path. -/
theorem eq_of_path_eq (hi : (ofFolder F).content? i = some (.file path uri))
    (hj : (ofFolder F).content? j = some (.file path uri')) : i = j := by
  obtain ⟨-, steps, file, hmet, rfl⟩ := exists_walk_of_content?_eq_file hi
  obtain ⟨-, steps', file', hmet', heq⟩ := exists_walk_of_content?_eq_file hj
  obtain ⟨hnodup, place, hplace⟩ :=
    Load.exists_place_of_load_eq_ok Disk.Walk.lawful_standard hproper hload
  obtain ⟨hpath, hnames⟩ :=
    hplace steps file (Folder.mem_located_iff.mpr (List.mem_of_getElem? hmet))
  obtain ⟨hpath', hnames'⟩ :=
    hplace steps' file' (Folder.mem_located_iff.mpr (List.mem_of_getElem? hmet'))
  have hsteps : place ++ steps' = place ++ steps :=
    Disk.pathOf_injOn hnames' hnames (hpath'.symm.trans (heq.trans hpath))
  obtain rfl : steps' = steps := List.append_cancel_left hsteps
  exact Folder.index_eq_of_steps_eq hnodup hmet hmet'

/-! ## Files by uri -/

/-- A file is found by its uri exactly where there is no backslash in its path and no drive at
its start. -/
theorem fileForUri?_eq_some_iff (hi : (ofFolder F).content? i = some (.file path uri)) :
    (ofFolder F).fileForUri? uri = some i ↔ '\\' ∉ path.text.toList ∧ ¬ path.HasDrive := by
  obtain ⟨rfl, -⟩ := exists_walk_of_content?_eq_file hi
  obtain ⟨names, hnames, hpath⟩ := exists_names_of_content?_eq_file hproper hload hi
  have habsolute : path.isAbsolute = true := hpath ▸ Disk.isAbsolute_pathOf names
  have hcomponents := Disk.components_pathOf hnames
  rw [← hpath] at hcomponents
  constructor
  · intro h
    rw [fileForUri?, Uri.toPath?_ofPath, Option.bind_some] at h
    obtain ⟨path', uri', hcontent, heq⟩ :=
      (filesEntered_ofFolder F _ i).mp (mem_of_lookup_eq_some h)
    cases hi.symm.trans hcontent
    rw [hcomponents] at heq
    refine ⟨fun hback => ?_, fun hdrive => ?_⟩
    -- a name with a backslash is a step of the path that is read back, which has none
    · rcases Disk.mem_text_pathOf (hpath ▸ hback) with hslash | ⟨name, hname, hmem⟩
      · cases hslash
      · have hstep : .entry name ∈ Path.Component.root :: names.map .entry :=
          List.mem_cons_of_mem _ (List.mem_map_of_mem hname)
        have hread := Path.mem_of_entry_mem_components (heq ▸ hstep) hmem
        rw [String.toList_ofList] at hread
        exact Uri.backslash_notMem_dropDriveSeparator path hread
    · have hroot := Path.isAbsolute_of_root_mem_components (heq ▸ List.mem_cons_self)
      exact Bool.false_ne_true ((Uri.isAbsolute_dropDriveSeparator hdrive).symm.trans hroot)
  · rintro ⟨hback, hdrive⟩
    rw [fileForUri?, Uri.toPath?_ofPath_of_isAbsolute habsolute hback hdrive, Option.bind_some]
    refine lookup_eq_some_of_forall ((filesEntered_ofFolder F _ i).mpr ⟨path, _, hi, rfl⟩) ?_
    intro j hj
    obtain ⟨path', uri', hcontent, heq⟩ := (filesEntered_ofFolder F _ j).mp hj
    obtain ⟨names', hnames', rfl⟩ := exists_names_of_content?_eq_file hproper hload hcontent
    rw [hcomponents, Disk.components_pathOf hnames'] at heq
    obtain rfl : names = names' := List.map_injective_iff.mpr
      (fun _ _ => Path.Component.entry.inj) (List.cons.inj heq).2
    exact eq_of_path_eq hproper hload hcontent (hpath ▸ hi)

/-- Uris tell files apart that have no backslash in their paths. -/
theorem ofPath_eq_ofPath_iff_of_content? (hi : (ofFolder F).content? i = some (.file path uri))
    (hj : (ofFolder F).content? j = some (.file path' uri')) :
    uri = uri' ↔ path.text.toList.map Uri.separate = path'.text.toList.map Uri.separate := by
  obtain ⟨rfl, -⟩ := exists_walk_of_content?_eq_file hi
  obtain ⟨rfl, -⟩ := exists_walk_of_content?_eq_file hj
  obtain ⟨names, -, rfl⟩ := exists_names_of_content?_eq_file hproper hload hi
  obtain ⟨names', -, rfl⟩ := exists_names_of_content?_eq_file hproper hload hj
  rw [Uri.ofPath_eq_ofPath_iff, Path.separated_of_isAbsolute (Disk.isAbsolute_pathOf names),
    Path.separated_of_isAbsolute (Disk.isAbsolute_pathOf names')]

end Loaded

/-- Two files whose paths differ in a backslash. -/
def backslashEntries : List (String × Disk.Node) :=
  [("a", .folder [("b.swift", .file [] false)]), ("a\\b.swift", .file [] false)]

def backslashDisk : Disk := ⟨.folder [("p", .folder backslashEntries)], ["p"]⟩

def backslashOptions : Load.Options := ⟨⟨"."⟩, ["swift"], [], false, true⟩

theorem ofPath_backslashFolder : Uri.ofPath ⟨"/p/a/b.swift"⟩ = "file:///p/a/b.swift" := by
  rw [Uri.ofPath_of_ascii (by decide)]
  decide

theorem exists_backslashFolder :
    ∃ F i j, Folder.load backslashDisk backslashOptions = .ok F ∧
      (ofFolder F).content? i =
        some (.file ⟨"/p/a\\b.swift"⟩ (Uri.ofPath ⟨"/p/a\\b.swift"⟩)) ∧
      (ofFolder F).content? j =
        some (.file ⟨"/p/a/b.swift"⟩ (Uri.ofPath ⟨"/p/a/b.swift"⟩)) := by
  have hnode : backslashDisk.node? backslashDisk.current = some (.folder backslashEntries) := rfl
  have hplain : Load.Source (.folder backslashEntries) backslashOptions ["a", "b.swift"] [] :=
    ⟨⟨false, rfl⟩, by decide, by decide, "b", "swift", by decide, by decide, by decide, rfl⟩
  have hback : Load.Source (.folder backslashEntries) backslashOptions ["a\\b.swift"] [] :=
    ⟨⟨false, rfl⟩, by decide, by decide, "a\\b", "swift", by decide, by decide, by decide, rfl⟩
  obtain ⟨F, hload, hholds⟩ := Load.exists_holds_of_source Disk.Walk.lawful_standard (by decide)
    rfl (Disk.resolve_dot hnode) hnode ⟨_, _, hplain⟩
  have hlocated : ∀ {steps name}, Load.Source (.folder backslashEntries) backslashOptions steps [] →
      steps.getLast? = some name →
        (steps, ⟨name, Disk.pathOf (["p"] ++ steps), ""⟩) ∈ F.located :=
    fun hsource hlast => (hholds.located _ _).mpr ⟨[], hsource, hlast, rfl, .nil⟩
  obtain ⟨i, hi⟩ := exists_content?_eq_file (hlocated hback rfl)
  obtain ⟨j, hj⟩ := exists_content?_eq_file (hlocated hplain rfl)
  exact ⟨F, i, j, hload, hi, hj⟩

/-- A file with a backslash in its path is announced under the uri of another one, and not
found by it. -/
theorem backslash_uri_names_other_file :
    backslashDisk.root.isProper = true ∧
      ∃ F i j, Folder.load backslashDisk backslashOptions = .ok F ∧ i ≠ j ∧
        (ofFolder F).content? i = some (.file ⟨"/p/a\\b.swift"⟩ "file:///p/a/b.swift") ∧
        (ofFolder F).content? j = some (.file ⟨"/p/a/b.swift"⟩ "file:///p/a/b.swift") ∧
        (ofFolder F).fileForUri? "file:///p/a/b.swift" ≠ some i := by
  obtain ⟨F, i, j, hload, hi, hj⟩ := exists_backslashFolder
  have hproper : backslashDisk.root.isProper = true := by decide
  have huri : Uri.ofPath ⟨"/p/a\\b.swift"⟩ = "file:///p/a/b.swift" := by
    rw [Uri.ofPath_of_ascii (by decide)]
    decide
  rw [huri] at hi
  rw [ofPath_backslashFolder] at hj
  refine ⟨hproper, F, i, j, hload, ?_, hi, hj, fun hfound => ?_⟩
  · rintro rfl
    have hcontent := Option.some.inj (hi.symm.trans hj)
    exact absurd (Content.file.inj hcontent).1 (by decide)
  · exact ((fileForUri?_eq_some_iff hproper hload hi).mp hfound).1 (by decide)

/-- The files of a loaded folder are found by the uris they are announced under, and these
are different, but for what a backslash and a drive in a path come to: a file is found
exactly where there is neither, and two files have one uri exactly where their paths differ
in nothing but backslashes. -/
theorem files_by_uri {d : Disk} {o : Load.Options} (hproper : d.root.isProper = true)
    (hload : Folder.load d o = .ok F) :
    (∀ i path uri, (ofFolder F).content? i = some (.file path uri) →
      ((ofFolder F).fileForUri? uri = some i ↔
        '\\' ∉ path.text.toList ∧ ¬ path.HasDrive)) ∧
    (∀ i j path path' uri uri', (ofFolder F).content? i = some (.file path uri) →
      (ofFolder F).content? j = some (.file path' uri') →
        (uri = uri' ↔
          path.text.toList.map Uri.separate = path'.text.toList.map Uri.separate)) ∧
    ∀ i j path path' uri, (ofFolder F).content? i = some (.file path uri) →
      (ofFolder F).content? j = some (.file path' uri) →
        '\\' ∉ path.text.toList → '\\' ∉ path'.text.toList → i = j := by
  refine ⟨fun i path uri hi => fileForUri?_eq_some_iff hproper hload hi,
    fun i j path path' uri uri' hi hj => ofPath_eq_ofPath_iff_of_content? hproper hload hi hj,
    fun i j path path' uri hi hj hback hback' => ?_⟩
  have hspelled := (ofPath_eq_ofPath_iff_of_content? hproper hload hi hj).mp rfl
  rw [Uri.map_separate_of_notMem hback, Uri.map_separate_of_notMem hback'] at hspelled
  obtain rfl : path = path' := congrArg Path.mk (String.toList_injective hspelled)
  exact eq_of_path_eq hproper hload hi hj

/-- The file without a backslash is found. -/
theorem files_by_uri_backslashDisk :
    ∃ F j, Folder.load backslashDisk backslashOptions = .ok F ∧
      (ofFolder F).content? j = some (.file ⟨"/p/a/b.swift"⟩ "file:///p/a/b.swift") ∧
      (ofFolder F).fileForUri? "file:///p/a/b.swift" = some j := by
  obtain ⟨F, i, j, hload, -, hj⟩ := exists_backslashFolder
  have hdrive : ¬ (⟨"/p/a/b.swift"⟩ : Path).HasDrive := by
    rintro ⟨d, rest, hchars, -⟩
    cases hchars
  rw [ofPath_backslashFolder] at hj
  exact ⟨F, j, hload, hj,
    ((files_by_uri (by decide) hload).1 j _ _ hj).mpr ⟨by decide, hdrive⟩⟩

end Tree

end SourceAtlas
