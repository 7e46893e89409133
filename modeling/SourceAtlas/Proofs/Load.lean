import SourceAtlas.Load
import SourceAtlas.Proofs.Disk.Walk
import SourceAtlas.Proofs.Folder.Entries
import SourceAtlas.Proofs.Text.Lossy
/-!
# What loading finds

Which files below a folder are source files is a question about one file and the names on
its way (`Load.Source`). Where no ignore rules count, source files and nothing else are collected
by every lawful walk (`mem_collect_iff`), and the folder that is made of what was collected holds
each of them once, where its steps say and with the text that its octets show (`Load.Holds`).

Whatever the options are, what is collected is a file of the disk (`isThere_of_mem_collect`), so
no two files of a loaded folder have one path.
-/

namespace SourceAtlas

namespace Load

/-- A source file at some steps below a folder: no link leads there and no excluded folder,
hidden names are on the way only where they are not passed over, and its name has an accepted
extension behind its last dot, with something before that dot. -/
structure Source (n : Disk.Node) (o : Options) (steps : List String) (octets : List UInt8) :
    Prop where
  isFile : ∃ executable, n.at? steps = some (.file octets executable)
  entered : ∀ name ∈ steps.dropLast, name ∉ o.excluded
  shown : o.skipHidden = true → ∀ name ∈ steps, name.toList.head? ≠ some '.'
  accepted : ∃ stem e : String, stem ≠ "" ∧ '.' ∉ e.toList ∧ e ∈ o.extensions ∧
    steps.getLast? = some (stem ++ "." ++ e)

variable {walk : Disk.Walk} {d : Disk} {o : Options} {place : List String}
  {entries : List (String × Disk.Node)} {n : Disk.Node} {steps : List String} {octets : List UInt8}

theorem accepts_iff {name : String} :
    o.accepts name = true ↔ ∃ stem e : String, stem ≠ "" ∧ '.' ∉ e.toList ∧ e ∈ o.extensions ∧
      name = stem ++ "." ++ e := by
  rw [Options.accepts, Option.any_eq_true]
  constructor
  · rintro ⟨e, he, hmem⟩
    obtain ⟨stem, hstem, hdot, hname⟩ := Path.extensionOf?_eq_some_iff.mp he
    exact ⟨stem, e, hstem, hdot, List.contains_iff_mem.mp hmem, hname⟩
  · rintro ⟨stem, e, hstem, hdot, hmem, hname⟩
    exact ⟨e, Path.extensionOf?_eq_some_iff.mpr ⟨stem, hstem, hdot, hname⟩,
      List.contains_iff_mem.mpr hmem⟩

/-! ## Collecting -/

theorem found?_eq_some_iff {e : Disk.Walk.Entry} : o.found? e = some ⟨steps, octets⟩ ↔
    ∃ executable, e = ⟨steps, .file octets executable⟩ ∧
      ∃ name, steps.getLast? = some name ∧ o.accepts name = true := by
  obtain ⟨names, n⟩ := e
  rw [Options.found?]
  constructor
  · intro h
    split at h
    · next contents executable name hnode hlast =>
        split at h
        · next haccepts =>
            cases hnode
            cases h
            exact ⟨executable, rfl, name, hlast, haccepts⟩
        · cases h
    · cases h
  · rintro ⟨executable, heq, name, hlast, haccepts⟩
    cases heq
    simp only [hlast, haccepts, if_true]

theorem mem_collect : ⟨steps, octets⟩ ∈ collect walk d o place ↔
    ∃ executable, ⟨steps, .file octets executable⟩ ∈ walk d (o.settings place) ∧
      ∃ name, steps.getLast? = some name ∧ o.accepts name = true := by
  rw [collect, List.mem_filterMap]
  constructor
  · rintro ⟨e, hmem, hfound⟩
    obtain ⟨executable, rfl, hname⟩ := found?_eq_some_iff.mp hfound
    exact ⟨executable, hmem, hname⟩
  · rintro ⟨executable, hmem, hname⟩
    exact ⟨_, hmem, found?_eq_some_iff.mpr ⟨executable, rfl, hname⟩⟩

theorem steps_ne_nil_of_mem_collect (h : ⟨steps, octets⟩ ∈ collect walk d o place) :
    steps ≠ [] := by
  obtain ⟨-, -, name, hlast, -⟩ := mem_collect.mp h
  rintro rfl
  cases hlast

/-- What is collected is a file of the disk. -/
theorem isThere_of_mem_collect (hwalk : walk.Lawful) (hproper : d.root.isProper = true)
    (h : ⟨steps, octets⟩ ∈ collect walk d o place) :
    ∃ executable, d.node? (place ++ steps) = some (.file octets executable) := by
  obtain ⟨executable, hmem, -⟩ := mem_collect.mp h
  exact ⟨executable, hwalk.isThere hproper hmem⟩

theorem isFolder_of_at?_cons {step : String} {m : Disk.Node}
    (h : n.at? (step :: steps) = some m) : n.isFolder = true := by
  cases n with
  | folder entries => rfl
  | file contents executable => cases h
  | link target => cases h

/-- No folder on the way to a file is passed over where no name before its own is excluded. -/
theorem forall_enters_iff {executable : Bool} (hat : n.at? steps = some (.file octets executable)) :
    (∀ before m, before ≠ [] → before <+: steps → n.at? before = some m →
        o.enters ⟨before, m⟩ = true) ↔
      ∀ name ∈ steps.dropLast, name ∉ o.excluded := by
  constructor
  · intro hkept name hname hexcluded
    have hne : steps ≠ [] := by
      rintro rfl
      cases hname
    obtain ⟨init, rest, hsplit⟩ := List.append_of_mem hname
    have hsteps : steps = (init ++ [name]) ++ (rest ++ [steps.getLast hne]) := by
      conv_lhs => rw [← List.dropLast_append_getLast hne, hsplit]
      simp
    have hbelow := hat
    rw [hsteps, Disk.Node.at?_append] at hbelow
    obtain ⟨m, hm, hinner⟩ := Option.bind_eq_some_iff.mp hbelow
    obtain ⟨step, inner, hcons⟩ := List.exists_cons_of_ne_nil
      (List.append_ne_nil_of_right_ne_nil rest (List.cons_ne_nil (steps.getLast hne) []))
    have hfolder : m.isFolder = true := isFolder_of_at?_cons (hcons ▸ hinner)
    have henters := hkept _ m (List.append_ne_nil_of_right_ne_nil init (List.cons_ne_nil name []))
      ⟨_, hsteps.symm⟩ hm
    simp [Options.enters, hfolder, hexcluded] at henters
  · intro hentered before m hne hbefore hm
    obtain ⟨rest, rfl⟩ := hbefore
    obtain ⟨init, name, rfl⟩ := List.eq_nil_or_concat' before |>.resolve_left hne
    rw [Options.enters, List.getLast?_concat]
    cases hfolder : m.isFolder with
    | false => rfl
    | true =>
        -- a folder is not the file itself, so its name stands before the last one
        have hrest : rest ≠ [] := by
          rintro rfl
          rw [List.append_nil, hm] at hat
          cases hat
          cases hfolder
        have hname : name ∉ o.excluded := hentered name (by
          rw [List.dropLast_append_of_ne_nil hrest]
          exact List.mem_append_left _ (List.mem_append_right _ List.mem_cons_self))
        simpa using hname

/-- A walk may come to a source file, and to no other file with an accepted name. -/
theorem exists_reaches_iff_source (hplace : d.node? place = some n) :
    (∃ executable, Disk.Walk.Reaches d (o.settings place) ⟨steps, .file octets executable⟩ ∧
      ∃ name, steps.getLast? = some name ∧ o.accepts name = true) ↔ Source n o steps octets := by
  have hnode : ∀ names, d.node? (place ++ names) = n.at? names := by
    intro names
    rw [Disk.node?_append, hplace, Option.bind_some]
  constructor
  · rintro ⟨executable, ⟨hthere, hshown, hkept⟩, name, hlast, haccepts⟩
    obtain ⟨stem, e, hstem, hdot, he, rfl⟩ := accepts_iff.mp haccepts
    have hat : n.at? steps = some (.file octets executable) := (hnode steps).symm.trans hthere
    refine ⟨⟨executable, hat⟩, (forall_enters_iff hat).mp fun before m hne hbefore hm => ?_,
      hshown, stem, e, hstem, hdot, he, hlast⟩
    exact hkept before m hne hbefore ((hnode before).trans hm)
  · rintro ⟨⟨executable, hat⟩, hentered, hshown, stem, e, hstem, hdot, he, hlast⟩
    refine ⟨executable, ⟨(hnode steps).trans hat, hshown, fun before m hne hbefore hm => ?_⟩,
      _, hlast, accepts_iff.mpr ⟨stem, e, hstem, hdot, he, rfl⟩⟩
    exact (forall_enters_iff hat).mpr hentered before m hne hbefore ((hnode before).symm.trans hm)

/-- Where no ignore rules count, the source files are collected and nothing else. -/
theorem mem_collect_iff (hwalk : walk.Lawful) (hproper : d.root.isProper = true)
    (ho : o.respectIgnoreRules = false) (hplace : d.node? place = some n) :
    ⟨steps, octets⟩ ∈ collect walk d o place ↔ Source n o steps octets := by
  rw [mem_collect, ← exists_reaches_iff_source hplace]
  refine exists_congr fun executable => and_congr_left fun _ => ?_
  exact hwalk.mem_iff (s := o.settings place) hproper ho

/-! ## Assembling -/

/-- The entry for what was found below a place. -/
def Found.entry (place : List String) (f : Found) : Index.Entry :=
  ⟨f.steps, Disk.pathOf (place ++ f.steps), Utf8.decodeLossy f.octets⟩

/-- The file that is entered for what was found below a place. -/
def Found.sourceFile (place : List String) (f : Found) : SourceFile :=
  ⟨f.steps.getLast?.getD "", Disk.pathOf (place ++ f.steps), Utf8.decodeLossy f.octets⟩

theorem foldl_enter (place : List String) (found : List Found) :
    found.foldl (enter place) Index.empty = Index.ofEntries (found.map (Found.entry place)) := by
  rw [Index.ofEntries, List.foldl_map]
  rfl

/-- What was found is entered under its steps, and nothing else is. -/
theorem find?_foldl_enter_iff {found : List Found} (hsteps : ∀ f ∈ found, f.steps ≠ [])
    (hfound : ∀ f ∈ found, ∀ g ∈ found, f.steps = g.steps → f = g) {file : SourceFile} :
    (found.foldl (enter place) Index.empty).find? steps = some file ↔
      ∃ f ∈ found, f.steps = steps ∧ file = f.sourceFile place := by
  have hinj : ∀ e ∈ found.map (Found.entry place), ∀ e' ∈ found.map (Found.entry place),
      e.steps = e'.steps → e = e' := by
    intro e he e' he' heq
    obtain ⟨f, hf, rfl⟩ := List.mem_map.mp he
    obtain ⟨g, hg, rfl⟩ := List.mem_map.mp he'
    rw [hfound f hf g hg heq]
  rw [foldl_enter, Index.find?_ofEntries_iff (List.forall_mem_map.mpr hsteps) hinj]
  constructor
  · rintro ⟨e, he, rfl, rfl⟩
    obtain ⟨f, hf, rfl⟩ := List.mem_map.mp he
    exact ⟨f, hf, rfl, rfl⟩
  · rintro ⟨f, hf, rfl, rfl⟩
    exact ⟨f.entry place, List.mem_map_of_mem hf, rfl, rfl⟩

/-- The file that is entered has the last step as its name, the path of its place, and the text
that its octets show. -/
theorem eq_sourceFile_iff {file : SourceFile} (hne : steps ≠ []) :
    file = Found.sourceFile place ⟨steps, octets⟩ ↔
      steps.getLast? = some file.name ∧ file.path = Disk.pathOf (place ++ steps) ∧
        Utf8.Shows octets file.code.toList := by
  obtain ⟨name, path, code⟩ := file
  obtain ⟨last, hlast⟩ := Option.isSome_iff_exists.mp (List.getLast?_isSome.mpr hne)
  rw [Found.sourceFile, hlast, Utf8.shows_toList_iff, Option.getD_some, SourceFile.mk.injEq,
    Option.some.injEq, @eq_comm _ last, @eq_comm _ (Utf8.decodeLossy octets)]

/-! ## Loaded folders -/

/-- A folder holds the given files below a place: each once, where its steps say, with its name
and path and with the text that its octets show, which is its own where it has one; every folder
in it has a path of its own, and a file below; and the order is the one of the octets of the
names. -/
structure Holds (F : Folder) (place : List String) (files : List String → List UInt8 → Prop) :
    Prop where
  path : F.path = Disk.pathOf place
  located : ∀ steps file, (steps, file) ∈ F.located ↔
    ∃ octets, files steps octets ∧ steps.getLast? = some file.name ∧
      file.path = Disk.pathOf (place ++ steps) ∧ Utf8.Shows octets file.code.toList
  text : ∀ steps file code, (steps, file) ∈ F.located → files steps (Utf8.encode code) →
    file.code = code
  once : (F.located.map Prod.fst).Nodup
  folders : ∀ steps g, (steps, .folder g) ∈ F.walk →
    g.path = Disk.pathOf (place ++ steps) ∧ (steps ≠ [] → 0 < g.fileCount)
  ascending : ∀ g, .folder g ∈ F.items →
    (g.folders.map fun h => Utf8.encode h.name).Pairwise (· < ·) ∧
      (g.files.map fun file => Utf8.encode file.name).Pairwise (· < ·)

theorem Holds.congr {F : Folder} {files files' : List String → List UInt8 → Prop}
    (h : Holds F place files) (hiff : ∀ steps octets, files steps octets ↔ files' steps octets) :
    Holds F place files' := by
  have heq : files = files' := funext fun steps => funext fun octets => propext (hiff steps octets)
  exact heq ▸ h

theorem foldl_join_pathOf (hplace : ∀ name ∈ place, Path.IsName name)
    (hsteps : ∀ name ∈ steps, Path.IsName name) :
    steps.foldl (fun p step => p.join ⟨step⟩) (Disk.pathOf place) =
      Disk.pathOf (place ++ steps) := by
  induction steps generalizing place with
  | nil => rw [List.foldl_nil, List.append_nil]
  | cons step steps ih =>
      obtain ⟨hstep, hrest⟩ := List.forall_mem_cons.mp hsteps
      rw [List.foldl_cons, Disk.join_pathOf hplace hstep, ih ?_ hrest, List.append_assoc]
      · rfl
      · exact List.forall_mem_append.mpr ⟨hplace, List.forall_mem_singleton.mpr hstep⟩

/-- Files of a disk are assembled to a folder that holds them. -/
theorem holds_assemble (hproper : d.root.isProper = true) {found : List Found}
    (hsteps : ∀ f ∈ found, f.steps ≠ [])
    (hthere : ∀ f ∈ found, ∃ executable,
      d.node? (place ++ f.steps) = some (.file f.octets executable))
    (hplace : ∀ name ∈ place, Path.IsName name) :
    Holds (assemble place found) place fun steps octets => ⟨steps, octets⟩ ∈ found := by
  have hunique : ∀ f ∈ found, ∀ g ∈ found, f.steps = g.steps → f = g := by
    rintro ⟨steps, octets⟩ hf ⟨steps', octets'⟩ hg heq
    obtain rfl : steps = steps' := heq
    obtain ⟨executable, hat⟩ := hthere _ hf
    obtain ⟨executable', hat'⟩ := hthere _ hg
    cases hat.symm.trans hat'
    rfl
  have htidy : (found.foldl (enter place) Index.empty).Tidy := by
    rw [foldl_enter]
    exact Index.tidy_ofEntries _
  have hfile : ∀ {steps file}, (steps, file) ∈ (assemble place found).located ↔
      ∃ octets, ⟨steps, octets⟩ ∈ found ∧ file = Found.sourceFile place ⟨steps, octets⟩ := by
    intro steps file
    rw [assemble, Index.mem_located_toFolder htidy, find?_foldl_enter_iff hsteps hunique]
    constructor
    · rintro ⟨⟨steps, octets⟩, hf, rfl, rfl⟩
      exact ⟨octets, hf, rfl⟩
    · rintro ⟨octets, hf, rfl⟩
      exact ⟨_, hf, rfl, rfl⟩
  constructor
  case path => rw [assemble, Index.path_toFolder]
  case located =>
    intro steps file
    rw [hfile]
    exact exists_congr fun octets => and_congr_right fun hf => eq_sourceFile_iff (hsteps _ hf)
  case text =>
    intro steps file code hlocated hf
    obtain ⟨octets, hg, rfl⟩ := hfile.mp hlocated
    cases hunique _ hf _ hg rfl
    exact Utf8.decodeLossy_encode code
  case once => exact Index.nodup_located_toFolder htidy _ _
  case folders =>
    intro steps g hg
    obtain ⟨j, -, heq, -, hpos⟩ := Index.exists_index_of_mem_walk htidy hg
    have hspelled : ∀ name ∈ steps, Path.IsName name := by
      by_cases hnil : steps = []
      · exact hnil ▸ nofun
      · have hcount := hpos hnil
        rw [Folder.fileCount_eq_length_located] at hcount
        obtain ⟨⟨names, file⟩, hmem⟩ := List.exists_mem_of_length_pos hcount
        obtain ⟨octets, hf, -⟩ := hfile.mp (Folder.located_of_mem_walk hg hmem)
        obtain ⟨executable, hat⟩ := hthere _ hf
        exact fun name hname => (Disk.Node.isProper_of_at?_eq_some hproper hat).2 name
          (List.mem_append_right _ (List.mem_append_left _ hname))
    exact ⟨by rw [heq, Index.path_toFolder, foldl_join_pathOf hplace hspelled], hpos⟩
  case ascending =>
    intro g hg
    obtain ⟨hfolders, hfiles, -⟩ := Index.ordered_of_mem_items htidy hg
    exact ⟨hfolders, hfiles⟩

section Walk

variable (hwalk : walk.Lawful) (hproper : d.root.isProper = true)

include hwalk hproper

/-- What is collected at a place is assembled to a folder that holds it. -/
theorem holds_collect (o : Options) (hplace : d.node? place = some n) :
    Holds (assemble place (collect walk d o place)) place
      fun steps octets => ⟨steps, octets⟩ ∈ collect walk d o place :=
  holds_assemble hproper (fun _ hf => steps_ne_nil_of_mem_collect hf)
    (fun _ hf => isThere_of_mem_collect hwalk hproper hf)
    (Disk.Node.isProper_of_at?_eq_some hproper hplace).2

/-- Where no ignore rules count, these are the source files. -/
theorem holds_source (ho : o.respectIgnoreRules = false) (hplace : d.node? place = some n) :
    Holds (assemble place (collect walk d o place)) place (Source n o) :=
  (holds_collect hwalk hproper o hplace).congr fun _ _ => mem_collect_iff hwalk hproper ho hplace

end Walk

theorem Holds.fileCount_pos_iff {F : Folder} (h : Holds F place (Source n o)) :
    0 < F.fileCount ↔ ∃ steps octets, Source n o steps octets := by
  rw [Folder.fileCount_eq_length_located, List.length_pos_iff_exists_mem]
  constructor
  · rintro ⟨⟨steps, file⟩, hmem⟩
    obtain ⟨octets, hfile, -⟩ := (h.located _ _).mp hmem
    exact ⟨steps, octets, hfile⟩
  · rintro ⟨steps, octets, hfile⟩
    obtain ⟨stem, e, -, -, -, hlast⟩ := hfile.accepted
    have hne : steps ≠ [] := by
      rintro rfl
      cases hlast
    exact ⟨_, (h.located _ _).mpr ⟨octets, hfile, (eq_sourceFile_iff hne).mp rfl⟩⟩

/-- Loading fails where the root leads to no folder, and where nothing is found there. -/
theorem loadWith_cases (walk : Disk.Walk) (d : Disk) (o : Options) :
    ((∃ fault, Folder.loadWith walk d o = .error (.input fault)) ∧
      ¬ ∃ place entries, d.resolve o.root = .ok place ∧
        d.node? place = some (.folder entries)) ∨
    ∃ place entries F, d.resolve o.root = .ok place ∧ d.node? place = some (.folder entries) ∧
      F = assemble place (collect walk d o place) ∧
        ((∃ fault, Folder.loadWith walk d o = .error (.input fault)) ∧ F.fileCount = 0 ∨
          Folder.loadWith walk d o = .ok F ∧ 0 < F.fileCount) := by
  rw [Folder.loadWith]
  cases hresolve : d.resolve o.root with
  | error e => exact .inl ⟨⟨_, rfl⟩, nofun⟩
  | ok place =>
      dsimp only
      split
      · next entries hplace =>
          refine .inr ⟨place, entries, _, rfl, hplace, rfl, ?_⟩
          split
          · next hcount => exact .inl ⟨⟨_, rfl⟩, hcount⟩
          · next hcount => exact .inr ⟨rfl, Nat.pos_of_ne_zero hcount⟩
      · next hnone =>
          refine .inl ⟨⟨_, rfl⟩, ?_⟩
          rintro ⟨place', entries, heq, hplace⟩
          cases heq
          exact hnone entries hplace

section Loaded

variable (hwalk : walk.Lawful) (hproper : d.root.isProper = true)

include hwalk hproper

/-- A folder that was loaded holds what was collected at some place of the disk. -/
theorem exists_holds_of_load_eq_ok {F : Folder} (h : Folder.loadWith walk d o = .ok F) :
    ∃ place entries, d.node? place = some (.folder entries) ∧
      Holds F place fun steps octets => ⟨steps, octets⟩ ∈ collect walk d o place := by
  rcases loadWith_cases walk d o with
    ⟨⟨fault, hfault⟩, -⟩ | ⟨place, entries, F', -, hplace, rfl, hcases⟩
  · cases h.symm.trans hfault
  · rcases hcases with ⟨⟨fault, hfault⟩, -⟩ | ⟨hok, -⟩
    · cases h.symm.trans hfault
    · cases h.symm.trans hok
      exact ⟨place, entries, hplace, holds_collect hwalk hproper o hplace⟩

/-- Every file of a loaded folder has the path of its place, and no two have one place. -/
theorem exists_place_of_load_eq_ok {F : Folder} (h : Folder.loadWith walk d o = .ok F) :
    (F.located.map Prod.fst).Nodup ∧ ∃ place, ∀ steps file, (steps, file) ∈ F.located →
      file.path = Disk.pathOf (place ++ steps) ∧ ∀ name ∈ place ++ steps, Path.IsName name := by
  obtain ⟨place, entries, hplace, hholds⟩ := exists_holds_of_load_eq_ok hwalk hproper h
  refine ⟨hholds.once, place, fun steps file hfile => ?_⟩
  obtain ⟨octets, hfound, -, hpath, -⟩ := (hholds.located steps file).mp hfile
  obtain ⟨executable, hat⟩ := isThere_of_mem_collect hwalk hproper hfound
  exact ⟨hpath, (Disk.Node.isProper_of_at?_eq_some hproper hat).2⟩

variable (ho : o.respectIgnoreRules = false)

include ho

/-- Where the root leads to a folder with a source file below it, loading gives a folder. -/
theorem exists_holds_of_source (hresolve : d.resolve o.root = .ok place)
    (hplace : d.node? place = some (.folder entries))
    (hsource : ∃ steps octets, Source (.folder entries) o steps octets) :
    ∃ F, Folder.loadWith walk d o = .ok F ∧ Holds F place (Source (.folder entries) o) := by
  rcases loadWith_cases walk d o with
    ⟨-, hnone⟩ | ⟨place', entries', F, hresolve', hplace', rfl, hcases⟩
  · exact absurd ⟨place, entries, hresolve, hplace⟩ hnone
  · cases hresolve.symm.trans hresolve'
    cases hplace.symm.trans hplace'
    have hholds := holds_source hwalk hproper ho hplace
    rcases hcases with ⟨-, hcount⟩ | ⟨hok, -⟩
    · exact absurd hcount (Nat.ne_of_gt (hholds.fileCount_pos_iff.mpr hsource))
    · exact ⟨_, hok, hholds⟩

/-- Loading fails where the root leads to no folder with a source file below it. -/
theorem exists_fault_of_no_source
    (hnone : ¬ ∃ place entries, d.resolve o.root = .ok place ∧
      d.node? place = some (.folder entries) ∧
        ∃ steps octets, Source (.folder entries) o steps octets) :
    ∃ fault, Folder.loadWith walk d o = .error (.input fault) := by
  rcases loadWith_cases walk d o with
    ⟨hfault, -⟩ | ⟨place, entries, F, hresolve, hplace, rfl, hcases⟩
  · exact hfault
  · have hholds := holds_source hwalk hproper ho hplace
    rcases hcases with ⟨hfault, -⟩ | ⟨-, hcount⟩
    · exact hfault
    · exact absurd ⟨place, entries, hresolve, hplace, hholds.fileCount_pos_iff.mp hcount⟩ hnone

end Loaded

/-- Where no ignore rules count, loading by a lawful walk gives a folder with exactly the source
files below the root, and it fails for want of input exactly when the root leads to no folder or
there is no source file below it. -/
theorem load_spec (hwalk : walk.Lawful) (hproper : d.root.isProper = true)
    (ho : o.respectIgnoreRules = false) :
    (∀ place entries, d.resolve o.root = .ok place → d.node? place = some (.folder entries) →
      (∃ steps octets, Source (.folder entries) o steps octets) →
        ∃ F, Folder.loadWith walk d o = .ok F ∧ Holds F place (Source (.folder entries) o)) ∧
    ((∃ fault, Folder.loadWith walk d o = .error (.input fault)) ↔
      ¬ ∃ place entries, d.resolve o.root = .ok place ∧
        d.node? place = some (.folder entries) ∧
          ∃ steps octets, Source (.folder entries) o steps octets) := by
  refine ⟨fun place entries hresolve hplace hsource =>
    exists_holds_of_source hwalk hproper ho hresolve hplace hsource, ?_,
    exists_fault_of_no_source hwalk hproper ho⟩
  rintro ⟨fault, hfault⟩ ⟨place, entries, hresolve, hplace, hsource⟩
  obtain ⟨F, hok, -⟩ := exists_holds_of_source hwalk hproper ho hresolve hplace hsource
  cases hok.symm.trans hfault

/-- A folder with a source file in it, with one in a folder below, and with entries that are
none: a hidden file, a file without extension, a link, and what is in an excluded folder. -/
def sampleEntries : List (String × Disk.Node) :=
  [(".main.swift", .file [0x78] false), ("Makefile", .file [0x78] false),
    ("build", .folder [("main.swift", .file [0x78] false)]),
    ("lib", .folder [("text.swift", .file [0x78, 0x0A] false)]),
    ("link.swift", .link ⟨"main.swift"⟩), ("main.swift", .file [0x78] false)]

def sampleDisk : Disk := ⟨.folder [("app", .folder sampleEntries)], ["app"]⟩

def sampleOptions : Options := ⟨⟨"."⟩, ["swift"], ["build"], false, true⟩

/-- The walk that is used finds the two source files, with their texts. -/
theorem load_spec_sample : ∃ F, Folder.load sampleDisk sampleOptions = .ok F ∧
    Holds F ["app"] (Source (.folder sampleEntries) sampleOptions) ∧
      (["lib", "text.swift"], ⟨"text.swift", ⟨"/app/lib/text.swift"⟩, "x
"⟩) ∈ F.located ∧
      (["main.swift"], ⟨"main.swift", ⟨"/app/main.swift"⟩, "x"⟩) ∈ F.located := by
  have hnode : sampleDisk.node? sampleDisk.current = some (.folder sampleEntries) := rfl
  have htext : Source (.folder sampleEntries) sampleOptions ["lib", "text.swift"] [0x78, 0x0A] :=
    ⟨⟨false, rfl⟩, by decide, by decide, "text", "swift", by decide, by decide, by decide, rfl⟩
  have hmain : Source (.folder sampleEntries) sampleOptions ["main.swift"] [0x78] :=
    ⟨⟨false, rfl⟩, by decide, by decide, "main", "swift", by decide, by decide, by decide, rfl⟩
  obtain ⟨F, hload, hholds⟩ := (load_spec Disk.Walk.lawful_standard (by decide) rfl).1 ["app"]
    sampleEntries (Disk.resolve_dot hnode) hnode ⟨_, _, htext⟩
  refine ⟨F, hload, hholds, (hholds.located _ _).mpr ⟨_, htext, rfl, rfl, ?_⟩,
    (hholds.located _ _).mpr ⟨_, hmain, rfl, rfl, ?_⟩⟩
  · exact .char 'x' (.char '
' .nil)
  · exact .char 'x' .nil

end Load

end SourceAtlas
