import SourceAtlas.Proofs.Analysis.Entering
import SourceAtlas.Proofs.Tree.Lines
import SourceAtlas.Proofs.Tree.Readback
import SourceAtlas.Analysis.Resolve
/-!
# What an extraction leaves behind

The files of a loaded folder are asked about in the order of their numbers
(`fileIds_ofFolder`), each of them once. Taking in what comes of it adds the branches of one
file after another, and nothing that is added later touches what was added for a file before
(`entered_enter`). So the outline of every file can be read back from the tree
(`extracted_enter`).
-/

namespace SourceAtlas

namespace Tree

open Branch (starts sizeAll)

variable {t : Tree} {f : Folder} {i n : Nat}

/-! ## Files in tree order -/

/-- What is gathered in each of some branches from their files is gathered in all of them from
one file after another. -/
theorem BearsAll.flatMap_starts {P : Nat → Bool} {F G : Nat → List Nat} {bs : List Branch}
    (h : t.BearsAll n bs)
    (hF : ∀ b ∈ bs, ∀ i, t.Bears i b → F i = ((List.range' i b.size).filter P).flatMap G) :
    (starts n bs).flatMap F = ((List.range' n (sizeAll bs)).filter P).flatMap G := by
  induction bs generalizing n with
  | nil => rfl
  | cons b bs ih =>
      obtain ⟨hb, hbs⟩ := h
      rw [starts, List.flatMap_cons, hF b List.mem_cons_self n hb,
        ih hbs fun c hc => hF c (List.mem_cons_of_mem _ hc), ← List.flatMap_append,
        ← List.filter_append, List.range'_append_1, Branch.sizeAll_cons]

/-- A walk comes to the files of a folder in the order of their numbers. -/
theorem Bears.filter_walk (ht : t.WellFormed) (g : Folder) (h : t.Bears i g.branch) :
    (t.walk i).filter t.isFile = (List.range' i g.branch.size).filter t.isFile := by
  induction g using Folder.induct generalizing i with
  | h name path folders files ih =>
      obtain ⟨hlabel, hparts, hbears⟩ := h
      have hfolder : ¬ t.isFile i = true := by
        rw [isFile, any_content, hlabel]
        exact Bool.false_ne_true
      have hbelow := hbears.flatMap_starts (P := t.isFile)
        (F := fun j => (t.walk j).filter t.isFile) (G := fun f => [f]) fun b hb j hj => ?_
      · rw [ht.walk_eq, hparts, List.filter_append, List.filter_flatMap, hbelow,
          List.flatMap_singleton', List.filter_cons_of_neg hfolder, List.filter_nil,
          List.append_nil, Folder.branch, Branch.size_node, List.range'_succ,
          List.filter_cons_of_neg hfolder]
      · rw [List.flatMap_singleton']
        rw [Folder.branches_eq] at hb
        rcases List.mem_append.mp hb with hb | hb
        · obtain ⟨g, hg, rfl⟩ := List.mem_map.mp hb
          exact ih g hg hj
        · obtain ⟨file, -, rfl⟩ := List.mem_map.mp hb
          rw [ht.walk_eq, hj.2.1]
          rfl

theorem fileIds_ofFolder (f : Folder) : (ofFolder f).fileIds =
    (List.range (ofFolder f).size).filter (ofFolder f).isFile := by
  have hsize : (ofFolder f).size = f.branch.size := by
    rw [size_ofFolder, Branch.size, Folder.preorder_branch, List.length_map]
  rw [fileIds, (bears_ofFolder f).filter_walk (wellFormed_ofFolder f), hsize, List.range_eq_range']
  rfl

theorem length_fileIds_ofFolder (f : Folder) : (ofFolder f).fileIds.length = f.fileCount := by
  have hrests : Rests f (ofFolder f) := History.loaded.rests nofun
  rw [fileIds_ofFolder, ← List.countP_eq_length_filter, ← hrests.stats_eq.2]
  exact (countP_artifacts (ofFolder f) fun a => a.content.isFile).symm

/-- An artifact of a loaded folder is no symbol, and a file of it has no parts yet. -/
theorem isSymbol_ofFolder (f : Folder) (i : Nat) : (ofFolder f).isSymbol i = false := by
  rw [isSymbol, facts?_eq_label?]
  rcases Nat.lt_or_ge i f.items.length with hi | hi
  · rw [(bears_of_getElem?_items (List.getElem?_eq_getElem hi)).label?_eq]
    cases f.items[i] with
    | folder g => rw [Folder.Item.branch, Folder.label_branch]; rfl
    | file g => rfl
  · rw [label?, (get?_eq_none_iff _ i).mpr (size_ofFolder f ▸ hi)]
    rfl

theorem parts_ofFolder_of_isFile (h : (ofFolder f).isFile i = true) : (ofFolder f).parts i = [] := by
  have hi : i < f.items.length := size_ofFolder f ▸ lt_size_of_isFile h
  have hbears := bears_of_getElem?_items (List.getElem?_eq_getElem hi)
  rw [isFile, any_content, hbears.label?_eq, Option.any_some, Folder.Item.isFile_label] at h
  cases hitem : f.items[i] with
  | folder g => rw [hitem] at h; cases h
  | file g => rw [hitem] at hbears; exact hbears.2.1

end Tree

namespace Extract

open Branch (starts sizeAll)

variable {t t₁ t' : Tree} {folder : Folder} {text : Nat → Option String}
  {outlined : List (Job × Outcome)} {job : Job} {a : Job × Outcome}

/-! ## The files that are asked about -/

/-- Every file of a tree is asked about, in tree order. -/
theorem map_file_jobs (t : Tree) : (jobs t).map Job.file = t.fileIds := by
  rw [jobs, List.map_filterMap]
  conv_rhs => rw [← List.filterMap_some (l := t.fileIds)]
  refine List.filterMap_congr fun id hid => ?_
  have hfile : t.isFile id = true := (List.mem_filter.mp hid).2
  rw [Tree.isFile] at hfile
  cases hget : t.get? id with
  | none => rw [hget] at hfile; cases hfile
  | some a =>
      obtain ⟨id', name, content, code, scope, parts, metrics, links, ownLines⟩ := a
      rw [hget] at hfile
      cases content with
      | file path uri => rfl
      | folder | symbol facts => cases hfile

/-- The uri of a file is asked about. -/
theorem uriOf?_of_mem_jobs (h : job ∈ jobs t) : Resolve.uriOf? t job.file = some job.uri := by
  obtain ⟨id, -, hid⟩ := List.mem_filterMap.mp h
  obtain ⟨a, hget, hjob⟩ := Option.bind_eq_some_iff.mp hid
  split at hjob
  · next path uri hcontent =>
      obtain rfl := Option.some.inj hjob
      rw [Resolve.uriOf?, hget, Option.bind_some, hcontent]
  · cases hjob

/-! ## Outlines of several files -/

/-- The branches of the entries of some files, whose texts are given. -/
def branches (text : Nat → Option String) (outlined : List (Job × Outcome)) : List Branch :=
  outlined.flatMap fun a => Outline.Entry.branches a.1.file (text a.1.file) (entries a.2)

/-- The entries of some files in the order in which they become symbols, each with the file it
is an entry of. -/
def listing (outlined : List (Job × Outcome)) : List (Nat × Outline.Entry) :=
  outlined.flatMap fun a => (Outline.Entry.preorderAll (entries a.2)).map fun e => (a.1.file, e)

theorem branches_cons (text : Nat → Option String) (a : Job × Outcome)
    (outlined : List (Job × Outcome)) : branches text (a :: outlined) =
      Outline.Entry.branches a.1.file (text a.1.file) (entries a.2) ++ branches text outlined :=
  List.flatMap_cons

theorem branches_append (text : Nat → Option String) (before after : List (Job × Outcome)) :
    branches text (before ++ after) = branches text before ++ branches text after :=
  List.flatMap_append

theorem listing_cons (a : Job × Outcome) (outlined : List (Job × Outcome)) :
    listing (a :: outlined) =
      ((Outline.Entry.preorderAll (entries a.2)).map fun e => (a.1.file, e)) ++ listing outlined :=
  List.flatMap_cons

/-- The artifacts of some files are those of the entries listed for them. -/
theorem preorderAll_branches (text : Nat → Option String) (outlined : List (Job × Outcome)) :
    Branch.preorderAll (branches text outlined) =
      (listing outlined).map fun a => a.2.branch a.1 (text a.1) := by
  induction outlined with
  | nil => rfl
  | cons a outlined ih =>
      rw [branches_cons, Branch.preorderAll_eq, List.flatMap_append, ← Branch.preorderAll_eq,
        ← Branch.preorderAll_eq, ih, Outline.Entry.preorderAll_branches, listing_cons,
        List.map_append, List.map_map]
      rfl

theorem sizeAll_branches (text : Nat → Option String) (outlined : List (Job × Outcome)) :
    sizeAll (branches text outlined) = (listing outlined).length := by
  rw [sizeAll, preorderAll_branches, List.length_map]

theorem length_listing (outlined : List (Job × Outcome)) : (listing outlined).length =
    total (fun a => Outline.Entry.countAll (entries a.2)) outlined := by
  induction outlined with
  | nil => rfl
  | cons a outlined ih =>
      rw [listing_cons, List.length_append, List.length_map, Outline.Entry.length_preorderAll,
        total_cons, ih]

/-! ## Entering outlines -/

/-- A tree after the entries of some files were added to it, one file after another: what was
added for a file follows on what was added for the files before. -/
structure Entered (text : Nat → Option String) (t t' : Tree) (outlined : List (Job × Outcome)) :
    Prop where
  size_eq : t'.size = t.size + sizeAll (branches text outlined)
  origin? : ∀ i < t.size, t'.origin? i = t.origin? i
  parts_eq : ∀ i < t.size, i ∉ outlined.map (·.1.file) → t'.parts i = t.parts i
  parts_file : ∀ before a after, outlined = before ++ a :: after →
    t'.parts a.1.file = t.parts a.1.file ++ starts (t.size + sizeAll (branches text before))
      (Outline.Entry.branches a.1.file (text a.1.file) (entries a.2))
  bears : t'.BearsAll t.size (branches text outlined)

namespace Entered

theorem nil (text : Nat → Option String) (t : Tree) : Entered text t t [] where
  size_eq := rfl
  origin? _ _ := rfl
  parts_eq _ _ _ := rfl
  parts_file before a after h := absurd h.symm (by simp)
  bears := trivial

theorem cons (h₁ : Tree.Grafted t t₁ (some a.1.file)
      (Outline.Entry.branches a.1.file (text a.1.file) (entries a.2)))
    (h : Entered text t₁ t' outlined)
    (hfiles : ((a :: outlined).map (·.1.file)).Nodup)
    (hlt : ∀ b ∈ a :: outlined, b.1.file < t.size) : Entered text t t' (a :: outlined) where
  size_eq := by
    rw [h.size_eq, h₁.size_eq, branches_cons, Branch.sizeAll_append, Nat.add_assoc]
  origin? i hi := (h.origin? i (h₁.lt_size hi)).trans (h₁.origin? i hi)
  parts_eq i hi hnone := by
    rw [List.map_cons, List.mem_cons, not_or] at hnone
    rw [h.parts_eq i (h₁.lt_size hi) hnone.2, h₁.parts_eq i hi,
      if_neg fun heq => hnone.1 (Option.some.inj heq).symm]
  parts_file before b after heq := by
    have hnew : a.1.file ∉ outlined.map (·.1.file) := (List.nodup_cons.mp hfiles).1
    have hb : b.1.file < t.size := hlt b (heq ▸ List.mem_append_right _ List.mem_cons_self)
    cases before with
    | nil =>
        obtain ⟨rfl, rfl⟩ := List.cons.inj heq
        rw [h.parts_eq _ (h₁.lt_size hb) hnew, h₁.parts_eq _ hb, if_pos rfl]
        rfl
    | cons c before =>
        obtain ⟨rfl, rfl⟩ := List.cons.inj heq
        have hne : some a.1.file ≠ some b.1.file := fun hsame => hnew (by
          rw [Option.some.inj hsame]
          exact List.mem_map_of_mem (List.mem_append_right _ List.mem_cons_self))
        rw [h.parts_file before b after rfl, h₁.parts_eq _ hb, if_neg hne, h₁.size_eq,
          branches_cons, Branch.sizeAll_append, Nat.add_assoc]
  bears := by
    rw [branches_cons]
    refine Tree.bearsAll_append_iff.mpr ⟨h₁.bears.congr fun j hj hj' => ?_, h₁.size_eq ▸ h.bears⟩
    have hlt' : j < t₁.size := h₁.size_eq ▸ hj'
    -- the files are older than what was added below them
    have hnone : j ∉ outlined.map (·.1.file) := fun hmem => by
      obtain ⟨b, hb, rfl⟩ := List.mem_map.mp hmem
      exact Nat.not_lt.mpr hj (hlt b (List.mem_cons_of_mem a hb))
    exact ⟨Tree.label?_congr (h.origin? j hlt'), h.parts_eq j hlt' hnone⟩

end Entered

/-- Outlines of different files are entered one after another. -/
theorem entered_enter (hfiles : (outlined.map (·.1.file)).Nodup)
    (hlt : ∀ a ∈ outlined, a.1.file < t.size)
    (htext : ∀ a ∈ outlined, (t.get? a.1.file).bind Artifact.code = text a.1.file) :
    Entered text t (enter t outlined) outlined := by
  induction outlined generalizing t with
  | nil => exact .nil text t
  | cons a outlined ih =>
      have hfile := hlt a List.mem_cons_self
      have h₁ := Tree.grafted_addSymbols (entries a.2) hfile (htext a List.mem_cons_self)
      refine .cons h₁ (ih (List.nodup_cons.mp hfiles).2 ?_ ?_) hfiles hlt
      · exact fun b hb => h₁.lt_size (hlt b (List.mem_cons_of_mem a hb))
      · intro b hb
        rw [Tree.code_congr (h₁.origin? _ (hlt b (List.mem_cons_of_mem a hb)))]
        exact htext b (List.mem_cons_of_mem a hb)

/-! ## Extracted trees -/

/-- What an extraction makes of the tree of a folder, and what it reports, when the files had
these outcomes. -/
structure Extracted (folder : Folder) (outlined : List (Job × Outcome)) (t : Tree)
    (report : Report) : Prop where
  /-- Every file was asked about once, in the order of their numbers. -/
  files : outlined.map (·.1.file) = (List.range (Tree.ofFolder folder).size).filter
    (Tree.ofFolder folder).isFile
  uris : ∀ a ∈ outlined, Resolve.uriOf? (Tree.ofFolder folder) a.1.file = some a.1.uri
  /-- Files were refused at most, and none of them ended the extraction. -/
  harmless : ∀ a ∈ outlined, Harmless a.2
  /-- The outline of a file can be read back; a file that was refused has an empty one. -/
  outlines : ∀ a ∈ outlined,
    t.outline? a.1.file = some ((entries a.2).map Outline.Entry.plain)
  size_eq : t.size = (Tree.ofFolder folder).size + (listing outlined).length
  /-- The symbols follow on the folders and files, in the order of the listing. -/
  symbols : ∀ k file e, (listing outlined)[k]? = some (file, e) →
    t.readBack? ((Tree.ofFolder folder).size + k) = some e.plain ∧
      t.facts? ((Tree.ofFolder folder).size + k) = some ⟨e.kind, e.range, e.selection, file⟩
  origin? : ∀ i < (Tree.ofFolder folder).size, t.origin? i = (Tree.ofFolder folder).origin? i
  parts_eq : ∀ i < (Tree.ofFolder folder).size, t.isFile i = false →
    t.parts i = (Tree.ofFolder folder).parts i
  links_eq : ∀ i, t.links i = .empty
  report_eq : report =
    ⟨folder.fileCount, t.stats.symbols, outlined.countP fun a => !a.2.isOk⟩
  added : t.stats.symbols = (listing outlined).length

/-- Behind the folders and files there are the symbols. -/
theorem stats_symbols_eq (ht : t.WellFormed) {n : Nat}
    (hsize : t.size = (Tree.ofFolder folder).size + n)
    (horigin : ∀ i < (Tree.ofFolder folder).size,
      t.origin? i = (Tree.ofFolder folder).origin? i)
    (hsymbols : ∀ k < n, t.isSymbol ((Tree.ofFolder folder).size + k) = true) :
    t.stats.symbols = n := by
  have hperm : t.symbolIds.Perm (List.range' (Tree.ofFolder folder).size n) := by
    refine (List.perm_ext_iff_of_nodup ht.nodup_symbolIds List.nodup_range').mpr fun i => ?_
    rw [ht.mem_symbolIds, List.mem_range'_1]
    constructor
    · intro hi
      refine ⟨?_, hsize ▸ Tree.lt_size_of_isSymbol hi⟩
      by_contra hlt
      rw [Tree.isSymbol_congr (horigin i (Nat.not_le.mp hlt)), Tree.isSymbol_ofFolder] at hi
      cases hi
    · rintro ⟨hle, hlt⟩
      have hk := hsymbols (i - (Tree.ofFolder folder).size) (by omega)
      rwa [Nat.add_sub_cancel' hle] at hk
  rw [← ht.length_symbolIds, hperm.length_eq, List.length_range']

section Loaded

variable (hjobs : outlined.map (·.1) = jobs (Tree.ofFolder folder))

include hjobs

theorem mem_jobs_of_mem (ha : a ∈ outlined) : a.1 ∈ jobs (Tree.ofFolder folder) :=
  hjobs ▸ List.mem_map_of_mem ha

theorem map_file_eq : outlined.map (·.1.file) = (Tree.ofFolder folder).fileIds := by
  rw [← map_file_jobs, ← hjobs, List.map_map]
  rfl

theorem isFile_of_mem (ha : a ∈ outlined) : (Tree.ofFolder folder).isFile a.1.file = true := by
  have hid : a.1.file ∈ (Tree.ofFolder folder).fileIds := map_file_eq hjobs ▸ List.mem_map_of_mem ha
  exact (List.mem_filter.mp hid).2

/-- The files of a folder are different, so their outlines are entered one after another. -/
theorem entered_ofFolder : Entered (fun i => ((Tree.ofFolder folder).get? i).bind Artifact.code)
    (Tree.ofFolder folder) (enter (Tree.ofFolder folder) outlined) outlined := by
  refine entered_enter ?_ (fun a ha => lt_size_of_mem_jobs (mem_jobs_of_mem hjobs ha))
    fun _ _ => rfl
  rw [map_file_eq hjobs, Tree.fileIds_ofFolder]
  exact List.nodup_range.filter _

theorem outlined_enter : Outlined folder (enter (Tree.ofFolder folder) outlined) :=
  (Outlined.loaded folder).enter fun _ ha => mem_jobs_of_mem hjobs ha

theorem size_enter : (enter (Tree.ofFolder folder) outlined).size =
    (Tree.ofFolder folder).size + (listing outlined).length := by
  rw [(entered_ofFolder hjobs).size_eq, sizeAll_branches]

/-- What is entered becomes part of files only. -/
theorem parts_enter {i : Nat} (hi : i < (Tree.ofFolder folder).size)
    (hfile : (enter (Tree.ofFolder folder) outlined).isFile i = false) :
    (enter (Tree.ofFolder folder) outlined).parts i = (Tree.ofFolder folder).parts i := by
  have h := entered_ofFolder hjobs
  refine h.parts_eq i hi fun hmem => ?_
  obtain ⟨a, ha, rfl⟩ := List.mem_map.mp hmem
  rw [Tree.isFile_congr (h.origin? _ hi), isFile_of_mem hjobs ha] at hfile
  cases hfile

/-- The entries of the listing are borne in their order. -/
theorem bears_of_getElem?_listing {k file : Nat} {e : Outline.Entry}
    (hk : (listing outlined)[k]? = some (file, e)) :
    (enter (Tree.ofFolder folder) outlined).Bears ((Tree.ofFolder folder).size + k)
      (e.branch file (((Tree.ofFolder folder).get? file).bind Artifact.code)) := by
  refine (entered_ofFolder hjobs).bears.preorder ?_
  rw [preorderAll_branches, List.getElem?_map, hk]
  rfl

/-- Below a file there is what was told for it. -/
theorem exists_parts_enter (ha : a ∈ outlined) : ∃ n,
    (enter (Tree.ofFolder folder) outlined).parts a.1.file = starts n
        (Outline.Entry.branches a.1.file (((Tree.ofFolder folder).get? a.1.file).bind Artifact.code)
          (entries a.2)) ∧
      (enter (Tree.ofFolder folder) outlined).BearsAll n
        (Outline.Entry.branches a.1.file (((Tree.ofFolder folder).get? a.1.file).bind Artifact.code)
          (entries a.2)) := by
  have h := entered_ofFolder hjobs
  have hnone := Tree.parts_ofFolder_of_isFile (isFile_of_mem hjobs ha)
  obtain ⟨before, after, heq⟩ := List.append_of_mem ha
  have hbears := h.bears
  rw [heq, branches_append, branches_cons, ← heq] at hbears
  have hfile := (Tree.bearsAll_append_iff.mp (Tree.bearsAll_append_iff.mp hbears).2).1
  refine ⟨_, ?_, hfile⟩
  rw [h.parts_file before a after heq, hnone, List.nil_append]

/-- The parts of a file are what was told for it. -/
theorem outline?_enter (ha : a ∈ outlined) :
    (enter (Tree.ofFolder folder) outlined).outline? a.1.file =
      some ((entries a.2).map Outline.Entry.plain) := by
  obtain ⟨n, hparts, hbears⟩ := exists_parts_enter hjobs ha
  rw [Tree.outline?, hparts, hbears.mapM_readBack?_starts (outlined_enter hjobs).wellFormed,
    Outline.Entry.plainAll_eq]

theorem stats_symbols_enter : (enter (Tree.ofFolder folder) outlined).stats.symbols =
    (listing outlined).length := by
  refine stats_symbols_eq (outlined_enter hjobs).wellFormed (size_enter hjobs)
    (entered_ofFolder hjobs).origin? fun k hk => ?_
  rw [Tree.isSymbol, (bears_of_getElem?_listing hjobs (List.getElem?_eq_getElem hk)).facts?_eq]
  rfl

/-- Taking in what came of all files extracts what the server told about them. -/
theorem extracted_enter (hharmless : ∀ a ∈ outlined, Harmless a.2) :
    Extracted folder outlined (enter (Tree.ofFolder folder) outlined)
      (Report.tally ⟨(jobs (Tree.ofFolder folder)).length, 0, 0⟩ outlined) := by
  have h := entered_ofFolder hjobs
  have houtlined := outlined_enter hjobs
  constructor
  case files => rw [map_file_eq hjobs, Tree.fileIds_ofFolder]
  case uris => exact fun a ha => uriOf?_of_mem_jobs (mem_jobs_of_mem hjobs ha)
  case harmless => exact hharmless
  case outlines => exact fun a ha => outline?_enter hjobs ha
  case size_eq => exact size_enter hjobs
  case symbols =>
    intro k file e hk
    have hbears := bears_of_getElem?_listing hjobs hk
    exact ⟨hbears.readBack?_eq houtlined.wellFormed, hbears.facts?_eq⟩
  case origin? => exact h.origin?
  case parts_eq => exact fun i hi hfile => parts_enter hjobs hi hfile
  case links_eq =>
    exact fun i => Links.ext_buckets
      (fun k => (houtlined.links_eq_nil i k).2.trans (Links.incoming_empty k).symm)
      (fun k => (houtlined.links_eq_nil i k).1.trans (Links.outgoing_empty k).symm)
  case report_eq =>
    rw [stats_symbols_enter hjobs, length_listing, ← Tree.length_fileIds_ofFolder,
      ← map_file_jobs, List.length_map, Report.tally, Nat.zero_add, Nat.zero_add]
  case added => exact stats_symbols_enter hjobs

end Loaded

end Extract

end SourceAtlas
