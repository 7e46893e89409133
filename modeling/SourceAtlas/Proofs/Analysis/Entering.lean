import SourceAtlas.Analysis.Extract
import SourceAtlas.Proofs.Tree.Dependencies
import SourceAtlas.Total
/-!
# What outlines enter

While outlines are taken in, nothing but symbols is added to a tree (`Outlined`). A file
that the server refused enters as much as one with an empty outline (`enter_congr`), and
it counts for nothing but the failed files of the report (`absorb_eq`).
-/

namespace SourceAtlas

/-- An outcome that does not end the run. -/
def Harmless {α : Type} (o : Except CallError α) : Prop :=
  ∀ e, o = .error e → e.isFatal = false

namespace Extract

variable {folder : Folder} {t : Tree}

/-! ## The trees of an extraction -/

/-- A tree of a folder to which nothing but symbols was added. -/
def Outlined (folder : Folder) (t : Tree) : Prop :=
  ∃ cs, Tree.History folder cs t ∧ ∀ c ∈ cs, c.isAddition = true

namespace Outlined

theorem loaded (folder : Folder) : Outlined folder (Tree.ofFolder folder) :=
  ⟨[], .loaded, nofun⟩

theorem size_le (h : Outlined folder t) : (Tree.ofFolder folder).size ≤ t.size := by
  obtain ⟨cs, hcs, -⟩ := h
  induction hcs with
  | loaded => exact Nat.le_refl _
  | change c _ hc ih => exact Nat.le_trans ih (Tree.extends_apply hc).size_le

theorem addSymbols (h : Outlined folder t) {scope : Nat} (hs : scope < t.size) (file : Nat)
    (entries : List Outline.Entry) : Outlined folder (t.addSymbols scope file entries) := by
  induction entries generalizing t with
  | nil => exact h
  | cons e es ih =>
      obtain ⟨cs, hcs, hadd⟩ := h
      have hsize : t.size ≤ (t.addSymbol scope file e).size :=
        (Tree.extends_apply (c := .addSymbol scope file e) hs).size_le
      refine ih ⟨cs ++ [.addSymbol scope file e], hcs.change (.addSymbol scope file e) hs, ?_⟩
        (Nat.lt_of_lt_of_le hs hsize)
      intro c hc
      rcases List.mem_append.mp hc with hc | hc
      · exact hadd c hc
      · rw [List.mem_singleton.mp hc]
        rfl

theorem wellFormed (h : Outlined folder t) : t.WellFormed := by
  obtain ⟨cs, hcs, -⟩ := h
  exact hcs.wellFormed

/-- Nothing depends on anything before dependencies are recorded. -/
theorem links_eq_nil (h : Outlined folder t) (i : Nat) (k : EdgeClass) :
    (t.links i).outgoing k = [] ∧ (t.links i).incoming k = [] := by
  obtain ⟨cs, hcs, hadd⟩ := h
  have unrequested {r d : Nat} : ¬ Tree.Requested cs t r d k :=
    fun hrequested => Bool.false_ne_true (hadd _ hrequested.1)
  exact ⟨List.eq_nil_iff_forall_not_mem.mpr fun d hd =>
      unrequested ((hcs.records.mem_outgoing i d k).mp hd),
    List.eq_nil_iff_forall_not_mem.mpr fun r hr =>
      unrequested ((hcs.records.mem_incoming r i k).mp hr)⟩

end Outlined

theorem lt_size_of_mem_jobs {job : Job} (h : job ∈ jobs t) : job.file < t.size := by
  obtain ⟨id, -, hid⟩ := List.mem_filterMap.mp h
  obtain ⟨a, ha, hjob⟩ := Option.bind_eq_some_iff.mp hid
  have hfile : job.file = id := by
    split at hjob
    · rw [← Option.some.inj hjob]
    · cases hjob
  rw [hfile]
  exact Tree.lt_size_of_get? ha

/-! ## Taking in outcomes -/

abbrev Outcome := Except CallError (List Outline.Entry)

/-- The entries of an outline; none where the server refused the file. -/
def entries : Outcome → List Outline.Entry
  | .ok entries => entries
  | .error _ => []

/-- A tree with the symbols of files that were outlined. -/
def enter (t : Tree) (outlined : List (Job × Outcome)) : Tree :=
  outlined.foldl (fun t a => t.addSymbols a.1.file a.1.file (entries a.2)) t

/-- A report that accounts for more outlined files. -/
def Report.tally (r : Report) (outlined : List (Job × Outcome)) : Report :=
  { r with
    symbols := r.symbols + total (fun a => Outline.Entry.countAll (entries a.2)) outlined
    failedFiles := r.failedFiles + outlined.countP fun a => !a.2.isOk }

theorem enter_append (t : Tree) (outlined more : List (Job × Outcome)) :
    enter t (outlined ++ more) = enter (enter t outlined) more :=
  List.foldl_append

theorem Report.tally_append (r : Report) (outlined more : List (Job × Outcome)) :
    r.tally (outlined ++ more) = (r.tally outlined).tally more := by
  simp [tally, total_append, Nat.add_assoc]

/-- Outcomes enter their entries, and no more than that. -/
theorem enter_congr {outcomes outcomes' : List Outcome}
    (h : outcomes.map entries = outcomes'.map entries) (t : Tree) (jobs : List Job) :
    enter t (jobs.zip outcomes) = enter t (jobs.zip outcomes') := by
  have byEntries (outcomes : List Outcome) : enter t (jobs.zip outcomes) =
      (jobs.zip (outcomes.map entries)).foldl
        (fun t a => t.addSymbols a.1.file a.1.file a.2) t := by
    rw [List.zip_map_right, List.foldl_map]
    rfl
  rw [byEntries, byEntries, h]

theorem Report.symbols_tally_congr {outcomes outcomes' : List Outcome}
    (h : outcomes.map entries = outcomes'.map entries) (r : Report) (jobs : List Job) :
    (r.tally (jobs.zip outcomes)).symbols = (r.tally (jobs.zip outcomes')).symbols := by
  have byEntries (outcomes : List Outcome) : (r.tally (jobs.zip outcomes)).symbols =
      r.symbols +
        total (fun a => Outline.Entry.countAll a.2) (jobs.zip (outcomes.map entries)) := by
    rw [List.zip_map_right, total_map]
    rfl
  rw [byEntries, byEntries, h]

theorem Outlined.enter (h : Outlined folder t) {outlined : List (Job × Outcome)}
    (hjobs : ∀ a ∈ outlined, a.1 ∈ jobs (Tree.ofFolder folder)) :
    Outlined folder (enter t outlined) := by
  induction outlined generalizing t with
  | nil => exact h
  | cons a outlined ih =>
      have hfile := Nat.lt_of_lt_of_le (lt_size_of_mem_jobs (hjobs a List.mem_cons_self)) h.size_le
      exact ih (h.addSymbols hfile a.1.file (entries a.2))
        fun b hb => hjobs b (List.mem_cons_of_mem a hb)

/-- A harmless outcome is taken in, whether there is an outline or not. -/
theorem absorb_eq {o : Outcome} (h : Harmless o) (t : Tree) (report : Report) (job : Job) :
    absorb t report job o = .ok (enter t [(job, o)], report.tally [(job, o)]) := by
  cases o with
  | ok entries => rfl
  | error e =>
      rw [absorb, if_neg (by rw [h e rfl]; nofun)]
      rfl

/-- What is taken in are the outcomes of harmless calls. -/
theorem harmless_of_absorb {o : Outcome} {report : Report} {job : Job} {state : Tree × Report}
    (h : absorb t report job o = .ok state) : Harmless o := by
  rintro e rfl
  rw [absorb] at h
  split at h
  · cases h
  · next hfatal => simpa using hfatal

end Extract

end SourceAtlas
