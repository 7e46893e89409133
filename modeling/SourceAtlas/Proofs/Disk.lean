import SourceAtlas.Disk.Basic
import SourceAtlas.Proofs.Ascending
import SourceAtlas.Proofs.Path
/-!
# Names on a disk

On a proper disk the entries of every folder have names of their own that a path can
spell (`Node.isProper`). Each place of such a disk has one path, and the steps of that
path are the names that lead there: `components_pathOf`, `pathOf_injOn`.
-/

namespace SourceAtlas

namespace Disk

namespace Node

mutual

/-- Whether the names in a folder are names, each of them there once, and so in every
folder below. -/
def isProper : Node → Bool
  | .folder entries => areProper entries
  | _ => true

def areProper : List (String × Node) → Bool
  | [] => true
  | (name, n) :: rest =>
      decide (Path.IsName name) && decide (name ∉ rest.map Prod.fst) && n.isProper &&
        areProper rest

end

theorem areProper_cons_iff {name : String} {n : Node} {rest : List (String × Node)} :
    areProper ((name, n) :: rest) = true ↔
      Path.IsName name ∧ name ∉ rest.map Prod.fst ∧ n.isProper = true ∧ areProper rest = true := by
  simp only [areProper, Bool.and_eq_true, decide_eq_true_eq, and_assoc]

theorem areProper_iff {entries : List (String × Node)} :
    areProper entries = true ↔
      (∀ entry ∈ entries, Path.IsName entry.1 ∧ entry.2.isProper = true) ∧
        (entries.map Prod.fst).Nodup := by
  induction entries with
  | nil => exact ⟨fun _ => ⟨nofun, List.nodup_nil⟩, fun _ => rfl⟩
  | cons entry rest ih =>
      rw [areProper_cons_iff, ih, List.forall_mem_cons, List.map_cons, List.nodup_cons]
      tauto

/-- Names lead from a proper entry to proper entries, and each of them is a name. -/
theorem isProper_of_at?_eq_some {n entry : Node} (hn : n.isProper = true) {names : List String}
    (h : n.at? names = some entry) :
    entry.isProper = true ∧ ∀ name ∈ names, Path.IsName name := by
  induction names generalizing n with
  | nil =>
      cases h
      exact ⟨hn, nofun⟩
  | cons name names ih =>
      obtain ⟨next, hlookup, hnext⟩ := Option.bind_eq_some_iff.mp (at?_cons n name names ▸ h)
      cases n with
      | folder entries =>
          obtain ⟨hname, hproper⟩ := (areProper_iff.mp hn).1 _ (mem_of_lookup_eq_some hlookup)
          obtain ⟨hentry, hnames⟩ := ih hproper hnext
          exact ⟨hentry, List.forall_mem_cons.mpr ⟨hname, hnames⟩⟩
      | file => cases hlookup
      | link => cases hlookup

end Node

/-! ## Paths of places -/

theorem toList_text_pathOf (place : List String) :
    (pathOf place).text.toList = '/' :: ['/'].intercalate (place.map String.toList) := by
  rw [pathOf, String.toList_append, String.toList_intercalate]
  rfl

theorem isAbsolute_pathOf (place : List String) : (pathOf place).isAbsolute = true :=
  Path.isAbsolute_iff.mpr ⟨_, toList_text_pathOf place⟩

theorem mem_intercalate {sep : List Char} {names : List (List Char)} {c : Char}
    (hc : c ∈ sep.intercalate names) : c ∈ sep ∨ ∃ name ∈ names, c ∈ name := by
  induction names with
  | nil => cases hc
  | cons name names ih =>
      cases names with
      | nil =>
          rw [List.intercalate_singleton] at hc
          exact .inr ⟨name, List.mem_cons_self, hc⟩
      | cons next names =>
          rw [List.intercalate_cons_cons, List.mem_append, List.mem_append] at hc
          rcases hc with (hc | hc) | hc
          · exact .inr ⟨name, List.mem_cons_self, hc⟩
          · exact .inl hc
          · exact (ih hc).imp_right fun ⟨other, hother, h⟩ =>
              ⟨other, List.mem_cons_of_mem _ hother, h⟩

/-- There is nothing but separators and names in the path of a place. -/
theorem mem_text_pathOf {place : List String} {c : Char} (hc : c ∈ (pathOf place).text.toList) :
    c = '/' ∨ ∃ name ∈ place, c ∈ name.toList := by
  rw [toList_text_pathOf, List.mem_cons] at hc
  rcases hc with hc | hc
  · exact .inl hc
  · refine (mem_intercalate hc).imp List.mem_singleton.mp ?_
    rintro ⟨chars, hchars, hmem⟩
    obtain ⟨name, hname, rfl⟩ := List.mem_map.mp hchars
    exact ⟨name, hname, hmem⟩

/-- The steps of the path of a place are the names that lead there. -/
theorem components_pathOf {place : List String} (h : ∀ name ∈ place, Path.IsName name) :
    (pathOf place).components = .root :: place.map .entry := by
  have hinner : (Path.pieces (['/'].intercalate (place.map String.toList))).filterMap Path.step? =
      place.map .entry := by
    cases place with
    | nil => rfl
    | cons name names =>
        rw [Path.pieces_intercalate (by simp) (by simpa using fun n hn => (h n hn).2.2.2),
          List.filterMap_map, ← List.filterMap_eq_map]
        exact List.filterMap_congr fun n hn => (h n hn).step?
  simp only [Path.components, toList_text_pathOf, Path.pieces_separator, isAbsolute_pathOf, hinner,
    if_true]

/-- No two places have one path. -/
theorem pathOf_injOn {place place' : List String} (h : ∀ name ∈ place, Path.IsName name)
    (h' : ∀ name ∈ place', Path.IsName name) (heq : pathOf place = pathOf place') :
    place = place' := by
  have hsteps := congrArg Path.components heq
  rw [components_pathOf h, components_pathOf h'] at hsteps
  exact List.map_injective_iff.mpr (fun _ _ => Path.Component.entry.inj) (List.cons.inj hsteps).2

theorem text_pathOf_singleton (name : String) : (pathOf [name]).text = "/" ++ name := by
  rw [pathOf, String.intercalate_singleton]

theorem text_pathOf_concat {place : List String} (hne : place ≠ []) (name : String) :
    (pathOf (place ++ [name])).text = (pathOf place).text ++ "/" ++ name := by
  rw [pathOf, pathOf, String.intercalate_append_of_ne_nil hne (List.cons_ne_nil _ _),
    String.intercalate_singleton, ← String.append_assoc, ← String.append_assoc]

/-- The path of a place ends with a separator at the root only. -/
theorem getLast?_text_pathOf {place : List String} (hne : place ≠ [])
    (h : ∀ name ∈ place, Path.IsName name) : (pathOf place).text.toList.getLast? ≠ some '/' := by
  obtain ⟨init, name, rfl⟩ := List.eq_nil_or_concat' place |>.resolve_left hne
  have hname : Path.IsName name := h name (List.mem_append_right _ List.mem_cons_self)
  have hends : ∃ before : List Char, (pathOf (init ++ [name])).text.toList = before ++ name.toList := by
    cases init with
    | nil => exact ⟨"/".toList, by rw [List.nil_append, text_pathOf_singleton, String.toList_append]⟩
    | cons first rest =>
        exact ⟨_, by rw [text_pathOf_concat (List.cons_ne_nil _ _), String.toList_append]⟩
  obtain ⟨before, hbefore⟩ := hends
  have hchars : name.toList ≠ [] := fun hnil => hname.1 (String.toList_eq_nil_iff.mp hnil)
  rw [hbefore, List.getLast?_append_of_ne_nil _ hchars]
  exact fun hlast => hname.2.2.2 (List.mem_of_getLast? hlast)

/-- A name followed from a place leads to the entry of that name. -/
theorem join_pathOf {place : List String} (h : ∀ name ∈ place, Path.IsName name) {name : String}
    (hname : Path.IsName name) : (pathOf place).join ⟨name⟩ = pathOf (place ++ [name]) := by
  have hnonempty : (pathOf place).text.isEmpty = false := by
    rw [pathOf]
    simp
  rw [Path.join, hname.isAbsolute_eq_false, hnonempty, if_neg Bool.false_ne_true,
    if_neg Bool.false_ne_true]
  cases place with
  | nil => rfl
  | cons first rest =>
      rw [if_neg (getLast?_text_pathOf (List.cons_ne_nil _ _) h),
        ← text_pathOf_concat (List.cons_ne_nil _ _)]

/-- A dot leads to the current folder. -/
theorem resolve_dot {d : Disk} {entries : List (String × Node)}
    (h : d.node? d.current = some (.folder entries)) : d.resolve ⟨"."⟩ = .ok d.current := by
  have hpieces : Path.pieces ".".toList = [['.']] := by decide
  have hstep : Path.step? ['.'] = none := rfl
  rw [resolve, if_neg (by decide), if_neg (by decide), if_neg (by decide), hpieces, follow, h]
  simp only [hstep, follow]

end Disk

end SourceAtlas
