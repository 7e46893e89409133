import Mathlib.Data.List.TakeWhile
import SourceAtlas.Path
/-!
# Steps of a path

A path is looked up by its steps. The steps of a path that is written from the root,
name after name, are those names: `components_pathOf`, in the module on disks. Whatever else a path is, its
steps hold no character that the path does not have (`mem_of_entry_mem_components`) and
every one but separators and dots, and only an absolute one starts at the root.
-/

namespace SourceAtlas

namespace Path

theorem isAbsolute_iff {p : Path} : p.isAbsolute = true ↔ ∃ cs, p.text.toList = '/' :: cs := by
  rw [isAbsolute]
  constructor
  · intro h
    split at h
    · next cs hcs => exact ⟨cs, hcs⟩
    · exact absurd h Bool.false_ne_true
  · rintro ⟨cs, hcs⟩
    simp only [hcs]

/-! ## Pieces -/

theorem exists_pieces_eq_cons (cs : List Char) : ∃ p ps, pieces cs = p :: ps := by
  fun_induction pieces cs with
  | case1 => exact ⟨[], [], rfl⟩
  | case2 cs ih => exact ⟨[], pieces cs, rfl⟩
  | case3 c cs hc hnone ih => exact ⟨[c], [], rfl⟩
  | case4 c cs hc p ps hps ih => exact ⟨c :: p, ps, rfl⟩

theorem pieces_cons {c : Char} (hc : c ≠ '/') {cs p : List Char} {ps : List (List Char)}
    (h : pieces cs = p :: ps) : pieces (c :: cs) = (c :: p) :: ps := by
  rw [pieces, h]
  exact hc

theorem pieces_of_not_mem {cs : List Char} (h : '/' ∉ cs) : pieces cs = [cs] := by
  induction cs with
  | nil => rfl
  | cons c cs ih =>
      rw [List.mem_cons, not_or] at h
      exact pieces_cons (Ne.symm h.1) (ih h.2)

theorem pieces_append_separator {cs : List Char} (h : '/' ∉ cs) (rest : List Char) :
    pieces (cs ++ '/' :: rest) = cs :: pieces rest := by
  induction cs with
  | nil => exact pieces_separator rest
  | cons c cs ih =>
      rw [List.mem_cons, not_or] at h
      exact pieces_cons (Ne.symm h.1) (ih h.2)

theorem pieces_intercalate {names : List (List Char)} (hne : names ≠ [])
    (h : ∀ name ∈ names, '/' ∉ name) : pieces (['/'].intercalate names) = names := by
  induction names with
  | nil => exact absurd rfl hne
  | cons name names ih =>
      have hname : '/' ∉ name := h name List.mem_cons_self
      cases names with
      | nil => rw [List.intercalate_singleton, pieces_of_not_mem hname]
      | cons next names =>
          rw [List.intercalate_cons_cons, List.append_assoc, List.singleton_append,
            pieces_append_separator hname,
            ih (List.cons_ne_nil _ _) fun n hn => h n (List.mem_cons_of_mem _ hn)]

theorem mem_of_mem_pieces {cs p : List Char} (hp : p ∈ pieces cs) {c : Char} (hc : c ∈ p) :
    c ∈ cs := by
  fun_induction pieces cs generalizing p with
  | case1 =>
      rw [List.mem_singleton.mp hp] at hc
      exact hc
  | case2 cs ih =>
      rcases List.mem_cons.mp hp with rfl | hp
      · exact absurd hc List.not_mem_nil
      · exact List.mem_cons_of_mem _ (ih hp hc)
  | case3 d cs hd hnone ih =>
      rw [List.mem_singleton.mp hp] at hc
      exact List.mem_cons.mpr (.inl (List.mem_singleton.mp hc))
  | case4 d cs hd q qs hqs ih =>
      rcases List.mem_cons.mp hp with rfl | hp
      · rcases List.mem_cons.mp hc with rfl | hc
        · exact List.mem_cons_self
        · exact List.mem_cons_of_mem _ (ih (hqs ▸ List.mem_cons_self) hc)
      · exact List.mem_cons_of_mem _ (ih (hqs ▸ List.mem_cons_of_mem _ hp) hc)

theorem exists_mem_pieces_of_mem {cs : List Char} {c : Char} (hc : c ∈ cs) (hslash : c ≠ '/') :
    ∃ piece ∈ pieces cs, c ∈ piece := by
  fun_induction pieces cs with
  | case1 => exact absurd hc List.not_mem_nil
  | case2 cs ih =>
      obtain ⟨piece, hpiece, hmem⟩ := ih ((List.mem_cons.mp hc).resolve_left hslash)
      exact ⟨piece, List.mem_cons_of_mem _ hpiece, hmem⟩
  | case3 d cs hd hnone ih =>
      obtain ⟨first, more, hpieces⟩ := exists_pieces_eq_cons cs
      exact absurd (hnone.symm.trans hpieces) nofun
  | case4 d cs hd first more hpieces ih =>
      rcases List.mem_cons.mp hc with rfl | hc
      · exact ⟨c :: first, List.mem_cons_self, List.mem_cons_self⟩
      · obtain ⟨piece, hpiece, hmem⟩ := ih hc
        rcases List.mem_cons.mp (hpieces ▸ hpiece) with rfl | hpiece
        · exact ⟨d :: piece, List.mem_cons_self, List.mem_cons_of_mem _ hmem⟩
        · exact ⟨piece, List.mem_cons_of_mem _ hpiece, hmem⟩

/-! ## Names -/

/-- What an entry of a folder may be called: anything but nothing, the two dot names and
what has a separator in it. -/
def IsName (name : String) : Prop :=
  name ≠ "" ∧ name ≠ "." ∧ name ≠ ".." ∧ '/' ∉ name.toList

instance (name : String) : Decidable (IsName name) :=
  inferInstanceAs (Decidable (_ ∧ _ ∧ _ ∧ _))

theorem IsName.step? {name : String} (h : IsName name) :
    step? name.toList = some (.entry name) := by
  obtain ⟨hempty, hdot, hdots, -⟩ := h
  have hne {other : String} (hother : name ≠ other) : name.toList ≠ other.toList :=
    fun heq => hother (String.toList_injective heq)
  rw [Path.step?, String.ofList_toList]
  · exact hne hempty
  · exact hne hdot
  · exact hne hdots

theorem IsName.isAbsolute_eq_false {name : String} (h : IsName name) :
    (⟨name⟩ : Path).isAbsolute = false := by
  rw [Bool.eq_false_iff]
  intro habs
  obtain ⟨cs, hcs⟩ := isAbsolute_iff.mp habs
  exact h.2.2.2 (hcs ▸ List.mem_cons_self)

/-! ## Steps -/

theorem exists_eq_of_step?_eq_entry {piece : List Char} {name : String}
    (h : step? piece = some (.entry name)) : name.toList = piece := by
  unfold step? at h
  split at h
  · cases h
  · cases h
  · cases h
  · cases h
    exact String.toList_ofList

/-- What a step of a path is called is part of the path. -/
theorem mem_of_entry_mem_components {p : Path} {name : String}
    (h : .entry name ∈ p.components) {c : Char} (hc : c ∈ name.toList) : c ∈ p.text.toList := by
  suffices ∃ piece ∈ pieces p.text.toList, step? piece = some (.entry name) by
    obtain ⟨piece, hpiece, hstep⟩ := this
    exact mem_of_mem_pieces hpiece (exists_eq_of_step?_eq_entry hstep ▸ hc)
  obtain ⟨first, rest, hpieces⟩ := exists_pieces_eq_cons p.text.toList
  have hinner (hmem : .entry name ∈ rest.filterMap step?) :
      ∃ piece ∈ first :: rest, step? piece = some (.entry name) := by
    obtain ⟨piece, hpiece, hstep⟩ := List.mem_filterMap.mp hmem
    exact ⟨piece, List.mem_cons_of_mem _ hpiece, hstep⟩
  simp only [components, hpieces] at h ⊢
  split at h
  · split at h
    · exact hinner ((List.mem_cons.mp h).resolve_left nofun)
    · exact hinner h
  · exact hinner ((List.mem_cons.mp h).resolve_left nofun)
  · rcases List.mem_append.mp h with h | h
    · exact ⟨first, List.mem_cons_self, Option.mem_toList.mp h⟩
    · exact hinner h

theorem step?_of_mem {piece : List Char} {c : Char} (hc : c ∈ piece) (hdot : c ≠ '.') :
    step? piece = some (.entry (String.ofList piece)) := by
  unfold step?
  split
  · exact absurd hc List.not_mem_nil
  · exact absurd (List.mem_singleton.mp hc) hdot
  · simp only [List.mem_cons, List.not_mem_nil, or_false, or_self] at hc
    exact absurd hc hdot
  · rfl

/-- Conversely, what is part of a path and neither separator nor dot is part of what one of its
steps is called. -/
theorem exists_entry_mem_components {p : Path} {c : Char} (hc : c ∈ p.text.toList)
    (hslash : c ≠ '/') (hdot : c ≠ '.') :
    ∃ name, .entry name ∈ p.components ∧ c ∈ name.toList := by
  obtain ⟨piece, hpiece, hmem⟩ := exists_mem_pieces_of_mem hc hslash
  have hstep := step?_of_mem hmem hdot
  refine ⟨String.ofList piece, ?_, by rwa [String.toList_ofList]⟩
  obtain ⟨first, rest, hpieces⟩ := exists_pieces_eq_cons p.text.toList
  rw [hpieces] at hpiece
  simp only [components, hpieces]
  rcases List.mem_cons.mp hpiece with rfl | hpiece
  · split
    · exact absurd hmem List.not_mem_nil
    · exact absurd (List.mem_singleton.mp hmem) hdot
    · rw [hstep]
      exact List.mem_cons_self
  · have hinner : .entry (String.ofList piece) ∈ rest.filterMap step? :=
      List.mem_filterMap.mpr ⟨piece, hpiece, hstep⟩
    split
    · split
      · exact List.mem_cons_of_mem _ hinner
      · exact hinner
    · exact List.mem_cons_of_mem _ hinner
    · exact List.mem_append_right _ hinner

theorem root_mem_components {p : Path} (h : p.isAbsolute = true) : .root ∈ p.components := by
  obtain ⟨cs, hcs⟩ := isAbsolute_iff.mp h
  simp only [components, hcs, pieces_separator, if_pos h]
  exact List.mem_cons_self

theorem isAbsolute_of_root_mem_components {p : Path} (h : .root ∈ p.components) :
    p.isAbsolute = true := by
  have hstep (piece : List Char) : step? piece ≠ some .root := by
    unfold step?
    split <;> exact nofun
  obtain ⟨first, rest, hpieces⟩ := exists_pieces_eq_cons p.text.toList
  have hinner : .root ∉ rest.filterMap step? := fun hmem => by
    obtain ⟨piece, -, hroot⟩ := List.mem_filterMap.mp hmem
    exact hstep piece hroot
  simp only [components, hpieces] at h
  split at h
  · split at h
    · assumption
    · exact absurd h hinner
  · exact absurd ((List.mem_cons.mp h).resolve_left nofun) hinner
  · rcases List.mem_append.mp h with h | h
    · exact absurd (Option.mem_toList.mp h) (hstep first)
    · exact absurd h hinner

/-! ## Extensions -/

/-- The extension is what follows the last dot, where something stands before that dot. -/
theorem extensionOf?_eq_some_iff {name e : String} :
    extensionOf? name = some e ↔
      ∃ stem : String, stem ≠ "" ∧ '.' ∉ e.toList ∧ name = stem ++ "." ++ e := by
  constructor
  · intro h
    have hsplit := List.takeWhile_append_dropWhile (p := (· ≠ '.')) (l := name.toList.reverse)
    have hhead := List.head?_dropWhile_not (· ≠ '.') name.toList.reverse
    have htail : ∀ c ∈ name.toList.reverse.takeWhile (· ≠ '.'), c ≠ '.' := fun c hc =>
      of_decide_eq_true (List.mem_takeWhile_imp (p := fun d => decide (d ≠ '.')) hc)
    simp only [extensionOf?] at h
    generalize name.toList.reverse.takeWhile (· ≠ '.') = tail at h hsplit htail
    split at h
    · next d c cs hdrop =>
        cases h
        rw [hdrop] at hsplit hhead
        obtain rfl : d = '.' := by simpa using hhead
        have hname : name.toList = (c :: cs).reverse ++ '.' :: tail.reverse := by
          rw [← List.reverse_reverse name.toList, ← hsplit]
          simp
        refine ⟨String.ofList (c :: cs).reverse, by simp, ?_, ?_⟩
        · rw [String.toList_ofList, List.mem_reverse]
          exact fun hmem => htail _ hmem rfl
        · apply String.toList_injective
          rw [hname]
          simp
    · cases h
  · rintro ⟨stem, hstem, hdot, rfl⟩
    have hchars : ∀ c ∈ e.toList.reverse, decide (c ≠ '.') = true := fun c hc =>
      decide_eq_true fun heq => hdot (heq ▸ List.mem_reverse.mp hc)
    obtain ⟨c, cs, hcs⟩ := List.exists_cons_of_ne_nil (l := stem.toList.reverse) (by simpa using hstem)
    have hreverse : (stem ++ "." ++ e).toList.reverse = e.toList.reverse ++ '.' :: c :: cs := by
      rw [String.toList_append, String.toList_append, List.reverse_append, List.reverse_append, hcs]
      rfl
    simp only [extensionOf?, hreverse, List.dropWhile_append_of_pos hchars,
      List.takeWhile_append_of_pos hchars]
    simp

end Path

end SourceAtlas
