import Mathlib.Data.List.Nodup
import Mathlib.Data.String.Basic
import SourceAtlas.Ascending
/-!
# Looking up entries

Entries whose names differ are looked up as they are listed (`lookup_eq_some_iff_mem`).
Changing an entry of ascending entries leaves them ascending (`Ascending.alter`), and
leaves every other entry as it was (`lookup_alter_of_ne`). Ascending entries are settled by
what is among them (`IsAscending.eq_of_mem_iff`).
-/

namespace SourceAtlas

theorem mem_of_lookup_eq_some {κ α : Type} [BEq κ] [LawfulBEq κ] {key : κ} {value : α}
    {entries : List (κ × α)} (h : entries.lookup key = some value) : (key, value) ∈ entries := by
  obtain ⟨before, after, rfl, -⟩ := List.lookup_eq_some_iff.mp h
  exact List.mem_append_right _ List.mem_cons_self

theorem lookup_eq_some_of_forall {κ α : Type} [BEq κ] [LawfulBEq κ] {key : κ} {value : α}
    {entries : List (κ × α)} (hmem : (key, value) ∈ entries)
    (hall : ∀ other, (key, other) ∈ entries → other = value) :
    entries.lookup key = some value := by
  cases h : entries.lookup key with
  | none =>
      have hne := List.lookup_eq_none_iff.mp h _ hmem
      simp at hne
  | some other => rw [hall other (mem_of_lookup_eq_some h)]

theorem lookup_eq_some_iff_mem {κ α : Type} [BEq κ] [LawfulBEq κ] {entries : List (κ × α)}
    (hnodup : (entries.map Prod.fst).Nodup) {key : κ} {value : α} :
    entries.lookup key = some value ↔ (key, value) ∈ entries := by
  refine ⟨mem_of_lookup_eq_some, fun hmem => lookup_eq_some_of_forall hmem fun other hother => ?_⟩
  exact congrArg Prod.snd (List.inj_on_of_nodup_map hnodup hother hmem rfl)

variable {α : Type}

/-- Entries that ascend by name. -/
def IsAscending (entries : List (String × α)) : Prop :=
  (entries.map Prod.fst).Pairwise (· < ·)

namespace IsAscending

theorem nil : IsAscending ([] : List (String × α)) := List.Pairwise.nil

theorem nodup {entries : List (String × α)} (h : IsAscending entries) :
    (entries.map Prod.fst).Nodup :=
  List.Pairwise.imp (fun hlt => ne_of_lt hlt) h

theorem cons_iff {k : String} {v : α} {rest : List (String × α)} :
    IsAscending ((k, v) :: rest) ↔ (∀ entry ∈ rest, k < entry.1) ∧ IsAscending rest := by
  rw [IsAscending, List.map_cons, List.pairwise_cons, List.forall_mem_map]
  rfl

theorem lookup_eq_none_of_lt {k : String} {v : α} {rest : List (String × α)}
    (h : IsAscending ((k, v) :: rest)) {name : String} (hlt : name < k) :
    ((k, v) :: rest).lookup name = none := by
  have hbelow : ∀ entry ∈ (k, v) :: rest, name < entry.1 := List.forall_mem_cons.mpr
    ⟨hlt, fun entry hentry => hlt.trans ((cons_iff.mp h).1 entry hentry)⟩
  exact List.lookup_eq_none_iff.mpr fun entry hentry => bne_iff_ne.mpr (hbelow entry hentry).ne

/-- Ascending entries are settled by what is among them. -/
theorem eq_of_mem_iff {entries entries' : List (String × α)} (h : IsAscending entries)
    (h' : IsAscending entries') (hmem : ∀ entry, entry ∈ entries ↔ entry ∈ entries') :
    entries = entries' := by
  have hperm : entries.Perm entries' :=
    (List.perm_ext_iff_of_nodup h.nodup.of_map h'.nodup.of_map).mpr hmem
  refine hperm.eq_of_pairwise (fun a b _ _ hab hba => ?_) (List.pairwise_map.mp h)
    (List.pairwise_map.mp h')
  exact absurd (hab.trans hba) (lt_irrefl a.1)

end IsAscending

namespace Ascending

variable {name : String} {f : Option α → α} {entries : List (String × α)}

/-- Either an entry is the changed one, or it was there before. -/
theorem mem_alter (h : IsAscending entries) {entry : String × α}
    (hentry : entry ∈ alter name f entries) :
    entry = (name, f (entries.lookup name)) ∨ entry ∈ entries := by
  induction entries with
  | nil => exact .inl (List.mem_singleton.mp hentry)
  | cons first rest ih =>
      obtain ⟨k, v⟩ := first
      rw [alter] at hentry
      split at hentry
      · next hlt =>
          rw [h.lookup_eq_none_of_lt hlt]
          exact List.mem_cons.mp hentry
      · split at hentry
        · next heq =>
            subst heq
            rw [List.lookup_cons_self]
            exact (List.mem_cons.mp hentry).imp_right (List.mem_cons_of_mem _)
        · next hne =>
            rw [List.lookup_cons, beq_eq_false_iff_ne.mpr hne]
            rcases List.mem_cons.mp hentry with rfl | hentry
            · exact .inr List.mem_cons_self
            · exact (ih (IsAscending.cons_iff.mp h).2 hentry).imp_right (List.mem_cons_of_mem _)

theorem isAscending_alter (h : IsAscending entries) : IsAscending (alter name f entries) := by
  induction entries with
  | nil => exact IsAscending.cons_iff.mpr ⟨nofun, .nil⟩
  | cons first rest ih =>
      obtain ⟨k, v⟩ := first
      obtain ⟨hfirst, hrest⟩ := IsAscending.cons_iff.mp h
      rw [alter]
      split
      · next hlt =>
          have hbefore := fun entry hentry => hlt.trans (hfirst entry hentry)
          exact IsAscending.cons_iff.mpr ⟨List.forall_mem_cons.mpr ⟨hlt, hbefore⟩, h⟩
      · next hge =>
          split
          · next heq =>
              subst heq
              exact IsAscending.cons_iff.mpr ⟨hfirst, hrest⟩
          · next hne =>
              refine IsAscending.cons_iff.mpr ⟨fun entry hentry => ?_, ih hrest⟩
              rcases mem_alter hrest hentry with rfl | hmem
              · exact lt_of_le_of_ne (not_lt.mp hge) (Ne.symm hne)
              · exact hfirst entry hmem

theorem lookup_alter_self (h : IsAscending entries) :
    (alter name f entries).lookup name = some (f (entries.lookup name)) := by
  induction entries with
  | nil => rw [alter_nil, List.lookup_cons_self, List.lookup_nil]
  | cons first rest ih =>
      obtain ⟨k, v⟩ := first
      obtain ⟨hfirst, hrest⟩ := IsAscending.cons_iff.mp h
      rw [alter]
      split
      · next hlt =>
          rw [List.lookup_cons_self, h.lookup_eq_none_of_lt hlt]
      · split
        · next heq =>
            subst heq
            rw [List.lookup_cons_self, List.lookup_cons_self]
        · next hne =>
            have hbeq : (name == k) = false := beq_eq_false_iff_ne.mpr hne
            rw [List.lookup_cons, List.lookup_cons, hbeq]
            exact ih hrest

theorem lookup_alter_of_ne {k : String} (hk : k ≠ name) :
    (alter name f entries).lookup k = entries.lookup k := by
  have hbeq : (k == name) = false := beq_eq_false_iff_ne.mpr hk
  induction entries with
  | nil => rw [alter_nil, List.lookup_cons, hbeq]
  | cons first rest ih =>
      obtain ⟨j, v⟩ := first
      rw [alter]
      split
      · rw [List.lookup_cons, hbeq]
      · split
        · next heq =>
            subst heq
            rw [List.lookup_cons, List.lookup_cons, hbeq]
        · rw [List.lookup_cons, List.lookup_cons, ih]

end Ascending

end SourceAtlas
