import SourceAtlas.Proofs.Tree.Levels
import SourceAtlas.Proofs.Tree.Readback
/-!
# Placing an outline entry

What a tree bears of a branch stands on consecutive numbers, and a walk down the parts meets
them in ascending order (`Bears.map_snd_levelsFrom`). An artifact of a well-formed tree is
settled by its label, its scope and what else can be asked of the tree (`WellFormed.get?_eq`).
So the branch that an outline entry adds (`grafted_addSymbol`) tells the new artifacts field by
field, and what was there before is told by its origin (`get?_addSymbol_of_lt`).

`placeSymbol_appends` puts these together for every tree with a history.
-/

namespace SourceAtlas

namespace Tree

open Branch (starts sizeAll)

variable {t : Tree} {i scope : Nat}

/-! ## Consecutive numbers -/

mutual

/-- A walk through a branch meets consecutive numbers. -/
theorem Bears.map_snd_levelsFrom (h : t.WellFormed) : ∀ {b : Branch} {i : Nat} (level : Nat),
    t.Bears i b → (t.levelsFrom none i level).map Prod.snd = List.range' i b.size
  | .node label parts, i, level, ⟨_, hparts, hbears⟩ => by
      have hopen : ∀ limit ∈ (none : Option Nat), level < limit := fun _ hlimit => nomatch hlimit
      rw [h.levelsFrom_of_lt hopen, hparts, List.map_cons,
        BearsAll.map_snd_levelsFrom h (level + 1) hbears, Branch.size_node, List.range'_succ]

theorem BearsAll.map_snd_levelsFrom (h : t.WellFormed) : ∀ {bs : List Branch} {n : Nat}
    (level : Nat), t.BearsAll n bs →
      ((starts n bs).flatMap fun p => t.levelsFrom none p level).map Prod.snd =
        List.range' n (sizeAll bs)
  | [], _, _, _ => rfl
  | b :: bs, n, level, ⟨hb, hbs⟩ => by
      rw [starts, List.flatMap_cons, List.map_append, hb.map_snd_levelsFrom h,
        BearsAll.map_snd_levelsFrom h level hbs, Branch.sizeAll_cons, List.range'_append_1]

end

/-! ## Artifacts settled by what is asked of a tree -/

theorem WellFormed.get?_eq (h : t.WellFormed) {l : Label} (hlabel : t.label? i = some l) :
    t.get? i = some ⟨i, l.name, l.content, l.code, t.scopeOf? i, t.parts i, t.metrics i,
      t.links i, l.ownLines⟩ := by
  obtain ⟨a, ha, rfl⟩ := Option.map_eq_some_iff.mp hlabel
  obtain rfl := h.id_eq i a ha
  simp [scopeOf?, parts, metrics, links, ha, Artifact.label]

/-! ## What was there before -/

/-- Of the artifacts that were there only the scope changes, and that in its parts alone. -/
theorem get?_addSymbol_of_lt (hscope : scope < t.size) (file : Nat) (e : Outline.Entry)
    (hi : i < t.size) : (t.addSymbol scope file e).get? i = (t.get? i).map fun a =>
      if i = scope then { a with parts := a.parts ++ [t.size] } else a := by
  have h : Grafted t (t.addSymbol scope file e) (some scope)
      [e.branch file ((t.get? file).bind Artifact.code)] := grafted_addSymbol e scope rfl
  obtain ⟨a, ha⟩ := t.exists_get? hi
  rw [get?_eq_origin?, h.origin? i hi, h.parts_eq i hi, metrics_addSymbol hscope,
    links_addSymbol hscope]
  by_cases heq : scope = i
  · simp [origin?, parts, metrics, links, ha, heq, starts, Artifact.origin]
  · simp [origin?, parts, metrics, links, ha, heq, Ne.symm heq, Artifact.origin]

/-! ## Main statement -/

/-- A tree after an outline entry of a file was placed below a scope. -/
structure Appends (t t' : Tree) (scope file : Nat) (e : Outline.Entry) : Prop where
  size_eq : t'.size = t.size + e.count
  /-- The new artifacts are numbered in the order of a walk. -/
  walk_eq : (t'.levelsFrom none t.size 0).map Prod.snd = List.range' t.size e.count
  readBack?_eq : t'.readBack? t.size = some e.plain
  scopeOf?_eq : t'.scopeOf? t.size = some scope
  /-- Every new artifact is one of the entries, in the same order. -/
  get?_new : ∀ k < e.count, ∃ d s, e.preorder[k]? = some d ∧ t.size + k ∈ t'.parts s ∧
    t'.outline? (t.size + k) = some (d.nested.map Outline.Entry.plain) ∧
    t'.get? (t.size + k) = some ⟨t.size + k, d.name,
      .symbol ⟨d.kind, d.range, d.selection, file⟩,
      ((t.get? file).bind Artifact.code).map fun text => snippet text d.range, some s,
      t'.parts (t.size + k), Metrics.absent, Links.empty, some d.range.lineCount⟩
  get?_old : ∀ i < t.size, t'.get? i = (t.get? i).map fun a =>
    if i = scope then { a with parts := a.parts ++ [t.size] } else a
  links_eq : ∀ i, t'.links i = t.links i
  files_eq : t'.files = t.files
  measured_eq : t'.measured = t.measured

/-- In every tree with a history an outline entry is placed behind all artifacts, below any scope
and for any file: it is given the next number, its artifacts are the entries in preorder, and of
what was there only the scope gains a part. -/
theorem placeSymbol_appends {f : Folder} {cs : List Change} (h : History f cs t)
    (hscope : scope < t.size) (file : Nat) (e : Outline.Entry) :
    ∃ t', t.placeSymbol scope file e = (t', t.size) ∧ Appends t t' scope file e := by
  have hwf : (t.addSymbol scope file e).WellFormed :=
    (h.change (.addSymbol scope file e) hscope).wellFormed
  have hgrafted : Grafted t (t.addSymbol scope file e) (some scope)
      [e.branch file ((t.get? file).bind Artifact.code)] := grafted_addSymbol e scope rfl
  have hbears := hgrafted.bears.1
  have hsize := size_addSymbol file e t scope
  refine ⟨t.addSymbol scope file e, rfl, hsize, ?_, hbears.readBack?_eq hwf, ?_, ?_,
    fun i hi => get?_addSymbol_of_lt hscope file e hi, links_addSymbol hscope file e,
    files_addSymbol hscope file e, measured_addSymbol hscope file e⟩
  case refine_1 =>
    rw [hbears.map_snd_levelsFrom hwf, Branch.size, Outline.Entry.preorder_branch, List.length_map,
      Outline.Entry.length_preorder]
  case refine_2 =>
    refine (hwf.mem_parts_iff scope t.size).mp ?_
    rw [hgrafted.parts_eq scope hscope, if_pos rfl]
    exact List.mem_append_right _ (List.mem_singleton_self _)
  case refine_3 =>
    intro k hk
    obtain ⟨d, hd⟩ : ∃ d, e.preorder[k]? = some d :=
      ⟨_, List.getElem?_eq_getElem (e.length_preorder ▸ hk)⟩
    have hbear : (t.addSymbol scope file e).Bears (t.size + k)
        (d.branch file ((t.get? file).bind Artifact.code)) := by
      refine hbears.preorder ?_
      rw [Outline.Entry.preorder_branch, List.getElem?_map, hd, Option.map_some]
    obtain ⟨s, hs⟩ := hwf.exists_scope (t.size + k)
      (Nat.add_pos_left h.wellFormed.root_lt_size k) (hsize ▸ Nat.add_lt_add_left hk t.size)
    -- behind the last artifact there were neither measures nor dependencies
    have hle : t.size ≤ t.size + k := Nat.le_add_right t.size k
    refine ⟨d, s, hd, (hwf.mem_parts_iff s _).mpr hs, hbear.outline?_eq hwf, ?_⟩
    rw [hwf.get?_eq hbear.label?_eq, Outline.Entry.label_branch, hs, metrics_addSymbol hscope,
      links_addSymbol hscope, metrics_of_size_le hle, links_of_size_le hle]

/-- A function with two in it: of the one the list of nested entries is left out, of the other
it is empty. -/
def nestingEntry : Outline.Entry :=
  ⟨"parity", some "(Int) -> Bool", .function, ⟨⟨0, 0⟩, ⟨1, 3⟩⟩, ⟨⟨0, 0⟩, ⟨0, 3⟩⟩,
    some [smallEntry "halve", { smallEntry "negate" with children := some [] }]⟩

/-- Placed below the function 3 it is given the number 6. -/
theorem placeSymbol_appends_nestingEntry :
    History smallFolder smallChanges smallTree ∧ 3 < smallTree.size ∧
      ∃ t', smallTree.placeSymbol 3 1 nestingEntry = (t', 6) ∧ t'.size = 9 ∧
        t'.parts 3 = [6] ∧ (t'.levelsFrom none 6 0).map Prod.snd = [6, 7, 8] ∧
        t'.readBack? 6 = some ⟨"parity", none, .function, ⟨⟨0, 0⟩, ⟨1, 3⟩⟩, ⟨⟨0, 0⟩, ⟨0, 3⟩⟩,
          some [{ smallEntry "halve" with children := some [] },
            { smallEntry "negate" with children := some [] }]⟩ ∧
        (t'.get? 8).bind Artifact.code = some "one\ntwo" ∧
        (t'.get? 8).bind Artifact.ownLines = some 2 := by
  have hsmall : History smallFolder smallChanges smallTree := history_run (by decide +kernel)
  have hsize : smallTree.size = 6 := by decide +kernel
  have hscope : 3 < smallTree.size := by decide +kernel
  have hcode : ((smallTree.get? 1).bind Artifact.code).map
      (fun text => snippet text ⟨⟨0, 0⟩, ⟨1, 0⟩⟩) = some "one\ntwo" := by decide +kernel
  obtain ⟨t', heq, happ⟩ := placeSymbol_appends hsmall hscope 1 nestingEntry
  rw [hsize] at heq
  obtain ⟨d, s, hd, -, -, hget⟩ := happ.get?_new 2 (by decide)
  obtain rfl := Option.some.inj hd
  rw [hsize] at hget
  refine ⟨hsmall, hscope, t', heq, ?_, ?_, ?_, ?_, ?_, ?_⟩
  · rw [happ.size_eq, hsize]
    rfl
  · rw [parts_eq_getD, happ.get?_old 3 hscope, hsize]
    decide +kernel
  · have hwalk := happ.walk_eq
    rw [hsize] at hwalk
    exact hwalk
  · have hread := happ.readBack?_eq
    rw [hsize] at hread
    exact hread
  · rw [hget]
    exact hcode
  · rw [hget]
    rfl

end Tree

end SourceAtlas
