import SourceAtlas.Proofs.Tree.Balance
import SourceAtlas.Proofs.Tree.Readback
/-!
# Symbols in postorder

A walk comes to what is in an artifact before the artifact itself (`pairwise_walk`). Where a
tree bears the branches of outline entries, it comes to their symbols in the order in which
the entries end: each entry after all entries nested in it (`Outline.Entry.postorder`,
`BearsAll.map_facts?_flatMap_walk`).
-/

namespace SourceAtlas

namespace Outline

namespace Entry

mutual

/-- An entry and all entries nested in it, each after those in it. -/
def postorder : Entry → List Entry
  | ⟨name, detail, kind, range, selection, none⟩ =>
      [⟨name, detail, kind, range, selection, none⟩]
  | ⟨name, detail, kind, range, selection, some entries⟩ =>
      postorderAll entries ++ [⟨name, detail, kind, range, selection, some entries⟩]

def postorderAll : List Entry → List Entry
  | [] => []
  | e :: es => postorder e ++ postorderAll es

end

/-- What a tree records of the symbol of an entry. -/
def facts (file : Nat) (e : Entry) : SymbolFacts := ⟨e.kind, e.range, e.selection, file⟩

end Entry

end Outline

namespace Tree

open Branch (starts)

variable {t : Tree} {file s : Nat} {text : Option String}

/-- Nothing comes before what it contains. -/
theorem WellFormed.pairwise_walk (h : t.WellFormed) (s : Nat) :
    (t.walk s).Pairwise fun i j => t.contains i j = false := by
  induction s using h.wellFounded_parts.induction with
  | _ s ih =>
      rw [h.walk_eq, List.pairwise_append]
      refine ⟨List.pairwise_flatMap.mpr ⟨ih, ?_⟩, List.pairwise_singleton _ s, ?_⟩
      · refine (h.nodup_parts s).imp_of_mem fun {p q} hp hq hne i hi j hj => ?_
        rw [← Bool.not_eq_true]
        intro hij
        have hpj := h.contains_trans (h.mem_walk_iff.mp hi) hij
        exact hne (h.eq_of_contains hp hq hpj (h.mem_walk_iff.mp hj))
      · intro i hi j hj
        obtain ⟨p, hp, hi⟩ := List.mem_flatMap.mp hi
        rw [List.mem_singleton.mp hj, ← Bool.not_eq_true]
        intro his
        have hle := (h.le_of_contains (h.mem_walk_iff.mp hi)).trans (h.le_of_contains his)
        exact absurd hle (Nat.not_le.mpr (h.lt_of_mem_parts hp))

/-- Below a file there are symbols only. -/
theorem WellFormed.isSymbol_of_mem_walk (h : t.WellFormed) (hs : t.isFile s = true) {i : Nat}
    (hi : i ∈ (t.parts s).flatMap t.walk) : t.isSymbol i = true := by
  obtain ⟨p, hp, hi⟩ := List.mem_flatMap.mp hi
  have hsymbol := h.isSymbol_of_scope p s ((h.mem_parts_iff s p).mp hp) (.inl hs)
  exact h.isSymbol_of_contains (h.mem_walk_iff.mp hi) hsymbol

mutual

/-- A walk comes to the symbols of an entry in postorder. -/
theorem Bears.map_facts?_walk (h : t.WellFormed) : ∀ {e : Outline.Entry} {i : Nat},
    t.Bears i (e.branch file text) →
      (t.walk i).map t.facts? = e.postorder.map fun e => some (e.facts file)
  | ⟨name, detail, kind, range, selection, none⟩, i, hbears => by
      have hfacts := hbears.facts?_eq
      rw [h.walk_eq, hbears.2.1]
      exact congrArg (fun x => [x]) hfacts
  | ⟨name, detail, kind, range, selection, some entries⟩, i, hbears => by
      have hfacts := hbears.facts?_eq
      rw [h.walk_eq, hbears.2.1, List.map_append, BearsAll.map_facts?_flatMap_walk h hbears.2.2,
        Outline.Entry.postorder, List.map_append]
      exact congrArg _ (congrArg (fun x => [x]) hfacts)

theorem BearsAll.map_facts?_flatMap_walk (h : t.WellFormed) :
    ∀ {es : List Outline.Entry} {n : Nat},
      t.BearsAll n (Outline.Entry.branches file text es) →
        ((starts n (Outline.Entry.branches file text es)).flatMap t.walk).map t.facts? =
          (Outline.Entry.postorderAll es).map fun e => some (e.facts file)
  | [], _, _ => rfl
  | e :: es, n, ⟨he, hes⟩ => by
      rw [Outline.Entry.branches, starts, List.flatMap_cons, List.map_append,
        he.map_facts?_walk h, BearsAll.map_facts?_flatMap_walk h hes, Outline.Entry.postorderAll,
        List.map_append]

end

end Tree

end SourceAtlas
