import SourceAtlas.Proofs.Tree.Postorder
/-!
# The innermost symbol around a range

The search looks at nested symbols before the symbol around them, so it finds the first
symbol in postorder whose declaration contains the range
(`WellFormed.symbolContaining?_eq_find?`). No declaration below that one contains the
range (`WellFormed.covers_eq_false`), though the one around it need not contain the range
either: servers send declarations that stick out of each other.

Where the symbols around a range lie in one another, the one that is found is the one in
all of them (`WellFormed.symbolContaining?_eq_some_iff`), and the order of the parts makes no
difference (`WellFormed.symbolContaining?_congr`).
-/

namespace SourceAtlas

namespace Tree

variable {t u : Tree} {file i r : Nat} {range : Range}

/-- Whether an artifact is a symbol whose declaration contains a range. -/
def covers (t : Tree) (range : Range) (i : Nat) : Bool :=
  (t.facts? i).any fun facts => facts.range.contains range

/-- A symbol below a file stands around a range. -/
def Encloses (t : Tree) (file : Nat) (range : Range) (i : Nat) : Prop :=
  t.contains file i = true ∧ t.covers range i = true

instance (t : Tree) (file : Nat) (range : Range) (i : Nat) :
    Decidable (t.Encloses file range i) :=
  inferInstanceAs (Decidable (_ ∧ _))

/-- Of any two symbols around a range, one is in the other. -/
def Nests (t : Tree) (file : Nat) (range : Range) : Prop :=
  ∀ i j, t.Encloses file range i → t.Encloses file range j →
    t.contains i j = true ∨ t.contains j i = true

theorem isSymbol_of_covers (h : t.covers range i = true) : t.isSymbol i = true := by
  obtain ⟨facts, hfacts, -⟩ := (Option.any_eq_true _ _).mp h
  rw [isSymbol, hfacts]
  rfl

/-! ## The search -/

theorem findSome?_congr {α β : Type} {f g : α → Option β} {as : List α}
    (h : ∀ a ∈ as, f a = g a) : as.findSome? f = as.findSome? g := by
  have hmap (f : α → Option β) : as.findSome? f = (as.map f).findSome? id := by
    rw [List.findSome?_map, Function.id_comp]
  rw [hmap, hmap, List.map_congr_left h]

/-- The search tries the parts of a symbol before the symbol itself. -/
theorem WellFormed.symbolAround?_eq (h : t.WellFormed) (hi : t.isSymbol i = true) :
    t.symbolAround? range i =
      ((t.parts i).findSome? (t.symbolAround? range)).or
        (if t.covers range i then some i else none) := by
  obtain ⟨facts, hfacts⟩ := Option.isSome_iff_exists.mp hi
  rw [symbolAround?, h.fold_eq, hfacts, covers, hfacts]
  exact congrArg (Option.or · _) List.findSome?_map

theorem WellFormed.symbolAround?_eq_find? (h : t.WellFormed) (hi : t.isSymbol i = true) :
    t.symbolAround? range i = (t.walk i).find? (t.covers range) := by
  induction i using h.wellFounded_parts.induction with
  | _ i ih =>
      have hparts : (t.parts i).findSome? (t.symbolAround? range) =
          (t.parts i).findSome? fun p => (t.walk p).find? (t.covers range) :=
        findSome?_congr fun p hp => ih p hp <|
          h.isSymbol_of_scope p i ((h.mem_parts_iff i p).mp hp) (.inr hi)
      rw [h.symbolAround?_eq hi, h.walk_eq, List.find?_append, List.find?_flatMap, hparts,
        List.find?_singleton]

/-- What is found in a file is the first symbol of its walk around the range. -/
theorem WellFormed.symbolContaining?_eq_find? (h : t.WellFormed) (hfile : t.isFile file = true) :
    t.symbolContaining? file range = (t.walk file).find? (t.covers range) := by
  have hparts : t.symbolContaining? file range =
      (t.parts file).findSome? fun p => (t.walk p).find? (t.covers range) :=
    findSome?_congr fun p hp => h.symbolAround?_eq_find? <|
      h.isSymbol_of_scope p file ((h.mem_parts_iff file p).mp hp) (.inl hfile)
  have hself : t.covers range file = false := by
    by_contra hcovers
    have hsymbol := isSymbol_of_covers (Bool.eq_true_of_not_eq_false hcovers)
    rw [not_isSymbol_of_isFile hfile] at hsymbol
    cases hsymbol
  rw [hparts, h.walk_eq, List.find?_append, List.find?_flatMap, List.find?_singleton, hself]
  exact Option.or_none.symm

/-! ## What is found -/

theorem WellFormed.symbolContaining?_eq_none_iff (h : t.WellFormed)
    (hfile : t.isFile file = true) :
    t.symbolContaining? file range = none ↔ ∀ i, ¬ t.Encloses file range i := by
  rw [h.symbolContaining?_eq_find? hfile, List.find?_eq_none]
  refine forall_congr' fun i => ?_
  rw [h.mem_walk_iff, Encloses, not_and]

theorem WellFormed.encloses_of_symbolContaining? (h : t.WellFormed) (hfile : t.isFile file = true)
    (hr : t.symbolContaining? file range = some r) : t.Encloses file range r := by
  rw [h.symbolContaining?_eq_find? hfile] at hr
  exact ⟨h.mem_walk_iff.mp (List.mem_of_find?_eq_some hr), List.find?_some hr⟩

/-- Nothing below the symbol that is found is around the range: it would have come first. -/
theorem WellFormed.covers_eq_false (h : t.WellFormed) (hfile : t.isFile file = true)
    (hr : t.symbolContaining? file range = some r) (hne : i ≠ r) (hri : t.contains r i = true) :
    t.covers range i = false := by
  have hfi := h.contains_trans (h.encloses_of_symbolContaining? hfile hr).1 hri
  rw [h.symbolContaining?_eq_find? hfile] at hr
  obtain ⟨-, before, after, hwalk, hbefore⟩ := List.find?_eq_some_iff_append.mp hr
  have hmem := h.mem_walk_iff.mpr hfi
  have hlater := h.pairwise_walk file
  rw [hwalk] at hmem hlater
  rcases List.mem_append.mp hmem with hi | hi
  · simpa using hbefore i hi
  · have hafter := (List.mem_cons.mp hi).resolve_left hne
    have hout := (List.pairwise_cons.mp (List.pairwise_append.mp hlater).2.1).1 i hafter
    rw [hri] at hout
    cases hout

/-- Where the symbols around a range lie in one another, the one in all of them is found. -/
theorem WellFormed.symbolContaining?_eq_some_iff (h : t.WellFormed) (hfile : t.isFile file = true)
    (hnests : t.Nests file range) :
    t.symbolContaining? file range = some r ↔
      t.Encloses file range r ∧ ∀ i, t.Encloses file range i → t.contains i r = true := by
  have inner {r : Nat} (hr : t.symbolContaining? file range = some r) {i : Nat}
      (hi : t.Encloses file range i) : t.contains i r = true := by
    rcases hnests i r hi (h.encloses_of_symbolContaining? hfile hr) with hir | hri
    · exact hir
    · by_cases heq : i = r
      · exact heq ▸ h.contains_self i
      · have hout := h.covers_eq_false hfile hr heq hri
        rw [hi.2] at hout
        cases hout
  constructor
  · exact fun hr => ⟨h.encloses_of_symbolContaining? hfile hr, fun i hi => inner hr hi⟩
  · rintro ⟨hr, hall⟩
    cases hfound : t.symbolContaining? file range with
    | none => exact absurd hr ((h.symbolContaining?_eq_none_iff hfile).mp hfound r)
    | some m =>
        have hm := h.encloses_of_symbolContaining? hfile hfound
        rw [h.contains_antisymm (hall m hm) (inner hfound hr)]

/-! ## The order of parts -/

theorem encloses_congr (halike : Alike u t) :
    u.Encloses file range i ↔ t.Encloses file range i := by
  rw [Encloses, Encloses, halike.contains, covers, covers, halike.facts?]

/-- Where the symbols around a range lie in one another, the order of the parts makes no
difference to which of them is found. -/
theorem WellFormed.symbolContaining?_congr (h : t.WellFormed) (hfile : t.isFile file = true)
    (hnests : t.Nests file range) (halike : Alike u t)
    (hparts : ∀ i, (u.parts i).Perm (t.parts i)) :
    u.symbolContaining? file range = t.symbolContaining? file range := by
  have hu := h.congr halike.size_eq halike.origin? hparts
  have hufile : u.isFile file = true := (isFile_congr (halike.origin? file)).trans hfile
  have hunests : u.Nests file range := fun i j hi hj => by
    rw [halike.contains, halike.contains]
    exact hnests i j ((encloses_congr halike).mp hi) ((encloses_congr halike).mp hj)
  refine Option.ext fun r => ?_
  rw [hu.symbolContaining?_eq_some_iff hufile hunests, h.symbolContaining?_eq_some_iff hfile hnests,
    encloses_congr halike]
  refine and_congr_right fun _ => forall_congr' fun i => ?_
  rw [encloses_congr halike, halike.contains]

/-! ## A symbol that sticks out -/

/-- In the file the number 2, which 3 overlaps, and in 3 the number 4, which ends after it and
holds 5. Sorting puts 3 before 2. -/
def strayChanges : List Change :=
  [.addSymbol 1 1 (linesEntry "first" 0 5 []),
    .addSymbol 1 1 (linesEntry "outer" 3 9 [linesEntry "late" 8 14 [linesEntry "inner" 12 13 []]]),
    .addDependency 3 2, .computeMetrics]

def strayTree : Tree := (ofFolder smallFolder).run strayChanges

def lineRange (line : UInt32) : Range := ⟨⟨line, 0⟩, ⟨line, 4⟩⟩

/-! ## Main statement -/

/-- In a file of a tree with a history no symbol is found around a range exactly when there
is none. Otherwise the first one in postorder is found, and no declaration below it is
around the range. Where the symbols around the range lie in one another, that is the one in
all others, whatever the order of parts is, so sorting makes no difference. -/
theorem symbolContaining?_finds_innermost {f : Folder} {cs : List Change} (h : History f cs t)
    (hfile : t.isFile file = true) (range : Range) :
    (t.symbolContaining? file range = none ↔
      ∀ i, t.isSymbol i = true → t.contains file i = true → t.covers range i = false) ∧
    t.symbolContaining? file range = (t.walk file).find? (t.covers range) ∧
    (∀ r, t.symbolContaining? file range = some r → t.Encloses file range r ∧
      ∀ i, i ≠ r → t.contains r i = true → t.covers range i = false) ∧
    (t.Nests file range →
      (∀ r, t.symbolContaining? file range = some r ↔
        t.Encloses file range r ∧ ∀ i, t.Encloses file range i → t.contains i r = true) ∧
      (∀ u, Alike u t → (∀ i, (u.parts i).Perm (t.parts i)) →
        u.symbolContaining? file range = t.symbolContaining? file range) ∧
      t.sort.symbolContaining? file range = t.symbolContaining? file range) := by
  have hwf := h.wellFormed
  refine ⟨?_, hwf.symbolContaining?_eq_find? hfile, ?_, fun hnests => ⟨?_, ?_, ?_⟩⟩
  · rw [hwf.symbolContaining?_eq_none_iff hfile]
    constructor
    · intro hnone i _ hi
      exact Bool.eq_false_of_not_eq_true fun hcovers => hnone i ⟨hi, hcovers⟩
    · intro hnone i hi
      have hout := hnone i (isSymbol_of_covers hi.2) hi.1
      rw [hi.2] at hout
      cases hout
  · exact fun r hr => ⟨hwf.encloses_of_symbolContaining? hfile hr,
      fun i hne hri => hwf.covers_eq_false hfile hr hne hri⟩
  · exact fun r => hwf.symbolContaining?_eq_some_iff hfile hnests
  · exact fun u halike hparts => hwf.symbolContaining?_congr hfile hnests halike hparts
  · obtain ⟨halike, hparts⟩ := alike_apply t (c := .sort) rfl
    exact hwf.symbolContaining?_congr hfile hnests halike hparts

/-- Around line 12 there are 5 and the 4 around it, though not the 3 around both. The 5 is
found before and after sorting. -/
theorem symbolContaining?_finds_innermost_strayTree :
    strayTree.isFile 1 = true ∧ strayTree.Nests 1 (lineRange 12) ∧
      strayTree.contains 3 5 = true ∧ strayTree.covers (lineRange 12) 3 = false ∧
      strayTree.contains 4 5 = true ∧ strayTree.covers (lineRange 12) 4 = true ∧
      strayTree.symbolContaining? 1 (lineRange 12) = some 5 ∧
      strayTree.sort.symbolContaining? 1 (lineRange 12) = some 5 := by
  have hstray : History smallFolder strayChanges strayTree := history_run (by decide +kernel)
  have hfile : strayTree.isFile 1 = true := by decide +kernel
  have hthere : ∀ i, strayTree.Encloses 1 (lineRange 12) i → i < 6 := fun i hi =>
    lt_of_lt_of_eq (lt_size_of_isSymbol (isSymbol_of_covers hi.2)) (by decide +kernel)
  have hpairs : ∀ i < 6, ∀ j < 6, strayTree.Encloses 1 (lineRange 12) i →
      strayTree.Encloses 1 (lineRange 12) j →
      strayTree.contains i j = true ∨ strayTree.contains j i = true := by decide +kernel
  have hnests : strayTree.Nests 1 (lineRange 12) := fun i j hi hj =>
    hpairs i (hthere i hi) j (hthere j hj) hi hj
  obtain ⟨-, -, -, hinner⟩ := symbolContaining?_finds_innermost hstray hfile (lineRange 12)
  obtain ⟨hiff, -, hsort⟩ := hinner hnests
  have hall : ∀ i < 6, strayTree.Encloses 1 (lineRange 12) i → strayTree.contains i 5 = true := by
    decide +kernel
  have hfound : strayTree.symbolContaining? 1 (lineRange 12) = some 5 :=
    (hiff 5).mpr ⟨by decide +kernel, fun i hi => hall i (hthere i hi) hi⟩
  exact ⟨hfile, hnests, by decide +kernel, by decide +kernel, by decide +kernel, by decide +kernel,
    hfound, hsort.trans hfound⟩

/-- Where two symbols overlap, the order of the parts decides between them. -/
example : strayTree.symbolContaining? 1 (lineRange 4) = some 2 ∧
    strayTree.sort.symbolContaining? 1 (lineRange 4) = some 3 := by
  decide +kernel

end Tree

end SourceAtlas
