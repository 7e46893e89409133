import SourceAtlas.Proofs.Tree.Origin
/-!
# Well-formed trees

The containment of a tree is kept twice, in the scope of every artifact and in the
parts of its scope. In a well-formed tree both say the same: an artifact is a part
of its scope once, scopes are older than their parts, and only the root folder has
none.

An operation that keeps the origins and only rearranges parts keeps a tree well
formed (`WellFormed.congr`), and so does adding an artifact (`WellFormed.push`).
-/

namespace SourceAtlas

namespace Tree

variable {t t' : Tree}

/-- The two sides of containment agree, and containment is a tree below the root
folder. -/
structure WellFormed (t : Tree) : Prop where
  id_eq : ∀ i a, t.get? i = some a → a.id = i
  isFolder_root : t.isFolder root = true
  scope_root : t.scopeOf? root = none
  exists_scope : ∀ i, 0 < i → i < t.size → ∃ s, t.scopeOf? i = some s
  scope_lt : ∀ i s, t.scopeOf? i = some s → s < i
  mem_parts_iff : ∀ s p, p ∈ t.parts s ↔ t.scopeOf? p = some s
  nodup_parts : ∀ s, (t.parts s).Nodup
  isSymbol_of_scope : ∀ p s, t.scopeOf? p = some s → (t.isFile s = true ∨ t.isSymbol s = true) →
    t.isSymbol p = true

theorem id_eq_iff_origin? :
    (∀ i a, t.get? i = some a → a.id = i) ↔ ∀ i a, t.origin? i = some a → a.id = i := by
  constructor
  · intro h i a ha
    obtain ⟨b, hb, rfl⟩ := Option.map_eq_some_iff.mp ha
    exact h i b hb
  · intro h i a ha
    exact h i a.origin (by rw [origin?, ha]; rfl)

/-- A tree that differs in measures, dependencies and the order of parts only is as
well formed as before. -/
theorem WellFormed.congr (h : t.WellFormed) (hsize : t'.size = t.size)
    (horigin : ∀ i, t'.origin? i = t.origin? i) (hparts : ∀ i, (t'.parts i).Perm (t.parts i)) :
    t'.WellFormed where
  id_eq := by
    rw [id_eq_iff_origin?]
    intro i a ha
    exact id_eq_iff_origin?.mp h.id_eq i a (horigin i ▸ ha)
  isFolder_root := (isFolder_congr (horigin root)).trans h.isFolder_root
  scope_root := (scopeOf?_congr (horigin root)).trans h.scope_root
  exists_scope i hi hlt := by
    rw [scopeOf?_congr (horigin i)]
    exact h.exists_scope i hi (hsize ▸ hlt)
  scope_lt i s hs := h.scope_lt i s (scopeOf?_congr (horigin i) ▸ hs)
  mem_parts_iff s p := by
    rw [(hparts s).mem_iff, scopeOf?_congr (horigin p), h.mem_parts_iff]
  nodup_parts s := (hparts s).nodup_iff.mpr (h.nodup_parts s)
  isSymbol_of_scope p s hs := by
    rw [isFile_congr (horigin s), isSymbol_congr (horigin s), isSymbol_congr (horigin p)]
    exact h.isSymbol_of_scope p s (scopeOf?_congr (horigin p) ▸ hs)

theorem WellFormed.root_lt_size (h : t.WellFormed) : root < t.size :=
  lt_size_of_isFolder h.isFolder_root

theorem WellFormed.lt_size_of_mem_parts (h : t.WellFormed) {s p : Nat} (hp : p ∈ t.parts s) :
    p < t.size :=
  lt_size_of_scopeOf? ((h.mem_parts_iff s p).mp hp)

section Push

variable {name : String} {content : Content} {code : Option String} {ownLines : Option Nat}

theorem origin?_push_of_ne {scope : Option Nat} {i : Nat} (hi : i ≠ t.size) :
    (t.push scope name content code ownLines).origin? i = t.origin? i := by
  rw [origin?_push, if_neg hi]

theorem scopeOf?_push_size {scope : Option Nat} :
    (t.push scope name content code ownLines).scopeOf? t.size = scope := by
  rw [scopeOf?_eq_origin?, origin?_push, if_pos rfl]
  rfl

theorem isSymbol_push_size {scope : Option Nat} :
    (t.push scope name content code ownLines).isSymbol t.size = content.isSymbol := by
  rw [isSymbol, facts?_eq_origin?, origin?_push, if_pos rfl]
  rfl

theorem isFolder_push_size {scope : Option Nat} :
    (t.push scope name content code ownLines).isFolder t.size = content.isFolder := by
  rw [isFolder_eq_origin?, origin?_push, if_pos rfl]
  rfl

/-- The root folder alone is a well-formed tree. -/
theorem wellFormed_push_root :
    (empty.push none name .folder code ownLines).WellFormed := by
  have horigin : ∀ i a, (empty.push none name .folder code ownLines).origin? i = some a →
      i = 0 ∧ a.id = 0 ∧ a.scope = none := by
    intro i a ha
    rw [origin?_push] at ha
    split at ha
    · rename_i hi
      obtain rfl := Option.some.inj ha
      exact ⟨hi, rfl, rfl⟩
    · cases ha
  have hscope : ∀ i, (empty.push none name .folder code ownLines).scopeOf? i = none := by
    intro i
    rw [scopeOf?_eq_origin?, Option.bind_eq_none_iff]
    exact fun a ha => (horigin i a ha).2.2
  have hparts : ∀ i, (empty.push none name .folder code ownLines).parts i = [] := by
    intro i
    rw [parts_push]
    simp [parts, get?, empty]
  constructor
  · rw [id_eq_iff_origin?]
    intro i a ha
    exact (horigin i a ha).2.1.trans (horigin i a ha).1.symm
  · exact isFolder_push_size
  · exact hscope root
  · intro i hi hlt
    rw [size_push] at hlt
    have : empty.size = 0 := rfl
    omega
  · intro i s hs
    simp [hscope] at hs
  · intro s p
    simp [hscope, hparts]
  · intro s
    simp [hparts]
  · intro p s hs
    simp [hscope] at hs

/-- Adding an artifact below one that is there keeps a tree well formed, provided
that only symbols are added below files and symbols. -/
theorem WellFormed.push (h : t.WellFormed) {s : Nat} (hs : s < t.size)
    (hcontent : t.isFile s = true ∨ t.isSymbol s = true → content.isSymbol = true) :
    (t.push (some s) name content code ownLines).WellFormed := by
  have hne : ∀ {i}, i < t.size → i ≠ t.size := fun hi => Nat.ne_of_lt hi
  have hscope : ∀ i, (t.push (some s) name content code ownLines).scopeOf? i =
      if i = t.size then some s else t.scopeOf? i := by
    intro i
    by_cases hi : i = t.size
    · rw [hi, if_pos rfl, scopeOf?_push_size]
    · rw [if_neg hi, scopeOf?_congr (origin?_push_of_ne hi)]
  have hnone : ∀ {i}, t.scopeOf? i = some t.size → False := fun {i} hi =>
    absurd (h.scope_lt i _ hi) (Nat.not_lt.mpr (Nat.le_of_lt (lt_size_of_scopeOf? hi)))
  constructor
  · rw [id_eq_iff_origin?]
    intro i a ha
    rw [origin?_push] at ha
    split at ha
    · rename_i hi
      obtain rfl := Option.some.inj ha
      exact hi.symm
    · exact id_eq_iff_origin?.mp h.id_eq i a ha
  · rw [isFolder_congr (origin?_push_of_ne (hne h.root_lt_size))]
    exact h.isFolder_root
  · rw [scopeOf?_congr (origin?_push_of_ne (hne h.root_lt_size))]
    exact h.scope_root
  · intro i hi hlt
    rw [hscope]
    split
    · exact ⟨s, rfl⟩
    · rw [size_push] at hlt
      exact h.exists_scope i hi (by omega)
  · intro i r hr
    rw [hscope] at hr
    split at hr
    · obtain rfl := Option.some.inj hr
      omega
    · exact h.scope_lt i r hr
  · intro r p
    rw [parts_push, hscope]
    by_cases hp : p = t.size
    · subst hp
      have hout : t.size ∉ t.parts r := fun hmem =>
        Nat.lt_irrefl _ (h.lt_size_of_mem_parts hmem)
      by_cases hr : s = r
      · subst hr
        simp [hs]
      · simp [hr, hout]
    · rw [if_neg hp, ← h.mem_parts_iff]
      split
      · simp [hp]
      · rfl
  · intro r
    rw [parts_push]
    split
    · refine List.nodup_append.mpr ⟨h.nodup_parts r, by simp, ?_⟩
      intro p hp q hq
      rw [List.mem_singleton.mp hq]
      exact hne (h.lt_size_of_mem_parts hp)
    · exact h.nodup_parts r
  · intro p r hr hkind
    rw [hscope] at hr
    by_cases hp : p = t.size
    · subst hp
      rw [if_pos rfl] at hr
      obtain rfl := Option.some.inj hr
      rw [isFile_congr (origin?_push_of_ne (hne hs)),
        isSymbol_congr (origin?_push_of_ne (hne hs))] at hkind
      rw [isSymbol_push_size]
      exact hcontent hkind
    · rw [if_neg hp] at hr
      have hrlt : r < t.size :=
        Nat.lt_trans (h.scope_lt p r hr) (lt_size_of_scopeOf? hr)
      rw [isFile_congr (origin?_push_of_ne (hne hrlt)),
        isSymbol_congr (origin?_push_of_ne (hne hrlt))] at hkind
      rw [isSymbol_congr (origin?_push_of_ne hp)]
      exact h.isSymbol_of_scope p r hr hkind

end Push

end Tree

end SourceAtlas
