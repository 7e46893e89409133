import Mathlib.Tactic.ByContra
import SourceAtlas.Tree.Dependencies
import SourceAtlas.Tree.Metrics
import SourceAtlas.Tree.Order
/-!
# What the operations of a tree leave alone

An artifact has an origin, which is what it was when it was added (`origin?`).
Scopes and contents depend on nothing else. Adding an artifact changes the parts of
one other and nothing besides, dependencies change dependencies alone, computing
metrics changes measures alone, and sorting the order of parts alone.
-/

namespace SourceAtlas

/-- An artifact as it was when it was added: without parts, measures and
dependencies. -/
def Artifact.origin (a : Artifact) : Artifact :=
  { a with parts := [], metrics := Metrics.absent, links := Links.empty }

namespace Tree

/-! ## The origin of artifacts -/

/-- The artifact with the given number, as it was when it was added. -/
def origin? (t : Tree) (i : Nat) : Option Artifact := (t.get? i).map Artifact.origin

variable {t t' : Tree} {i : Nat}

theorem scopeOf?_eq_origin? (t : Tree) (i : Nat) :
    t.scopeOf? i = (t.origin? i).bind Artifact.scope := by
  cases h : t.get? i <;> simp [scopeOf?, origin?, h, Artifact.origin]

theorem facts?_eq_origin? (t : Tree) (i : Nat) :
    t.facts? i = (t.origin? i).bind fun a => a.content.facts? := by
  cases h : t.get? i <;> simp [facts?, origin?, h, Artifact.origin]

theorem isFile_eq_origin? (t : Tree) (i : Nat) :
    t.isFile i = (t.origin? i).any fun a => a.content.isFile := by
  cases h : t.get? i <;> simp [isFile, origin?, h, Artifact.origin]

theorem isFolder_eq_origin? (t : Tree) (i : Nat) :
    t.isFolder i = (t.origin? i).any fun a => a.content.isFolder := by
  cases h : t.get? i <;> simp [isFolder, origin?, h, Artifact.origin]

theorem scopeOf?_congr (h : t'.origin? i = t.origin? i) : t'.scopeOf? i = t.scopeOf? i := by
  rw [scopeOf?_eq_origin?, h, ← scopeOf?_eq_origin?]

theorem isSymbol_congr (h : t'.origin? i = t.origin? i) : t'.isSymbol i = t.isSymbol i := by
  rw [isSymbol, facts?_eq_origin?, h, ← facts?_eq_origin?, ← isSymbol]

theorem isFile_congr (h : t'.origin? i = t.origin? i) : t'.isFile i = t.isFile i := by
  rw [isFile_eq_origin?, h, ← isFile_eq_origin?]

theorem isFolder_congr (h : t'.origin? i = t.origin? i) : t'.isFolder i = t.isFolder i := by
  rw [isFolder_eq_origin?, h, ← isFolder_eq_origin?]

theorem parts_eq_getD (t : Tree) (i : Nat) :
    t.parts i = ((t.get? i).map Artifact.parts).getD [] := by
  cases h : t.get? i <;> simp [parts, h]

theorem links_eq_getD (t : Tree) (i : Nat) :
    t.links i = ((t.get? i).map Artifact.links).getD Links.empty := by
  cases h : t.get? i <;> simp [links, h]

theorem metrics_eq_getD (t : Tree) (i : Nat) :
    t.metrics i = ((t.get? i).map Artifact.metrics).getD Metrics.absent := by
  cases h : t.get? i <;> simp [metrics, h]

/-- An artifact is its origin with the parts, measures and dependencies it has by now. -/
theorem get?_eq_origin? (t : Tree) (i : Nat) : t.get? i = (t.origin? i).map fun a =>
    { a with parts := t.parts i, metrics := t.metrics i, links := t.links i } := by
  cases h : t.get? i <;> simp [origin?, parts, metrics, links, h, Artifact.origin]

theorem lt_size_of_get? {a : Artifact} (h : t.get? i = some a) : i < t.size := by
  by_contra hle
  rw [(t.get?_eq_none_iff i).mpr (Nat.not_lt.mp hle)] at h
  cases h

theorem lt_size_of_scopeOf? {s : Nat} (h : t.scopeOf? i = some s) : i < t.size := by
  obtain ⟨a, ha, -⟩ := Option.bind_eq_some_iff.mp h
  exact lt_size_of_get? ha

theorem lt_size_of_isSymbol (h : t.isSymbol i = true) : i < t.size := by
  by_contra hle
  simp [isSymbol, facts?, (t.get?_eq_none_iff i).mpr (Nat.not_lt.mp hle)] at h

theorem lt_size_of_isFolder (h : t.isFolder i = true) : i < t.size := by
  by_contra hle
  simp [isFolder, (t.get?_eq_none_iff i).mpr (Nat.not_lt.mp hle)] at h

theorem parts_of_size_le (h : t.size ≤ i) : t.parts i = [] := by
  rw [parts, (t.get?_eq_none_iff i).mpr h]

theorem links_of_size_le (h : t.size ≤ i) : t.links i = Links.empty := by
  rw [links, (t.get?_eq_none_iff i).mpr h]

theorem metrics_of_size_le (h : t.size ≤ i) : t.metrics i = Metrics.absent := by
  rw [metrics, (t.get?_eq_none_iff i).mpr h]

/-- A folder is neither a file nor a symbol. -/
theorem not_isFile_or_isSymbol_of_isFolder (h : t.isFolder i = true) :
    ¬ (t.isFile i = true ∨ t.isSymbol i = true) := by
  cases ha : t.get? i with
  | none => simp [isFolder, ha] at h
  | some a =>
      have hcontent : a.content = .folder := by
        cases hc : a.content <;> simp [isFolder, ha, hc, Content.isFolder] at h ⊢
      simp [isFile, isSymbol, facts?, ha, hcontent, Content.isFile, Content.facts?]

/-! ## What each operation leaves alone -/

section Push

variable (t : Tree) (scope : Option Nat) (name : String) (content : Content)
  (code : Option String) (ownLines : Option Nat) (i : Nat)

theorem origin?_push :
    (t.push scope name content code ownLines).origin? i =
      if i = t.size then
        some ⟨t.size, name, content, code, scope, [], Metrics.absent, Links.empty, ownLines⟩
      else t.origin? i := by
  rw [origin?, get?_push]
  split
  · rfl
  · cases h : t.get? i with
    | none => simp [origin?, h]
    | some a =>
        simp only [origin?, h, Option.map_some]
        split <;> rfl

theorem parts_push :
    (t.push scope name content code ownLines).parts i =
      if scope = some i ∧ i < t.size then t.parts i ++ [t.size] else t.parts i := by
  rw [parts_eq_getD, get?_push, parts_eq_getD]
  by_cases hi : i = t.size
  · subst hi
    simp [(t.get?_eq_none_iff t.size).mpr (Nat.le_refl _)]
  · rw [if_neg hi]
    cases h : t.get? i with
    | none => simp [Nat.not_lt.mpr ((t.get?_eq_none_iff i).mp h)]
    | some a =>
        have hlt := lt_size_of_get? h
        by_cases hs : scope = some i
        · simp [hs, hlt]
        · simp [hs]

theorem links_push : (t.push scope name content code ownLines).links i = t.links i := by
  rw [links_eq_getD, get?_push, links_eq_getD]
  by_cases hi : i = t.size
  · subst hi
    simp [(t.get?_eq_none_iff t.size).mpr (Nat.le_refl _)]
  · rw [if_neg hi, Option.map_map]
    congr 2
    funext a
    dsimp only [Function.comp]
    split <;> rfl

theorem metrics_push : (t.push scope name content code ownLines).metrics i = t.metrics i := by
  rw [metrics_eq_getD, get?_push, metrics_eq_getD]
  by_cases hi : i = t.size
  · subst hi
    simp [(t.get?_eq_none_iff t.size).mpr (Nat.le_refl _)]
  · rw [if_neg hi, Option.map_map]
    congr 2
    funext a
    dsimp only [Function.comp]
    split <;> rfl

theorem measured_push : (t.push scope name content code ownLines).measured = t.measured := by
  cases scope <;> rfl

theorem files_push : (t.push scope name content code ownLines).files = t.files := by
  cases scope <;> rfl

end Push

theorem links_addFile (t : Tree) (s : Nat) (f : SourceFile) (i : Nat) :
    (t.addFile s f).links i = t.links i :=
  links_push t (some s) f.name (.file f.path (Uri.ofPath f.path)) (some f.code)
    (some f.lineCount) i

theorem metrics_addFile (t : Tree) (s : Nat) (f : SourceFile) (i : Nat) :
    (t.addFile s f).metrics i = t.metrics i :=
  metrics_push t (some s) f.name (.file f.path (Uri.ofPath f.path)) (some f.code)
    (some f.lineCount) i

section Update

variable {f : Artifact → Artifact} (t : Tree) (id : Nat) (i : Nat)

theorem origin?_update (hf : ∀ a, (f a).origin = a.origin) :
    (t.update id f).origin? i = t.origin? i := by
  rw [origin?, get?_update]
  split
  · rw [Option.map_map]
    exact congrArg (Option.map · _) (funext hf)
  · rfl

theorem parts_update (hf : ∀ a, (f a).parts = a.parts) :
    (t.update id f).parts i = t.parts i := by
  rw [parts_eq_getD, get?_update, parts_eq_getD]
  split
  · rw [Option.map_map]
    exact congrArg (fun f => (Option.map f (t.get? i)).getD []) (funext hf)
  · rfl

theorem metrics_update (hf : ∀ a, (f a).metrics = a.metrics) :
    (t.update id f).metrics i = t.metrics i := by
  rw [metrics_eq_getD, get?_update, metrics_eq_getD]
  split
  · rw [Option.map_map]
    exact congrArg (fun f => (Option.map f (t.get? i)).getD Metrics.absent) (funext hf)
  · rfl

theorem links_update (g : Links → Links) (hf : ∀ a, (f a).links = g a.links) :
    (t.update id f).links i = if id = i ∧ i < t.size then g (t.links i) else t.links i := by
  rw [links_eq_getD, get?_update, links_eq_getD]
  by_cases hid : id = i
  · cases ha : t.get? i with
    | none => simp [Nat.not_lt.mpr ((t.get?_eq_none_iff i).mp ha)]
    | some a => simp [hid, lt_size_of_get? ha, hf]
  · simp [hid]

end Update

section Link

variable (t : Tree) (k : EdgeClass) (r d i : Nat)

@[simp] theorem size_link : (t.link k r d).size = t.size := by
  simp [link]

theorem origin?_link : (t.link k r d).origin? i = t.origin? i := by
  rw [link, origin?_update, origin?_update] <;> exact fun _ => rfl

theorem parts_link : (t.link k r d).parts i = t.parts i := by
  rw [link, parts_update, parts_update] <;> exact fun _ => rfl

theorem metrics_link : (t.link k r d).metrics i = t.metrics i := by
  rw [link, metrics_update, metrics_update] <;> exact fun _ => rfl

theorem measured_link : (t.link k r d).measured = t.measured := rfl

end Link

section Measure

variable (choices : Nat → Graph.Choices) (t : Tree) (i : Nat)

theorem get?_measureAllWith :
    (t.measureAllWith choices).get? i =
      (t.get? i).map fun a => { a with metrics := t.measure (t.componentTable choices) i } := by
  simp [measureAllWith, get?]

@[simp] theorem size_measureAllWith : (t.measureAllWith choices).size = t.size := by
  simp [measureAllWith, size]

theorem origin?_measureAllWith : (t.measureAllWith choices).origin? i = t.origin? i := by
  rw [origin?, get?_measureAllWith, Option.map_map]
  rfl

theorem parts_measureAllWith : (t.measureAllWith choices).parts i = t.parts i := by
  rw [parts_eq_getD, get?_measureAllWith, Option.map_map, parts_eq_getD]
  rfl

theorem links_measureAllWith : (t.measureAllWith choices).links i = t.links i := by
  rw [links_eq_getD, get?_measureAllWith, Option.map_map, links_eq_getD]
  rfl

theorem metrics_measureAllWith {i : Nat} (h : i < t.size) :
    (t.measureAllWith choices).metrics i = t.measure (t.componentTable choices) i := by
  obtain ⟨a, ha⟩ := t.exists_get? h
  rw [metrics, get?_measureAllWith, ha]
  rfl

end Measure

section Order

variable (t : Tree) (i : Nat)

theorem get?_sort :
    t.sort.get? i = (t.get? i).map fun a => { a with parts := stableSort t.order a.parts } := by
  simp [sort, get?]

@[simp] theorem size_sort : t.sort.size = t.size := by
  simp [sort, size]

theorem origin?_sort : t.sort.origin? i = t.origin? i := by
  rw [origin?, get?_sort, Option.map_map]
  rfl

theorem parts_sort : t.sort.parts i = stableSort t.order (t.parts i) := by
  rw [parts, get?_sort, parts]
  cases t.get? i with
  | none => simp
  | some a => rfl

theorem links_sort : t.sort.links i = t.links i := by
  rw [links_eq_getD, get?_sort, Option.map_map, links_eq_getD]
  rfl

theorem metrics_sort : t.sort.metrics i = t.metrics i := by
  rw [metrics_eq_getD, get?_sort, Option.map_map, metrics_eq_getD]
  rfl

theorem measured_sort : t.sort.measured = t.measured := rfl

end Order

end Tree

end SourceAtlas
