import Mathlib.Data.List.Forall2
import SourceAtlas.Connection.Stage
import SourceAtlas.Proofs.Ascending
/-!
# Outlines that are read back

An outline is read in one of two shapes. `Entry.Tells` says what a value of the nested shape
is, and `Entry.TellsFlat` one of the flat shape; reading agrees with both, since the bound on
the nesting is never met (`ofJsonWithin?_eq_some_iff`).

What is read has canonical kinds only (`canonicalAll_of_ofJson?`), and such an outline is read back
from what is written for it (`ofJson?_toJson`).
-/

namespace SourceAtlas

/-! ## Kinds -/

namespace SymbolKind

/-- A kind that is read off a number is canonical. -/
theorem canonical_ofCode (n : UInt8) : (ofCode n).Canonical := by
  rintro m hm ⟨hle, hlast⟩
  rw [ofCode] at hm
  split at hm
  · next hzero =>
      obtain rfl := SymbolKind.unknown.inj hm
      rw [hzero] at hle
      exact absurd hle (by decide)
  · cases hnamed : named[n.toNat - 1]? with
    | some k =>
        rw [hnamed, Option.getD_some] at hm
        have hmem := List.mem_of_getElem? hnamed
        simp [hm, named] at hmem
    | none =>
        rw [hnamed, Option.getD_none] at hm
        obtain rfl := SymbolKind.unknown.inj hm
        have hlength : 26 ≤ n.toNat - 1 := List.getElem?_eq_none_iff.mp hnamed
        have hlast : n.toNat ≤ 26 := UInt8.le_iff_toNat_le.mp hlast
        omega

/-- A canonical kind is the kind of its own number. -/
theorem ofCode_code {k : SymbolKind} (h : k.Canonical) : ofCode k.code = k := by
  cases k with
  | unknown n =>
      have hn := h n rfl
      rw [code, ofCode]
      split
      · rfl
      · next hzero =>
          rw [UInt8.le_iff_toNat_le, UInt8.le_iff_toNat_le] at hn
          rw [← UInt8.toNat_inj] at hzero
          have hlength : named.length ≤ n.toNat - 1 := by
            simp only [UInt8.reduceToNat] at hn hzero
            simp only [named, List.length_cons, List.length_nil]
            omega
          rw [List.getElem?_eq_none hlength, Option.getD_none]
  | _ => rfl

theorem ofJson?_toJson {k : SymbolKind} (h : k.Canonical) : ofJson? k.toJson = some k := by
  rw [ofJson?, toJson, Json.byte?_nat, Option.map_some, ofCode_code h]

theorem canonical_of_ofJson? {v : Json} {k : SymbolKind} (h : ofJson? v = some k) :
    k.Canonical := by
  obtain ⟨n, -, rfl⟩ := Option.map_eq_some_iff.mp h
  exact canonical_ofCode n

end SymbolKind

/-! ## Weights -/

namespace Json

theorem weight_pos (v : Json) : 0 < v.weight := by
  cases v <;> simp [weight]

theorem weight_le_weightItems {v : Json} {items : List Json} (h : v ∈ items) :
    v.weight ≤ weightItems items := by
  induction items with
  | nil => cases h
  | cons w items ih =>
      rw [weightItems]
      rcases List.mem_cons.mp h with rfl | h
      · exact Nat.le_add_right _ _
      · exact Nat.le_trans (ih h) (Nat.le_add_left _ _)

theorem weight_le_weightFields {v : Json} {key : String} {fields : List (String × Json)}
    (h : (key, v) ∈ fields) : v.weight ≤ weightFields fields := by
  induction fields with
  | nil => cases h
  | cons w fields ih =>
      rw [weightFields]
      rcases List.mem_cons.mp h with rfl | h
      · exact Nat.le_add_right _ _
      · exact Nat.le_trans (ih h) (Nat.le_add_left _ _)

theorem weight_lt_of_mem_items {v : Json} {items : List Json} (h : v ∈ items) :
    v.weight < (array items).weight := by
  have hle := weight_le_weightItems h
  rw [weight]
  omega

/-- A field of a record weighs less than the record. -/
theorem weight_lt_of_mem_record? {v w : Json} {names : List String} {fields : List (Option Json)}
    (h : v.record? names = some fields) (hw : some w ∈ fields) : w.weight < v.weight := by
  match v with
  | .object entries =>
      obtain rfl := Option.some.inj h
      obtain ⟨name, -, hlookup⟩ := List.mem_map.mp hw
      have hle := weight_le_weightFields (mem_of_lookup_eq_some hlookup)
      rw [weight]
      omega
  | .array items =>
      rw [record?] at h
      split at h
      · obtain rfl := Option.some.inj h
        rcases List.mem_append.mp hw with hw | hw
        · obtain ⟨u, hu, heq⟩ := List.mem_map.mp hw
          exact weight_lt_of_mem_items (Option.some.inj heq ▸ hu)
        · cases (List.mem_replicate.mp hw).2
      · cases h

end Json

namespace Outline

namespace Entry

/-! ## What an entry is on the wire -/

/-- A value has the fields of an entry, and gives the nested ones as `children`. -/
def HasFields (v : Json) (e : Entry) (children : Option Json) : Prop :=
  ∃ name detail kind range selection,
    v.record? fieldNames =
      some [some name, detail, some kind, some range, some selection, children] ∧
    name.string? = some e.name ∧ Json.optional? Json.string? detail = some e.detail ∧
    SymbolKind.ofJson? kind = some e.kind ∧ Range.ofJson? range = some e.range ∧
    Range.ofJson? selection = some e.selection

/-- A value is an entry in the nested shape. The list of nested entries is missing or null, or
each of its elements is an entry. -/
inductive Tells : Json → Entry → Prop
  | leaf {v : Json} {e : Entry} {children : Option Json} : HasFields v e children →
      children = none ∨ children = some .null → e.children = none → Tells v e
  | node {v : Json} {e : Entry} {items : List Json} {es : List Entry} :
      HasFields v e (some (.array items)) → List.Forall₂ Tells items es →
      e.children = some es → Tells v e

/-- A value is an entry in the flat shape, which has no nested ones and is selected as a
whole. -/
inductive TellsFlat : Json → Entry → Prop
  | entry {v name kind location : Json} {container : Option Json} {n : String}
      {k : SymbolKind} {l : Location} {d : Option String} :
      v.record? ["name", "kind", "location", "containerName"] =
        some [some name, some kind, some location, container] →
      name.string? = some n → SymbolKind.ofJson? kind = some k →
      Location.ofJson? location = some l → Json.optional? Json.string? container = some d →
      TellsFlat v ⟨n, d, k, l.range, l.range, none⟩

theorem ofJsonWithin?_succ_eq_some_iff {depth : Nat} {v : Json} {e : Entry} :
    ofJsonWithin? (depth + 1) v = some e ↔ ∃ children, HasFields v e children ∧
      Json.optional? (Json.list? (ofJsonWithin? depth)) children = some e.children := by
  rw [ofJsonWithin?]
  constructor
  · intro h
    split at h
    · next name detail kind range selection children hfields =>
        simp only [Option.bind_eq_bind, Option.bind_eq_some_iff, Option.pure_def] at h
        obtain ⟨n, hn, d, hd, k, hk, r, hr, s, hs, c, hc, he⟩ := h
        obtain rfl := Option.some.inj he
        exact ⟨children, ⟨name, detail, kind, range, selection, hfields, hn, hd, hk, hr, hs⟩, hc⟩
    · cases h
  · rintro ⟨children, ⟨name, detail, kind, range, selection, hfields, hn, hd, hk, hr, hs⟩, hc⟩
    obtain ⟨n, d, k, r, s, c⟩ := e
    simp only [hfields, hn, hd, hk, hr, hs, hc, Option.bind_eq_bind, Option.bind_some,
      Option.pure_def]

/-! ## Reading -/

theorem mapM_eq_some_iff {α β : Type} {f : α → Option β} {as : List α} {bs : List β} :
    as.mapM f = some bs ↔ List.Forall₂ (fun a b => f a = some b) as bs := by
  induction as generalizing bs with
  | nil =>
      rw [List.mapM_nil, List.forall₂_nil_left_iff]
      exact ⟨fun h => (Option.some.inj h).symm, fun h => h ▸ rfl⟩
  | cons a as ih =>
      rw [List.mapM_cons]
      constructor
      · intro h
        obtain ⟨b, hb, h⟩ := Option.bind_eq_some_iff.mp h
        obtain ⟨bs', hbs, h⟩ := Option.bind_eq_some_iff.mp h
        obtain rfl := Option.some.inj h
        exact .cons hb (ih.mp hbs)
      · rintro (_ | ⟨hb, hbs⟩)
        rw [hb, ih.mpr hbs]
        rfl

theorem list?_eq_some_iff {α : Type} {read : Json → Option α} {v : Json} {as : List α} :
    v.list? read = some as ↔
      ∃ items, v = .array items ∧ List.Forall₂ (fun w a => read w = some a) items as := by
  rw [Json.list?, Option.bind_eq_some_iff]
  refine exists_congr fun items => and_congr ?_ mapM_eq_some_iff
  cases v <;> simp [Json.items?]

/-- An optional list is missing, null or an array whose elements can all be read. -/
theorem optional?_list?_eq_some_iff {α : Type} {read : Json → Option α} {children : Option Json}
    {as? : Option (List α)} :
    Json.optional? (Json.list? read) children = some as? ↔
      (children = none ∨ children = some .null) ∧ as? = none ∨
      ∃ items as, children = some (.array items) ∧ as? = some as ∧
        List.Forall₂ (fun v a => read v = some a) items as := by
  match children with
  | none | some .null => simp [Json.optional?, eq_comm]
  | some (.bool _) | some (.number _) | some (.string _) | some (.object _) =>
      simp [Json.optional?, Json.list?, Json.items?]
  | some (.array items) =>
      rw [Json.optional?, Option.map_eq_some_iff]
      · constructor
        · rintro ⟨as, has, rfl⟩
          obtain ⟨items', heq, has⟩ := list?_eq_some_iff.mp has
          exact .inr ⟨items', as, congrArg some heq, rfl, has⟩
        · rintro (⟨hnone, -⟩ | ⟨items', as, heq, rfl, has⟩)
          · simp at hnone
          · exact ⟨as, list?_eq_some_iff.mpr ⟨items', Option.some.inj heq, has⟩, rfl⟩
      · exact Json.noConfusion

/-- Within a bound that is at least its weight a value is read as the entry it tells. -/
theorem ofJsonWithin?_eq_some_iff {depth : Nat} {v : Json} {e : Entry} (h : v.weight ≤ depth) :
    ofJsonWithin? depth v = some e ↔ Tells v e := by
  induction depth generalizing v e with
  | zero => exact absurd h (Nat.not_le.mpr v.weight_pos)
  | succ depth ih =>
      have hitems {items : List Json} (hfields : HasFields v e (some (.array items))) :
          ∀ w ∈ items, w.weight ≤ depth := by
        intro w hw
        obtain ⟨name, detail, kind, range, selection, hrecord, -⟩ := hfields
        have hlt := Json.weight_lt_of_mem_record? hrecord (w := .array items) (by simp)
        have hlt' := Json.weight_lt_of_mem_items hw
        omega
      rw [ofJsonWithin?_succ_eq_some_iff]
      constructor
      · rintro ⟨children, hfields, hchildren⟩
        rcases optional?_list?_eq_some_iff.mp hchildren with ⟨hnone, he⟩ | ⟨items, es, rfl, he, hes⟩
        · exact .leaf hfields hnone he
        · refine .node hfields ?_ he
          exact ((List.forall₂_and_left items es).mpr ⟨hitems hfields, hes⟩).imp fun _ _ hw =>
            (ih hw.1).mp hw.2
      · rintro (⟨hfields, hnone, he⟩ | ⟨hfields, hes, he⟩)
        · exact ⟨_, hfields, optional?_list?_eq_some_iff.mpr (.inl ⟨hnone, he⟩)⟩
        · refine ⟨_, hfields, optional?_list?_eq_some_iff.mpr (.inr ⟨_, _, rfl, he, ?_⟩)⟩
          exact ((List.forall₂_and_left _ _).mpr ⟨hitems hfields, hes⟩).imp fun _ _ hw =>
            (ih hw.1).mpr hw.2

theorem ofJson?_eq_some_iff {v : Json} {e : Entry} : ofJson? v = some e ↔ Tells v e :=
  ofJsonWithin?_eq_some_iff (Nat.le_refl _)

theorem ofFlatJson?_eq_some_iff {v : Json} {e : Entry} :
    ofFlatJson? v = some e ↔ TellsFlat v e := by
  rw [ofFlatJson?]
  constructor
  · intro h
    split at h
    · next name kind location container hfields =>
        simp only [Option.bind_eq_bind, Option.bind_eq_some_iff, Option.pure_def] at h
        obtain ⟨n, hn, k, hk, l, hl, d, hd, he⟩ := h
        obtain rfl := Option.some.inj he
        exact .entry hfields hn hk hl hd
    · cases h
  · rintro ⟨hfields, hn, hk, hl, hd⟩
    simp only [hfields, hn, hk, hl, hd, Option.bind_eq_bind, Option.bind_some, Option.pure_def]

/-! ## Writing -/

mutual

/-- The kinds of an entry and of all entries nested in it are canonical. -/
def Canonical : Entry → Prop
  | ⟨_, _, kind, _, _, none⟩ => kind.Canonical
  | ⟨_, _, kind, _, _, some entries⟩ => kind.Canonical ∧ CanonicalAll entries

def CanonicalAll : List Entry → Prop
  | [] => True
  | e :: es => Canonical e ∧ CanonicalAll es

end

theorem hasFields_toJson {e : Entry} (h : e.kind.Canonical) :
    HasFields e.toJson e (some (Json.ofOption (fun es => .array (toJsonAll es)) e.children)) := by
  obtain ⟨name, detail, kind, range, selection, children⟩ := e
  have hdetail : Json.optional? Json.string? (some (Json.ofOption .string detail)) =
      some detail := by
    cases detail <;> rfl
  refine ⟨.string name, some (Json.ofOption .string detail), kind.toJson, range.toJson,
    selection.toJson, ?_, rfl, hdetail, SymbolKind.ofJson?_toJson h, Range.ofJson?_toJson range,
    Range.ofJson?_toJson selection⟩
  cases children <;>
    simp [toJson, Json.record?, fieldNames, List.lookup_cons, Json.ofOption]

mutual

/-- What is written for an entry tells this entry. -/
theorem tells_toJson : ∀ {e : Entry}, e.Canonical → Tells e.toJson e
  | ⟨_, _, _, _, _, none⟩, h => .leaf (hasFields_toJson h) (.inr rfl) rfl
  | ⟨_, _, _, _, _, some _⟩, h => .node (hasFields_toJson h.1) (tells_toJsonAll h.2) rfl

theorem tells_toJsonAll : ∀ {es : List Entry}, CanonicalAll es →
    List.Forall₂ Tells (toJsonAll es) es
  | [], _ => .nil
  | _ :: _, h => .cons (tells_toJson h.1) (tells_toJsonAll h.2)

end

theorem HasFields.canonical {v : Json} {e : Entry} {children : Option Json}
    (h : HasFields v e children) : e.kind.Canonical := by
  obtain ⟨name, detail, kind, range, selection, -, -, -, hkind, -, -⟩ := h
  exact SymbolKind.canonical_of_ofJson? hkind

mutual

theorem Tells.canonical : ∀ {e : Entry} {v : Json}, Tells v e → e.Canonical
  | ⟨_, _, _, _, _, none⟩, _, h => by
      cases h with
      | leaf hfields => exact hfields.canonical
      | node _ _ he => cases he
  | ⟨_, _, _, _, _, some entries⟩, _, h => by
      cases h with
      | leaf _ _ he => cases he
      | node hfields hentries he =>
          obtain rfl := Option.some.inj he
          exact ⟨hfields.canonical, canonicalAll_of_tells hentries⟩

theorem canonicalAll_of_tells : ∀ {es : List Entry} {items : List Json},
    List.Forall₂ Tells items es → CanonicalAll es
  | [], _, _ => trivial
  | _ :: _, _, .cons h hs => ⟨h.canonical, canonicalAll_of_tells hs⟩

end

/-- Entries of the flat shape have no nested ones and are selected as a whole. -/
theorem selected_of_tellsFlat {es : List Entry} {items : List Json}
    (h : List.Forall₂ TellsFlat items es) :
    ∀ e ∈ es, e.children = none ∧ e.selection = e.range := by
  induction h with
  | nil => simp
  | cons h _ ih =>
      refine List.forall_mem_cons.mpr ⟨?_, ih⟩
      cases h
      exact ⟨rfl, rfl⟩

theorem canonicalAll_of_tellsFlat {es : List Entry} {items : List Json}
    (h : List.Forall₂ TellsFlat items es) : CanonicalAll es := by
  induction h with
  | nil => trivial
  | cons h _ ih =>
      obtain ⟨-, -, hkind, -, -⟩ := h
      exact ⟨SymbolKind.canonical_of_ofJson? hkind, ih⟩

end Entry

open Entry

/-- An outline on the wire, in the nested shape. -/
def toJson (es : List Entry) : Json := .array (toJsonAll es)

/-! ## The shape of a list -/

theorem exists_forall₂_iff {α β : Type} {R : α → β → Prop} {as : List α} :
    (∃ bs, List.Forall₂ R as bs) ↔ ∀ a ∈ as, ∃ b, R a b := by
  induction as with
  | nil => simp
  | cons a as ih =>
      simp only [List.forall₂_cons_left_iff, List.forall_mem_cons, ← ih]
      constructor
      · rintro ⟨-, b, bs, hb, hbs, -⟩
        exact ⟨⟨b, hb⟩, bs, hbs⟩
      · rintro ⟨⟨b, hb⟩, bs, hbs⟩
        exact ⟨b :: bs, b, bs, hb, hbs, rfl⟩

/-- A list is read in the nested shape, or else in the flat one. -/
theorem ofJson?_array_eq_some_iff {items : List Json} {es : List Entry} :
    ofJson? (.array items) = some es ↔ List.Forall₂ Tells items es ∨
      (¬ ∀ v ∈ items, ∃ e, Tells v e) ∧ List.Forall₂ TellsFlat items es := by
  have hnested {es : List Entry} :
      (Json.array items).list? Entry.ofJson? = some es ↔ List.Forall₂ Tells items es := by
    simp [list?_eq_some_iff, ofJson?_eq_some_iff]
  have hflat :
      (Json.array items).list? ofFlatJson? = some es ↔ List.Forall₂ TellsFlat items es := by
    simp [list?_eq_some_iff, ofFlatJson?_eq_some_iff]
  have hnone : (Json.array items).list? Entry.ofJson? = none ↔ ¬ ∀ v ∈ items, ∃ e, Tells v e := by
    rw [← exists_forall₂_iff, Option.eq_none_iff_forall_ne_some, not_exists]
    exact forall_congr' fun es => not_congr hnested
  rw [← hnested, ← hflat, ← hnone]
  exact Option.or_eq_some_iff

/-- What is no list is read as no entries if it is null, and not at all otherwise. -/
theorem ofJson?_of_not_array {v : Json} (h : ∀ items, v ≠ .array items) :
    ofJson? v = if v.isNull then some [] else none := by
  cases v with
  | array items => exact absurd rfl (h items)
  | null | bool _ | number _ | string _ | object _ => rfl

theorem canonicalAll_of_ofJson? {v : Json} {es : List Entry} (h : ofJson? v = some es) :
    CanonicalAll es := by
  by_cases harray : ∃ items, v = .array items
  · obtain ⟨items, rfl⟩ := harray
    rcases ofJson?_array_eq_some_iff.mp h with hnested | ⟨-, hflat⟩
    · exact canonicalAll_of_tells hnested
    · exact canonicalAll_of_tellsFlat hflat
  · rw [ofJson?_of_not_array (not_exists.mp harray)] at h
    split at h
    · obtain rfl := Option.some.inj h
      trivial
    · cases h

theorem ofJson?_toJson {es : List Entry} (h : CanonicalAll es) : ofJson? (toJson es) = some es :=
  ofJson?_array_eq_some_iff.mpr (.inl (tells_toJsonAll h))

/-! ## Main statement -/

/-- An outline with canonical kinds, nested in whatever way, is read back from what is written
for it, and all that is read is such an outline. A list is in the nested shape if all its
elements are, else in the flat shape if all its elements are, and then its entries have no
nested ones and are selected as a whole. Every other value but null fails the call. -/
theorem outline_shapes :
    (∀ es, CanonicalAll es → ofJson? (toJson es) = some es) ∧
    (∀ v es, ofJson? v = some es → CanonicalAll es ∧ ofJson? (toJson es) = some es) ∧
    (∀ items, (∀ v ∈ items, ∃ e, Tells v e) →
      ∃ es, ofJson? (.array items) = some es ∧ List.Forall₂ Tells items es) ∧
    (∀ items, (¬ ∀ v ∈ items, ∃ e, Tells v e) → (∀ v ∈ items, ∃ e, TellsFlat v e) →
      ∃ es, ofJson? (.array items) = some es ∧ List.Forall₂ TellsFlat items es ∧
        ∀ e ∈ es, e.children = none ∧ e.selection = e.range) ∧
    (∀ v, v ≠ .null →
      (∀ items, v = .array items → (¬ ∀ w ∈ items, ∃ e, Tells w e) ∧
        ¬ ∀ w ∈ items, ∃ e, TellsFlat w e) →
      ofJson? v = none ∧ ∀ r : Request, r.purpose = .outline →
        ∃ reason, r.decode v = .error (.decode r.method reason)) ∧
    ofJson? .null = some [] := by
  refine ⟨fun es => ofJson?_toJson, ?_, ?_, ?_, ?_, rfl⟩
  · intro v es h
    have hes := canonicalAll_of_ofJson? h
    exact ⟨hes, ofJson?_toJson hes⟩
  · intro items hnested
    obtain ⟨es, hes⟩ := exists_forall₂_iff.mpr hnested
    exact ⟨es, ofJson?_array_eq_some_iff.mpr (.inl hes), hes⟩
  · intro items hnested hflat
    obtain ⟨es, hes⟩ := exists_forall₂_iff.mpr hflat
    exact ⟨es, ofJson?_array_eq_some_iff.mpr (.inr ⟨hnested, hes⟩), hes,
      selected_of_tellsFlat hes⟩
  · intro v hnull hlists
    have hnone : ofJson? v = none := by
      by_cases harray : ∃ items, v = .array items
      · obtain ⟨items, rfl⟩ := harray
        obtain ⟨hnested, hflat⟩ := hlists items rfl
        refine Option.eq_none_iff_forall_ne_some.mpr fun es hes => ?_
        rcases ofJson?_array_eq_some_iff.mp hes with hes | ⟨-, hes⟩
        · exact hnested (exists_forall₂_iff.mp ⟨es, hes⟩)
        · exact hflat (exists_forall₂_iff.mp ⟨es, hes⟩)
      · rw [ofJson?_of_not_array (not_exists.mp harray), if_neg]
        intro hv
        cases v <;> first | exact hnull rfl | cases hv
    refine ⟨hnone, fun r hr => ⟨"unexpected shape", ?_⟩⟩
    simp only [Request.decode, hr, hnone]

/-- A class with two parts, one without a list of nested entries and one with an empty list, and
kinds that have no name. -/
def classOutline : List Entry :=
  [⟨"Parser", some "class", .classType, ⟨⟨0, 0⟩, ⟨9, 1⟩⟩, ⟨⟨0, 6⟩, ⟨0, 12⟩⟩,
    some [⟨"parse", none, .unknown 27, ⟨⟨2, 4⟩, ⟨5, 5⟩⟩, ⟨⟨2, 9⟩, ⟨2, 14⟩⟩, none⟩,
      ⟨"reset", none, .unknown 0, ⟨⟨6, 4⟩, ⟨8, 5⟩⟩, ⟨⟨6, 9⟩, ⟨6, 14⟩⟩, some []⟩]⟩]

/-- A function in the flat shape. -/
def flatItem : Json :=
  .object [("containerName", .string "main.c"), ("kind", .nat 12),
    ("location", Location.toJson ⟨"file:///p/main.c", ⟨⟨1, 0⟩, ⟨4, 1⟩⟩⟩), ("name", .string "main")]

theorem outline_shapes_classOutline :
    CanonicalAll classOutline ∧ ofJson? (toJson classOutline) = some classOutline ∧
      (∃ es, ofJson? (.array [flatItem]) = some es ∧ ∀ e ∈ es, e.children = none ∧
        e.selection = e.range) ∧
      ofJson? (.array [.null]) = none := by
  obtain ⟨hback, -, -, hflat, hfails, -⟩ := outline_shapes
  have unnamed {n m : UInt8} (hn : ¬ (1 ≤ n ∧ n ≤ 26)) (h : SymbolKind.unknown n = .unknown m) :
      ¬ (1 ≤ m ∧ m ≤ 26) := SymbolKind.unknown.inj h ▸ hn
  have hcanonical : CanonicalAll classOutline :=
    ⟨⟨nofun, fun _ => unnamed (by decide), ⟨fun _ => unnamed (by decide), trivial⟩, trivial⟩,
      trivial⟩
  -- A value alone in a list is in neither shape where neither reader takes it.
  have not_tells {v : Json} (h : Entry.ofJson? v = none) : ¬ ∀ w ∈ [v], ∃ e, Tells w e := by
    intro hall
    obtain ⟨e, he⟩ := hall v List.mem_cons_self
    exact absurd (ofJson?_eq_some_iff.mpr he) (h ▸ nofun)
  have not_tellsFlat {v : Json} (h : ofFlatJson? v = none) : ¬ ∀ w ∈ [v], ∃ e, TellsFlat w e := by
    intro hall
    obtain ⟨e, he⟩ := hall v List.mem_cons_self
    exact absurd (ofFlatJson?_eq_some_iff.mpr he) (h ▸ nofun)
  have hread : ∀ v ∈ [flatItem], ∃ e, TellsFlat v e := by
    intro v hv
    obtain rfl := List.mem_singleton.mp hv
    exact ⟨_, ofFlatJson?_eq_some_iff.mp rfl⟩
  obtain ⟨es, hes, -, hselected⟩ := hflat [flatItem] (not_tells rfl) hread
  refine ⟨hcanonical, hback _ hcanonical, ⟨es, hes, hselected⟩, ?_⟩
  refine (hfails (.array [.null]) Json.noConfusion fun items h => ?_).1
  obtain rfl := Json.array.inj h
  exact ⟨not_tells rfl, not_tellsFlat rfl⟩

end Outline

end SourceAtlas
