import SourceAtlas.Proofs.Wire.Outline
/-!
# What a request gets out of a result

A result is read by what the request was sent for (`Request.Gets`): the server's word is enough
for a handshake and for a shutdown, a plain request gets the result itself, and the other two get
what the result gives in one of its shapes (`Outline.Gives`, `Location.Gives`). A result that
gives nothing of the kind fails the request, under the method it was sent with. `gets_decode`
says that requests are decoded so.
-/

namespace SourceAtlas

namespace Json

theorem int?_eq_some_iff {v : Json} {i : Int} : v.int? = some i ↔ v = .int i := by
  refine ⟨fun h => ?_, fun h => h ▸ rfl⟩
  unfold int? at h
  split at h
  · rw [int, Option.some.inj h]
  · cases h

theorem natBelow?_eq_some_iff {v : Json} {bound n : Nat} :
    v.natBelow? bound = some n ↔ v = .nat n ∧ n < bound := by
  constructor
  · intro h
    rw [natBelow?] at h
    split at h
    · next i hi =>
        split at h
        · next hbounds =>
            obtain rfl := int?_eq_some_iff.mp hi
            obtain rfl := Option.some.inj h
            have hcast : (i.toNat : Int) = i := Int.toNat_of_nonneg hbounds.1
            exact ⟨by rw [nat, hcast, int], by omega⟩
        · cases h
    · cases h
  · rintro ⟨rfl, h⟩
    exact natBelow?_nat h

theorem word32?_eq_some_iff {v : Json} {w : UInt32} : v.word32? = some w ↔ v = .nat w.toNat := by
  rw [word32?, Option.map_eq_some_iff]
  constructor
  · rintro ⟨n, hn, rfl⟩
    obtain ⟨rfl, hlt⟩ := natBelow?_eq_some_iff.mp hn
    rw [UInt32.toNat_ofNat_of_lt' hlt]
  · rintro rfl
    exact ⟨w.toNat, natBelow?_nat w.toNat_lt, UInt32.ofNat_toNat⟩

theorem string?_eq_some_iff {v : Json} {s : String} : v.string? = some s ↔ v = .string s := by
  cases v <;> simp [string?]

end Json

/-! ## Positions, ranges and locations -/

/-- A value has the two fields of a position. -/
def Position.Tells (v : Json) (p : Position) : Prop :=
  v.record? ["line", "character"] =
    some [some (.nat p.line.toNat), some (.nat p.character.toNat)]

theorem Position.ofJson?_eq_some_iff {v : Json} {p : Position} :
    ofJson? v = some p ↔ Tells v p := by
  rw [ofJson?]
  constructor
  · intro h
    split at h
    · next line character hfields =>
        simp only [Option.bind_eq_bind, Option.bind_eq_some_iff, Option.pure_def,
          Json.word32?_eq_some_iff] at h
        obtain ⟨l, rfl, c, rfl, hp⟩ := h
        obtain rfl := Option.some.inj hp
        exact hfields
    · cases h
  · intro h
    rw [Tells] at h
    simp [h]

/-- A value has a position as each of the two fields of a range. -/
def Range.Tells (v : Json) (r : Range) : Prop :=
  ∃ start stop, v.record? ["start", "end"] = some [some start, some stop] ∧
    Position.Tells start r.start ∧ Position.Tells stop r.stop

theorem Range.ofJson?_eq_some_iff {v : Json} {r : Range} : ofJson? v = some r ↔ Tells v r := by
  rw [ofJson?]
  constructor
  · intro h
    split at h
    · next start stop hfields =>
        simp only [Option.bind_eq_bind, Option.bind_eq_some_iff, Option.pure_def,
          Position.ofJson?_eq_some_iff] at h
        obtain ⟨s, hs, e, he, hr⟩ := h
        obtain rfl := Option.some.inj hr
        exact ⟨start, stop, hfields, hs, he⟩
    · cases h
  · rintro ⟨start, stop, hfields, hs, he⟩
    simp [hfields, Position.ofJson?_eq_some_iff.mpr hs, Position.ofJson?_eq_some_iff.mpr he]

namespace Location

/-- A value has the two fields of a location. -/
def Tells (v : Json) (l : Location) : Prop :=
  ∃ range, v.record? ["uri", "range"] = some [some (.string l.uri), some range] ∧
    Range.Tells range l.range

theorem ofJson?_eq_some_iff {v : Json} {l : Location} : ofJson? v = some l ↔ Tells v l := by
  rw [ofJson?]
  constructor
  · intro h
    split at h
    · next uri range hfields =>
        simp only [Option.bind_eq_bind, Option.bind_eq_some_iff, Option.pure_def,
          Json.string?_eq_some_iff, Range.ofJson?_eq_some_iff] at h
        obtain ⟨u, rfl, r, hr, hl⟩ := h
        obtain rfl := Option.some.inj hl
        exact ⟨range, hfields, hr⟩
    · cases h
  · rintro ⟨range, hfields, hr⟩
    simp [hfields, Json.string?, Range.ofJson?_eq_some_iff.mpr hr]

/-- A result gives locations: none where it is null, and else the ones that its elements are. -/
def Gives (v : Json) (ls : List Location) : Prop :=
  v = .null ∧ ls = [] ∨ ∃ items, v = .array items ∧ List.Forall₂ Tells items ls

theorem listOfJson?_eq_some_iff {v : Json} {ls : List Location} :
    listOfJson? v = some ls ↔ Gives v ls := by
  have hlist : v.list? ofJson? = some ls ↔
      ∃ items, v = .array items ∧ List.Forall₂ Tells items ls := by
    simp only [Outline.Entry.list?_eq_some_iff, ofJson?_eq_some_iff]
  rw [listOfJson?, Gives, ← hlist]
  cases v <;> simp [Json.isNull, Json.list?, Json.items?, eq_comm]

end Location

/-! ## Outlines -/

namespace Outline

/-- A result gives the entries of an outline: none where it is null, and else the ones that its
elements are in the nested shape, or in the flat one where they are not all in the former. -/
def Gives (v : Json) (es : List Entry) : Prop :=
  v = .null ∧ es = [] ∨ ∃ items, v = .array items ∧ (List.Forall₂ Entry.Tells items es ∨
    (¬ ∀ w ∈ items, ∃ e, Entry.Tells w e) ∧ List.Forall₂ Entry.TellsFlat items es)

theorem ofJson?_eq_some_iff {v : Json} {es : List Entry} : ofJson? v = some es ↔ Gives v es := by
  rw [Gives]
  cases v with
  | array items =>
      rw [ofJson?_array_eq_some_iff]
      simp
  | null => simp [ofJson?, Json.isNull, eq_comm]
  | bool _ | number _ | string _ | object _ => simp [ofJson?, Json.isNull, Json.list?, Json.items?]

end Outline

/-! ## Requests -/

namespace Request

/-- What a request gets out of a result, by what it was sent for. -/
inductive Gets (r : Request) (result : Json) : Except CallError Reply → Prop where
  | nothing : r.purpose = .handshake ∨ r.purpose = .shutdown → Gets r result (.ok .nothing)
  | value : r.purpose = .raw → Gets r result (.ok (.value result))
  | outline {es : List Outline.Entry} : r.purpose = .outline → Outline.Gives result es →
      Gets r result (.ok (.outline es))
  | locations {ls : List Location} : r.purpose = .references → Location.Gives result ls →
      Gets r result (.ok (.locations ls))
  | noOutline (reason : String) : r.purpose = .outline → (∀ es, ¬ Outline.Gives result es) →
      Gets r result (.error (.decode r.method reason))
  | noLocations (reason : String) : r.purpose = .references →
      (∀ ls, ¬ Location.Gives result ls) → Gets r result (.error (.decode r.method reason))

theorem gets_decode (r : Request) (result : Json) : r.Gets result (r.decode result) := by
  cases hpurpose : r.purpose with
  | handshake =>
      simp only [decode, hpurpose]
      exact .nothing (.inl hpurpose)
  | shutdown =>
      simp only [decode, hpurpose]
      exact .nothing (.inr hpurpose)
  | raw =>
      simp only [decode, hpurpose]
      exact .value hpurpose
  | outline =>
      cases hread : Outline.ofJson? result with
      | some es =>
          simp only [decode, hpurpose, hread]
          exact .outline hpurpose (Outline.ofJson?_eq_some_iff.mp hread)
      | none =>
          simp only [decode, hpurpose, hread]
          refine .noOutline _ hpurpose fun es hgives => ?_
          cases hread.symm.trans (Outline.ofJson?_eq_some_iff.mpr hgives)
  | references =>
      cases hread : Location.listOfJson? result with
      | some ls =>
          simp only [decode, hpurpose, hread]
          exact .locations hpurpose (Location.listOfJson?_eq_some_iff.mp hread)
      | none =>
          simp only [decode, hpurpose, hread]
          refine .noLocations _ hpurpose fun ls hgives => ?_
          cases hread.symm.trans (Location.listOfJson?_eq_some_iff.mpr hgives)

end Request

end SourceAtlas
