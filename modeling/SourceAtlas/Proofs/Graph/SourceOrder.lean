import Mathlib.Data.Set.Card
import Mathlib.Logic.Relation
import Mathlib.Order.Interval.Set.Nat
/-!
# The source order of components

A numbering of the vertices of a graph is a source order when it numbers the
components along the edges between them and never puts off the earliest vertex
that could come next. `SourceOrder` states this without any algorithm: two
vertices share a number exactly when they share a component, every edge between
components ascends, and among the components available at `n` the one with the
earliest vertex has the number `n`.

There is one source order at most (`SourceOrder.unique`), it leaves no gaps
(`SourceOrder.gapless`), and the numbers in use are those below the number of
components (`SourceOrder.image_number`).
-/

namespace SourceAtlas

namespace Graph

open Relation

variable {α β : Type} {edge : α → α → Prop}

/-! ## Components -/

/-- Two vertices are in one component when they are equal or reach each other. -/
def SameComponent (edge : α → α → Prop) (a b : α) : Prop :=
  a = b ∨ (TransGen edge a b ∧ TransGen edge b a)

theorem sameComponent_iff_reflTransGen {a b : α} :
    SameComponent edge a b ↔ ReflTransGen edge a b ∧ ReflTransGen edge b a := by
  rw [SameComponent, reflTransGen_iff_eq_or_transGen, reflTransGen_iff_eq_or_transGen]
  constructor
  · rintro (rfl | ⟨hab, hba⟩)
    · exact ⟨.inl rfl, .inl rfl⟩
    · exact ⟨.inr hab, .inr hba⟩
  · rintro ⟨heq | hab, heq' | hba⟩
    · exact .inl heq.symm
    · exact .inl heq.symm
    · exact .inl heq'
    · exact .inr ⟨hab, hba⟩

namespace SameComponent

theorem refl (a : α) : SameComponent edge a a := .inl rfl

theorem symm {a b : α} (h : SameComponent edge a b) : SameComponent edge b a := by
  rcases h with rfl | ⟨hab, hba⟩
  · exact .inl rfl
  · exact .inr ⟨hba, hab⟩

theorem trans {a b c : α} (hab : SameComponent edge a b) (hbc : SameComponent edge b c) :
    SameComponent edge a c := by
  rw [sameComponent_iff_reflTransGen] at hab hbc ⊢
  exact ⟨hab.1.trans hbc.1, hbc.2.trans hab.2⟩

end SameComponent

/-- The components of the vertices `vs`, as sets. -/
def componentSets (vs : List α) (edge : α → α → Prop) : Set (Set α) :=
  {members | ∃ a ∈ vs, members = {b | b ∈ vs ∧ SameComponent edge a b}}

/-! ## The source order -/

/-- At `n` the component of `b` may come next: it is not numbered below `n`, and
every component with an edge into it is. -/
def Available (vs : List α) (edge : α → α → Prop) (number : α → ℕ) (n : ℕ) (b : α) : Prop :=
  b ∈ vs ∧ n ≤ number b ∧
    ∀ x y, edge x y → SameComponent edge y b → ¬ SameComponent edge x b → number x < n

/-- A numbering of the vertices `vs` by their components that follows the edges
and otherwise prefers the earliest position. -/
structure SourceOrder (vs : List α) (position : α → ℕ) (edge : α → α → Prop)
    (number : α → ℕ) : Prop where
  number_eq_iff : ∀ a ∈ vs, ∀ b ∈ vs, number a = number b ↔ SameComponent edge a b
  number_lt : ∀ a b, edge a b → ¬ SameComponent edge a b → number a < number b
  earliest : ∀ n b, Available vs edge number n b →
    (∀ a, Available vs edge number n a → position b ≤ position a) → number b = n

namespace SourceOrder

variable {vs : List α} {position : α → ℕ} {number other : α → ℕ}

/-- Every vertex is available at its own number. -/
theorem available_number (h : SourceOrder vs position edge number)
    (hvs : ∀ a b, edge a b → a ∈ vs ∧ b ∈ vs) {a : α} (ha : a ∈ vs) :
    Available vs edge number (number a) a := by
  refine ⟨ha, le_rfl, ?_⟩
  intro x y hxy hy hx
  have hlt : number x < number y := h.number_lt x y hxy fun hsame => hx (hsame.trans hy)
  rwa [(h.number_eq_iff y (hvs x y hxy).2 a ha).mpr hy] at hlt

/-- Where a component is left to be numbered, some component is available: the one
with the least number of those that are left. -/
theorem exists_available (h : SourceOrder vs position edge number)
    (hvs : ∀ a b, edge a b → a ∈ vs ∧ b ∈ vs) {a : α} (ha : a ∈ vs) {n : ℕ}
    (hn : n ≤ number a) : ∃ b, Available vs edge number n b := by
  obtain ⟨b, ⟨hb, hnb⟩, hleast⟩ :=
    (measure number).wf.has_min {b | b ∈ vs ∧ n ≤ number b} ⟨a, ha, hn⟩
  refine ⟨b, hb, hnb, ?_⟩
  intro x y hxy hy hx
  have hlt : number x < number b := (h.available_number hvs hb).2.2 x y hxy hy hx
  by_contra hge
  exact hleast x ⟨(hvs x y hxy).1, not_lt.mp hge⟩ hlt

/-- Where a component is available, the earliest available vertex gets the number. -/
theorem exists_earliest (h : SourceOrder vs position edge number) {n : ℕ} {b : α}
    (hb : Available vs edge number n b) :
    ∃ e, Available vs edge number n e ∧
      (∀ a, Available vs edge number n a → position e ≤ position a) ∧ number e = n := by
  obtain ⟨e, he, hleast⟩ :=
    (measure position).wf.has_min {b | Available vs edge number n b} ⟨b, hb⟩
  have hfirst : ∀ a, Available vs edge number n a → position e ≤ position a :=
    fun a ha => not_lt.mp (hleast a ha)
  exact ⟨e, he, hfirst, h.earliest n e he hfirst⟩

/-- Below a number in use every number is in use. -/
theorem gapless (h : SourceOrder vs position edge number)
    (hvs : ∀ a b, edge a b → a ∈ vs ∧ b ∈ vs) {a : α} (ha : a ∈ vs) {n : ℕ}
    (hn : n ≤ number a) : ∃ b ∈ vs, number b = n := by
  obtain ⟨b, hb⟩ := h.exists_available hvs ha hn
  obtain ⟨e, he, -, hnumber⟩ := h.exists_earliest hb
  exact ⟨e, he.1, hnumber⟩

/-- A vertex that reaches another has no greater number. -/
theorem number_le_of_transGen (h : SourceOrder vs position edge number)
    (hvs : ∀ a b, edge a b → a ∈ vs ∧ b ∈ vs) {a b : α} (hab : TransGen edge a b) :
    number a ≤ number b := by
  have step : ∀ x y, edge x y → number x ≤ number y := by
    intro x y hxy
    by_cases hsame : SameComponent edge x y
    · exact ((h.number_eq_iff x (hvs x y hxy).1 y (hvs x y hxy).2).mpr hsame).le
    · exact (h.number_lt x y hxy hsame).le
  induction hab with
  | single hab => exact step _ _ hab
  | tail _ hbc ih => exact ih.trans (step _ _ hbc)

/-- A vertex that reaches another one for good has a lower number. -/
theorem number_lt_of_transGen (h : SourceOrder vs position edge number)
    (hvs : ∀ a b, edge a b → a ∈ vs ∧ b ∈ vs) {a b : α} (hab : TransGen edge a b)
    (hba : ¬ TransGen edge b a) : number a < number b := by
  obtain ⟨x, hax, -⟩ := TransGen.head'_iff.mp hab
  obtain ⟨y, -, hyb⟩ := TransGen.tail'_iff.mp hab
  refine lt_of_le_of_ne (h.number_le_of_transGen hvs hab) fun heq => ?_
  rcases (h.number_eq_iff a (hvs a x hax).1 b (hvs y b hyb).2).mp heq with rfl | ⟨-, hback⟩
  · exact hba hab
  · exact hba hback

/-- What is numbered between two vertices of a component is in it. -/
theorem sameComponent_of_le_of_le (h : SourceOrder vs position edge number) {a b c : α}
    (ha : a ∈ vs) (hb : b ∈ vs) (hc : c ∈ vs) (hab : number a ≤ number b)
    (hbc : number b ≤ number c) (hac : SameComponent edge a c) : SameComponent edge a b := by
  rw [← h.number_eq_iff a ha c hc] at hac
  rw [← h.number_eq_iff a ha b hb]
  exact le_antisymm hab (hac ▸ hbc)

/-! ## Uniqueness -/

/-- Two numberings that agree below `n` have the same components available at `n`. -/
theorem available_congr (hvs : ∀ a b, edge a b → a ∈ vs ∧ b ∈ vs) {n : ℕ}
    (hlt : ∀ a ∈ vs, number a < n ↔ other a < n) {b : α}
    (hb : Available vs edge number n b) : Available vs edge other n b := by
  obtain ⟨hmem, hn, hpred⟩ := hb
  refine ⟨hmem, not_lt.mp fun h => not_lt.mpr hn ((hlt b hmem).mpr h), ?_⟩
  intro x y hxy hy hx
  exact (hlt x (hvs x y hxy).1).mp (hpred x y hxy hy hx)

/-- What one source order numbers `n`, another one that agrees with it below `n`
numbers `n` as well. -/
theorem eq_of_agree_below (h : SourceOrder vs position edge number)
    (h' : SourceOrder vs position edge other)
    (hvs : ∀ a b, edge a b → a ∈ vs ∧ b ∈ vs) {n : ℕ}
    (hlt : ∀ a ∈ vs, number a < n ↔ other a < n) {a : α} (ha : a ∈ vs) (hn : number a = n) :
    other a = n := by
  subst hn
  obtain ⟨e, he, hfirst, hnumber⟩ := h.exists_earliest (h.available_number hvs ha)
  have hother : other e = number a := by
    refine h'.earliest _ e (available_congr hvs hlt he) ?_
    intro b hb
    exact hfirst b (available_congr hvs (fun c hc => (hlt c hc).symm) hb)
  have hsame : SameComponent edge a e := (h.number_eq_iff a ha e he.1).mp hnumber.symm
  exact ((h'.number_eq_iff a ha e he.1).mpr hsame).trans hother

/-- There is one source order at most. -/
theorem unique (h : SourceOrder vs position edge number)
    (h' : SourceOrder vs position edge other)
    (hvs : ∀ a b, edge a b → a ∈ vs ∧ b ∈ vs) {a : α} (ha : a ∈ vs) :
    number a = other a := by
  have agree : ∀ n, ∀ b ∈ vs, number b = n ↔ other b = n := by
    intro n
    induction n using Nat.strong_induction_on with
    | _ n ih =>
        have hlt : ∀ b ∈ vs, number b < n ↔ other b < n := by
          intro b hb
          constructor
          · intro hn
            exact ((ih _ hn b hb).mp rfl).trans_lt hn
          · intro hn
            exact ((ih _ hn b hb).mpr rfl).trans_lt hn
        intro b hb
        exact ⟨h.eq_of_agree_below h' hvs hlt hb,
          h'.eq_of_agree_below h hvs (fun c hc => (hlt c hc).symm) hb⟩
  exact ((agree _ a ha).mp rfl).symm

/-! ## The numbers in use -/

/-- The numbers of vertices count the components. -/
theorem ncard_image_number (h : SourceOrder vs position edge number) :
    (number '' {a | a ∈ vs}).ncard = (componentSets vs edge).ncard := by
  have hsets : componentSets vs edge =
      (fun n => {b | b ∈ vs ∧ n = number b}) '' (number '' {a | a ∈ vs}) := by
    ext members
    simp only [componentSets, Set.mem_ofPred_eq, Set.mem_image, exists_exists_and_eq_and]
    refine exists_congr fun a => and_congr_right fun ha => ?_
    have : {b | b ∈ vs ∧ SameComponent edge a b} = {b | b ∈ vs ∧ number a = number b} := by
      ext b
      exact and_congr_right fun hb => (h.number_eq_iff a ha b hb).symm
    rw [this, eq_comm]
  have hinj : Set.InjOn (fun n => {b | b ∈ vs ∧ n = number b}) (number '' {a | a ∈ vs}) := by
    rintro _ ⟨a, ha, rfl⟩ n - heq
    have hmem : a ∈ vs ∧ n = number a := (Set.ext_iff.mp heq a).mp ⟨ha, rfl⟩
    exact hmem.2.symm
  rw [hsets, hinj.ncard_image]

/-- The numbers in use are those below the number of components. -/
theorem image_number (h : SourceOrder vs position edge number)
    (hvs : ∀ a b, edge a b → a ∈ vs ∧ b ∈ vs) :
    number '' {a | a ∈ vs} = Set.Iio (componentSets vs edge).ncard := by
  have hlower : ∀ a ∈ vs, ∀ n ≤ number a, n ∈ number '' {a | a ∈ vs} := by
    intro a ha n hn
    obtain ⟨b, hb, rfl⟩ := h.gapless hvs ha hn
    exact ⟨b, hb, rfl⟩
  have hfinite : (number '' {a | a ∈ vs}).Finite := (List.finite_toSet vs).image number
  rw [← h.ncard_image_number]
  ext n
  constructor
  · rintro ⟨a, ha, rfl⟩
    have hsub : Set.Iio (number a + 1) ⊆ number '' {a | a ∈ vs} :=
      fun m hm => hlower a ha m (Nat.lt_succ_iff.mp hm)
    have hle := Set.ncard_le_ncard hsub hfinite
    rw [Set.ncard_Iio_nat] at hle
    exact hle
  · intro hn
    by_contra hmem
    have hsub : number '' {a | a ∈ vs} ⊆ Set.Iio n := by
      rintro _ ⟨a, ha, rfl⟩
      exact not_le.mp fun hle => hmem (hlower a ha n hle)
    have hle := Set.ncard_le_ncard hsub (Set.finite_Iio n)
    rw [Set.ncard_Iio_nat] at hle
    exact absurd hn (not_lt.mpr hle)

end SourceOrder

/-! ## Other names for the vertices -/

section Map

variable {φ : α → β}

theorem transGen_map (hφ : Function.Injective φ) {a : α} {y : β}
    (h : TransGen (Relation.Map edge φ φ) (φ a) y) : ∃ b, φ b = y ∧ TransGen edge a b := by
  induction h with
  | single hy =>
      obtain ⟨x, b, hxb, hx, hb⟩ := hy
      exact ⟨b, hb, .single (hφ hx ▸ hxb)⟩
  | tail _ hyz ih =>
      obtain ⟨b, hb, hab⟩ := ih
      obtain ⟨x, c, hxc, hx, hc⟩ := hyz
      exact ⟨c, hc, hab.tail (hφ (hx.trans hb.symm) ▸ hxc)⟩

theorem sameComponent_map (hφ : Function.Injective φ) {a b : α} :
    SameComponent (Relation.Map edge φ φ) (φ a) (φ b) ↔ SameComponent edge a b := by
  have hpath : ∀ {a b}, TransGen (Relation.Map edge φ φ) (φ a) (φ b) ↔ TransGen edge a b := by
    intro a b
    constructor
    · intro h
      obtain ⟨c, hc, hac⟩ := transGen_map hφ h
      exact hφ hc ▸ hac
    · intro h
      induction h with
      | single hab => exact .single ⟨_, _, hab, rfl, rfl⟩
      | tail _ hbc ih => exact ih.tail ⟨_, _, hbc, rfl, rfl⟩
  rw [SameComponent, SameComponent, hφ.eq_iff, hpath, hpath]

/-- Under other names the source order is the same, when positions keep their
order. -/
theorem SourceOrder.map (hφ : Function.Injective φ) {vs : List α} {position : α → ℕ}
    {position' number : β → ℕ} (hposition : ∀ a b, position' (φ a) ≤ position' (φ b) →
      position a ≤ position b)
    (h : SourceOrder vs position edge fun a => number (φ a)) :
    SourceOrder (vs.map φ) position' (Relation.Map edge φ φ) number := by
  have havailable : ∀ n a, Available (vs.map φ) (Relation.Map edge φ φ) number n (φ a) ↔
      Available vs edge (fun a => number (φ a)) n a := by
    intro n a
    refine and_congr (List.mem_map_of_injective hφ) (and_congr_right fun _ => ?_)
    constructor
    · intro hpred x y hxy hy hx
      exact hpred _ _ ⟨x, y, hxy, rfl, rfl⟩ ((sameComponent_map hφ).mpr hy)
        ((sameComponent_map hφ).not.mpr hx)
    · rintro hpred _ _ ⟨x, y, hxy, rfl, rfl⟩ hy hx
      exact hpred x y hxy ((sameComponent_map hφ).mp hy) ((sameComponent_map hφ).not.mp hx)
  constructor
  · intro x hx y hy
    obtain ⟨a, ha, rfl⟩ := List.mem_map.mp hx
    obtain ⟨b, hb, rfl⟩ := List.mem_map.mp hy
    rw [h.number_eq_iff a ha b hb, sameComponent_map hφ]
  · rintro _ _ ⟨a, b, hab, rfl, rfl⟩ hne
    exact h.number_lt a b hab ((sameComponent_map hφ).not.mp hne)
  · intro n y hy hearliest
    obtain ⟨b, -, rfl⟩ := List.mem_map.mp hy.1
    refine h.earliest n b ((havailable n b).mp hy) fun a ha => ?_
    exact hposition b a (hearliest _ ((havailable n a).mpr ha))

end Map

end Graph

end SourceAtlas
