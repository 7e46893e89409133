import Mathlib.Order.WellFounded
import SourceAtlas.Proofs.Graph.Condensation
/-!
# The numbering is a source order

`Agenda.Invariant` ties the agenda to the list of the components numbered so far:
the waits count the predecessors still to be numbered, the ready components are
those without one, in the order of their first vertices, and the list was chosen
greedily. One step keeps it (`Agenda.Invariant.take`), so a run ends with a greedy
list of all components, since a graph without cycles always leaves one ready.

Read back on vertices, the places in that list are a source order
(`sourceOrder_numbering`), whatever choices were made on the way.
-/

namespace SourceAtlas

namespace Graph

open Relation

variable {n m : Nat} {edge : Fin n → Fin n → Bool} {first : Fin m → Nat}

/-! ## The ready components -/

theorem pairwise_enqueue (hfirst : Function.Injective first) {c : Fin m} {ds : List (Fin m)}
    (hc : c ∉ ds) (h : ds.Pairwise fun a b => first a < first b) :
    (enqueue first c ds).Pairwise fun a b => first a < first b := by
  induction ds with
  | nil => exact List.pairwise_singleton _ _
  | cons d ds ih =>
      obtain ⟨hd, hds⟩ := List.pairwise_cons.mp h
      rw [List.mem_cons, not_or] at hc
      obtain ⟨hcd, hcds⟩ := hc
      have hne : first c ≠ first d := fun heq => hcd (hfirst heq)
      rw [enqueue]
      split
      · rename_i hlt
        have hlt : first c < first d := hlt.resolve_right fun heq => hne heq.1
        refine List.pairwise_cons.mpr ⟨?_, h⟩
        intro b hb
        rcases List.mem_cons.mp hb with rfl | hb
        · exact hlt
        · exact hlt.trans (hd b hb)
      · rename_i hge
        refine List.pairwise_cons.mpr ⟨?_, ih hcds hds⟩
        intro b hb
        rcases (mem_enqueue first c b ds).mp hb with rfl | hb
        · exact lt_of_le_of_ne (not_lt.mp fun hlt => hge (.inl hlt)) hne.symm
        · exact hd b hb

theorem mem_foldl_enqueue (cs ready : List (Fin m)) (b : Fin m) :
    b ∈ cs.foldl (fun ready c => enqueue first c ready) ready ↔ b ∈ ready ∨ b ∈ cs := by
  induction cs generalizing ready with
  | nil => simp
  | cons c cs ih =>
      rw [List.foldl_cons, ih, mem_enqueue, List.mem_cons]
      tauto

theorem pairwise_foldl_enqueue (hfirst : Function.Injective first) {cs ready : List (Fin m)}
    (hcs : cs.Nodup) (hdisjoint : ∀ c ∈ cs, c ∉ ready)
    (h : ready.Pairwise fun a b => first a < first b) :
    (cs.foldl (fun ready c => enqueue first c ready) ready).Pairwise
      fun a b => first a < first b := by
  induction cs generalizing ready with
  | nil => exact h
  | cons c cs ih =>
      obtain ⟨hc, hcs⟩ := List.nodup_cons.mp hcs
      refine ih hcs ?_ (pairwise_enqueue hfirst (hdisjoint c List.mem_cons_self) h)
      intro d hd
      rw [mem_enqueue, not_or]
      exact ⟨fun heq => hc (heq ▸ hd), hdisjoint d (List.mem_cons_of_mem c hd)⟩

namespace Agenda

/-! ## Releasing -/

theorem waits_release (s : Agenda m) (b x : Fin m) :
    (s.release first b).waits.get x = if x = b then s.waits.get x - 1 else s.waits.get x := by
  rw [release]
  split
  · rename_i hb
    split
    · rename_i hx
      rw [hx, hb]
    · rfl
  · rename_i d hb
    by_cases hx : x = b
    · subst hx
      simp [get_set, hb]
    · simp [get_set, Ne.symm hx, hx]

theorem mem_ready_release (s : Agenda m) (b x : Fin m) :
    x ∈ (s.release first b).ready ↔ x ∈ s.ready ∨ (x = b ∧ s.waits.get b = 1) := by
  rw [release]
  split
  · rename_i hb
    simp [hb]
  · rename_i d hb
    by_cases hd : d = 0
    · simp [hb, hd, or_comm]
    · simp [hb, hd]

theorem numbers_release (s : Agenda m) (b : Fin m) : (s.release first b).numbers = s.numbers := by
  rw [release]
  split <;> rfl

theorem next_release (s : Agenda m) (b : Fin m) : (s.release first b).next = s.next := by
  rw [release]
  split <;> rfl

theorem pairwise_release (hfirst : Function.Injective first) {s : Agenda m} {b : Fin m}
    (hb : b ∉ s.ready) (h : s.ready.Pairwise fun a b => first a < first b) :
    (s.release first b).ready.Pairwise fun a b => first a < first b := by
  rw [release]
  split
  · exact h
  · dsimp only
    split
    · exact pairwise_enqueue hfirst hb h
    · exact h

theorem waits_foldl_release {bs : List (Fin m)} (hbs : bs.Nodup) (s : Agenda m) (x : Fin m) :
    (bs.foldl (release first) s).waits.get x = if x ∈ bs then s.waits.get x - 1 else s.waits.get x := by
  induction bs generalizing s with
  | nil => simp
  | cons b bs ih =>
      obtain ⟨hb, hbs⟩ := List.nodup_cons.mp hbs
      rw [List.foldl_cons, ih hbs, waits_release]
      by_cases hx : x = b
      · subst hx
        simp [hb]
      · simp [hx]

theorem mem_ready_foldl_release {bs : List (Fin m)} (hbs : bs.Nodup) (s : Agenda m) (x : Fin m) :
    x ∈ (bs.foldl (release first) s).ready ↔ x ∈ s.ready ∨ (x ∈ bs ∧ s.waits.get x = 1) := by
  induction bs generalizing s with
  | nil => simp
  | cons b bs ih =>
      obtain ⟨hb, hbs⟩ := List.nodup_cons.mp hbs
      rw [List.foldl_cons, ih hbs, mem_ready_release, waits_release]
      by_cases hx : x = b
      · subst hx
        simp [hb]
      · simp [hx]

theorem numbers_foldl_release (bs : List (Fin m)) (s : Agenda m) :
    (bs.foldl (release first) s).numbers = s.numbers := by
  induction bs generalizing s with
  | nil => rfl
  | cons b bs ih => rw [List.foldl_cons, ih, numbers_release]

theorem next_foldl_release (bs : List (Fin m)) (s : Agenda m) :
    (bs.foldl (release first) s).next = s.next := by
  induction bs generalizing s with
  | nil => rfl
  | cons b bs ih => rw [List.foldl_cons, ih, next_release]

theorem pairwise_foldl_release (hfirst : Function.Injective first) {bs : List (Fin m)}
    (hbs : bs.Nodup) {s : Agenda m} (hready : ∀ b ∈ bs, b ∉ s.ready)
    (h : s.ready.Pairwise fun a b => first a < first b) :
    (bs.foldl (release first) s).ready.Pairwise fun a b => first a < first b := by
  induction bs generalizing s with
  | nil => exact h
  | cons b bs ih =>
      obtain ⟨hb, hbs⟩ := List.nodup_cons.mp hbs
      refine ih hbs ?_ (pairwise_release hfirst (hready b List.mem_cons_self) h)
      intro c hc
      rw [mem_ready_release, not_or]
      exact ⟨hready c (List.mem_cons_of_mem b hc), fun heq => hb (heq.1 ▸ hc)⟩

end Agenda

/-! ## Greedy lists -/

/-- After the components `done` the component `b` may come next. -/
def MayFollow (g : Condensation m) (done : List (Fin m)) (b : Fin m) : Prop :=
  b ∉ done ∧ ∀ a, g.Leads a b → a ∈ done

/-- The predecessors of a component that are not among `done`. -/
def missing (g : Condensation m) (done : List (Fin m)) (b : Fin m) : Finset (Fin m) :=
  g.predecessors b \ done.toFinset

@[simp] theorem mem_missing {g : Condensation m} {done : List (Fin m)} {a b : Fin m} :
    a ∈ missing g done b ↔ g.Leads a b ∧ a ∉ done := by
  simp [missing]

theorem missing_append_singleton (g : Condensation m) (done : List (Fin m)) (b c : Fin m) :
    missing g (done ++ [c]) b = (missing g done b).erase c := by
  ext a
  simp only [mem_missing, Finset.mem_erase, List.mem_append, List.mem_singleton, not_or]
  tauto

/-- Every component of the list may follow those before it, and has the earliest
vertex of all that may. -/
def Greedy (g : Condensation m) (first : Fin m → Nat) (order : List (Fin m)) : Prop :=
  ∀ done c rest, order = done ++ c :: rest →
    MayFollow g done c ∧ ∀ b, MayFollow g done b → first c ≤ first b

theorem greedy_append_singleton {g : Condensation m} {order : List (Fin m)} {c : Fin m}
    (h : Greedy g first order) (hc : MayFollow g order c)
    (hleast : ∀ b, MayFollow g order b → first c ≤ first b) : Greedy g first (order ++ [c]) := by
  intro done d rest heq
  rcases List.eq_nil_or_concat rest with rfl | ⟨rest, e, rfl⟩
  · obtain ⟨rfl, hcd⟩ := List.append_inj' heq rfl
    obtain rfl : c = d := by simpa using hcd
    exact ⟨hc, hleast⟩
  · rw [List.concat_eq_append, ← List.cons_append, ← List.append_assoc] at heq
    exact h done d rest (List.append_inj' heq rfl).1

/-- A list of all components that waits for none is complete. -/
theorem mem_of_forall_not_mayFollow {g : Condensation m}
    (hacyclic : ∀ a, ¬ TransGen g.Leads a a) {done : List (Fin m)}
    (h : ∀ b, ¬ MayFollow g done b) (b : Fin m) : b ∈ done := by
  have : IsTrans (Fin m) (TransGen g.Leads) := ⟨fun _ _ _ => TransGen.trans⟩
  have : Std.Irrefl (TransGen g.Leads) := ⟨hacyclic⟩
  have hwf : WellFounded (TransGen g.Leads) := Finite.wellFounded_of_trans_of_irrefl _
  induction b using hwf.induction with
  | _ b ih =>
      by_contra hb
      exact h b ⟨hb, fun a hab => ih a (.single hab)⟩

namespace Greedy

variable {g : Condensation m} {order : List (Fin m)}

theorem idxOf_eq (h : Greedy g first order) {done rest : List (Fin m)} {c : Fin m}
    (heq : order = done ++ c :: rest) : order.idxOf c = done.length := by
  have hc : c ∉ done := (h done c rest heq).1.1
  rw [heq, List.idxOf_append_of_notMem hc, List.idxOf_cons_self, Nat.add_zero]

/-- What leads to a component stands before it. -/
theorem idxOf_lt (h : Greedy g first order) {a b : Fin m} (hb : b ∈ order) (hab : g.Leads a b) :
    order.idxOf a < order.idxOf b := by
  obtain ⟨done, rest, heq⟩ := List.append_of_mem hb
  have ha : a ∈ done := (h done b rest heq).1.2 a hab
  rw [h.idxOf_eq heq, heq, List.idxOf_append_of_mem ha]
  exact List.idxOf_lt_length_of_mem ha

theorem mem_of_leads (h : Greedy g first order) {a b : Fin m} (hb : b ∈ order)
    (hab : g.Leads a b) : a ∈ order :=
  List.idxOf_lt_length_iff.mp ((h.idxOf_lt hb hab).trans (List.idxOf_lt_length_of_mem hb))

/-- After one component more those may follow that could before, and those that it
was the last missing predecessor of. -/
theorem mayFollow_append_singleton_iff (h : Greedy g first order) {c : Fin m}
    (hc : MayFollow g order c) (b : Fin m) :
    MayFollow g (order ++ [c]) b ↔
      (MayFollow g order b ∧ b ≠ c) ∨ (g.Leads c b ∧ (missing g order b).card = 1) := by
  constructor
  · intro hb
    obtain ⟨hnot, hpred⟩ := hb
    rw [List.mem_append, List.mem_singleton, not_or] at hnot
    have hbefore : ∀ a, g.Leads a b → a ≠ c → a ∈ order := by
      intro a hab hne
      refine (List.mem_append.mp (hpred a hab)).resolve_right fun ha => hne ?_
      exact List.mem_singleton.mp ha
    by_cases hcb : g.Leads c b
    · refine .inr ⟨hcb, Finset.card_eq_one.mpr ⟨c, ?_⟩⟩
      ext a
      rw [mem_missing, Finset.mem_singleton]
      constructor
      · intro ha
        by_contra hne
        exact ha.2 (hbefore a ha.1 hne)
      · intro heq
        exact heq ▸ ⟨hcb, hc.1⟩
    · refine .inl ⟨⟨hnot.1, fun a hab => hbefore a hab fun heq => hcb (heq ▸ hab)⟩, hnot.2⟩
  · intro hb
    rw [MayFollow, List.mem_append, List.mem_singleton, not_or]
    rcases hb with ⟨hb, hne⟩ | ⟨hcb, hone⟩
    · exact ⟨⟨hb.1, hne⟩, fun a hab => List.mem_append_left _ (hb.2 a hab)⟩
    · obtain ⟨d, hd⟩ := Finset.card_eq_one.mp hone
      have hmissing : ∀ a, g.Leads a b → a ∉ order → a = d := by
        intro a hab ha
        exact Finset.mem_singleton.mp (hd ▸ mem_missing.mpr ⟨hab, ha⟩)
      refine ⟨⟨fun hb => hc.1 (h.mem_of_leads hb hcb), ?_⟩, ?_⟩
      · intro heq
        exact hc.1 (hc.2 c (heq ▸ hcb))
      · intro a hab
        by_cases ha : a ∈ order
        · exact List.mem_append_left _ ha
        · have hac : a = c := (hmissing a hab ha).trans (hmissing c hcb hc.1).symm
          exact List.mem_append_right _ (List.mem_singleton.mpr hac)

/-- The component at a place has the earliest vertex of all that are not before it
and wait for nothing behind. -/
theorem first_getElem_le (h : Greedy g first order) {k : Nat} (hk : k < order.length) {b : Fin m}
    (hb : k ≤ order.idxOf b) (hpred : ∀ a, g.Leads a b → order.idxOf a < k) :
    first order[k] ≤ first b := by
  have heq : order = order.take k ++ order[k] :: order.drop (k + 1) := by simp
  refine (h _ _ _ heq).2 b ⟨?_, ?_⟩
  · intro hmem
    have hlt := List.idxOf_lt_length_of_mem hmem
    rw [heq, List.idxOf_append_of_mem hmem] at hb
    rw [List.length_take] at hlt
    omega
  · intro a hab
    have ha : a ∈ order := List.idxOf_lt_length_iff.mp ((hpred a hab).trans hk)
    exact (List.mem_take_iff_idxOf_lt ha).mpr (hpred a hab)

theorem idxOf_getElem (h : Greedy g first order) {k : Nat} (hk : k < order.length) :
    order.idxOf order[k] = k := by
  have heq : order = order.take k ++ order[k] :: order.drop (k + 1) := by simp
  rw [h.idxOf_eq heq, List.length_take]
  omega

end Greedy

namespace Agenda

/-- What an agenda knows after the components `done` are numbered. -/
structure Invariant (g : Condensation m) (first : Fin m → Nat) (done : List (Fin m))
    (s : Agenda m) : Prop where
  greedy : Greedy g first done
  numbers : ∀ c ∈ done, s.numbers.get c = done.idxOf c
  next : s.next = done.length
  waits : ∀ b : Fin m, s.waits.get b = (missing g done b).card
  mem_ready : ∀ b, b ∈ s.ready ↔ MayFollow g done b
  sorted : s.ready.Pairwise fun a b => first a < first b

theorem mayFollow_nil_iff {g : Condensation m} (hg : g.Counted) (b : Fin m) :
    MayFollow g [] b ↔ g.inDegree.get b = 0 := by
  rw [hg.inDegree, Finset.card_eq_zero, Finset.eq_empty_iff_forall_notMem]
  simp [MayFollow]

/-- The first agenda has numbered nothing. -/
theorem invariant_start {g : Condensation m} (hg : g.Counted)
    (hfirst : Function.Injective first) : Invariant g first [] (start g first) where
  greedy := by
    intro done c rest heq
    simp at heq
  numbers := by simp
  next := rfl
  waits b := by simpa [start, missing] using hg.inDegree b
  mem_ready b := by
    rw [start, mem_foldl_enqueue, mayFollow_nil_iff hg]
    simp
  sorted := by
    refine pairwise_foldl_enqueue hfirst ((List.nodup_finRange m).filter _) ?_ .nil
    simp

/-- Taking the component in front keeps the invariant, in whichever order its
successors are released. -/
theorem Invariant.take {g : Condensation m} (hg : g.Counted) (hfirst : Function.Injective first)
    {done : List (Fin m)} {s : Agenda m} (h : Invariant g first done s) {c : Fin m}
    {rest : List (Fin m)} (hready : s.ready = c :: rest) {successors : List (Fin m)}
    (hperm : successors.Perm (g.successors.get c)) :
    Invariant g first (done ++ [c]) (s.take first c rest successors) := by
  have hsorted := h.sorted
  rw [hready, List.pairwise_cons] at hsorted
  have hc : MayFollow g done c := (h.mem_ready c).mp (hready ▸ List.mem_cons_self)
  have hrest : ∀ b ∈ rest, MayFollow g done b ∧ b ≠ c := by
    intro b hb
    refine ⟨(h.mem_ready b).mp (hready ▸ List.mem_cons_of_mem c hb), ?_⟩
    rintro rfl
    exact lt_irrefl _ (hsorted.1 b hb)
  have hnodup : successors.Nodup := hperm.nodup_iff.mpr (hg.nodup c)
  have hleads : ∀ b, b ∈ successors ↔ g.Leads c b := fun b => hperm.mem_iff
  constructor
  · refine greedy_append_singleton h.greedy hc ?_
    intro b hb
    have hb := (h.mem_ready b).mpr hb
    rw [hready] at hb
    rcases List.mem_cons.mp hb with rfl | hb
    · exact le_rfl
    · exact (hsorted.1 b hb).le
  · intro d hd
    rw [Agenda.take, numbers_foldl_release]
    rcases List.mem_append.mp hd with hd | hd
    · have : c ≠ d := fun heq => hc.1 (heq ▸ hd)
      rw [List.idxOf_append_of_mem hd, ← h.numbers d hd]
      simp [get_set, this]
    · obtain rfl : d = c := List.mem_singleton.mp hd
      rw [List.idxOf_append_of_notMem hc.1]
      simp [get_set, h.next]
  · rw [Agenda.take, next_foldl_release]
    simp [h.next]
  · intro b
    rw [Agenda.take, waits_foldl_release hnodup, missing_append_singleton]
    by_cases hb : b ∈ successors
    · have hmem : c ∈ missing g done b := mem_missing.mpr ⟨(hleads b).mp hb, hc.1⟩
      rw [if_pos hb, Finset.card_erase_of_mem hmem, ← h.waits b]
    · have hmem : c ∉ missing g done b := fun hmem => hb ((hleads b).mpr (mem_missing.mp hmem).1)
      rw [if_neg hb, Finset.erase_eq_of_notMem hmem, ← h.waits b]
  · intro b
    rw [Agenda.take, mem_ready_foldl_release hnodup, hleads, h.waits b,
      h.greedy.mayFollow_append_singleton_iff hc]
    refine or_congr_left ⟨hrest b, fun hb => ?_⟩
    have hready' := (h.mem_ready b).mpr hb.1
    rw [hready] at hready'
    exact (List.mem_cons.mp hready').resolve_left hb.2
  · refine pairwise_foldl_release hfirst hnodup ?_ hsorted.2
    intro b hb hmem
    exact hc.1 ((hrest b hmem).1.2 c ((hleads b).mp hb))

/-- A run ends with a greedy list of all components and numbers each with its
place. -/
theorem Invariant.run {g : Condensation m} (hg : g.Counted) (hfirst : Function.Injective first)
    (hacyclic : ∀ a, ¬ TransGen g.Leads a a) {successors : Fin m → List (Fin m)}
    (hperm : ∀ c : Fin m, (successors c).Perm (g.successors.get c)) {done : List (Fin m)} {s : Agenda m}
    (h : Invariant g first done s) :
    ∃ order, Greedy g first order ∧ (∀ c, c ∈ order) ∧
      ∀ c : Fin m, (s.run first successors).get c = order.idxOf c := by
  fun_induction Agenda.run first successors s generalizing done with
  | case1 s hready =>
      have hall : ∀ c, c ∈ done := by
        refine mem_of_forall_not_mayFollow hacyclic fun b hb => ?_
        have := (h.mem_ready b).mpr hb
        rw [hready] at this
        simp at this
      exact ⟨done, h.greedy, hall, fun c => h.numbers c (hall c)⟩
  | case2 s c rest hready ih => exact ih (h.take hg hfirst hready (hperm c))

end Agenda

/-! ## The numbers of the vertices -/

/-- What is assumed of choices: a listing lists the components, and successors are
all gone through, in some order. -/
structure Choices.Lawful (choices : Choices) : Prop where
  isComponents : ∀ {n : Nat} (edge : Fin n → Fin n → Bool),
    (choices.listing edge).IsComponents edge
  perm : ∀ {m : Nat} (c : Fin m) (successors : List (Fin m)),
    (choices.arrange c successors).Perm successors

theorem lawful_standard : Choices.standard.Lawful where
  isComponents := isComponents_components
  perm _ _ := .refl _

/-- The numbers of vertices are the places of their components in a greedy list. -/
theorem exists_greedy_numbering {choices : Choices} (h : choices.Lawful)
    (edge : Fin n → Fin n → Bool) :
    ∃ order, Greedy (condense edge (choices.listing edge).label) (choices.listing edge).first order ∧
      (∀ c, c ∈ order) ∧
      ∀ i : Fin n, (numbering choices edge).get i = order.idxOf ((choices.listing edge).label i) := by
  have hl := h.isComponents edge
  have hg := Condensation.counted_ofEdges ((edges edge).map fun e =>
    ((choices.listing edge).label e.1, (choices.listing edge).label e.2))
  have hfirst : Function.Injective (choices.listing edge).first := fun _ _ => hl.first_injective
  obtain ⟨order, hgreedy, hall, hnumber⟩ := (Agenda.invariant_start hg hfirst).run hg hfirst
    (not_transGen_leads hl) fun c => h.perm c _
  refine ⟨order, hgreedy, hall, fun i => ?_⟩
  rw [← hnumber]
  simp [numbering, condense, get_ofFn]

/-- The places in a greedy list of all components are a source order. -/
theorem Greedy.sourceOrder {l : Listing n} (hl : l.IsComponents edge)
    {order : List (Fin l.size)} (h : Greedy (condense edge l.label) l.first order)
    (hall : ∀ c, c ∈ order) :
    SourceOrder (List.finRange n) Fin.val (Joins edge) fun i => order.idxOf (l.label i) := by
  have hleads : ∀ i j, edge i j = true → ¬ SameComponent (Joins edge) i j →
      (condense edge l.label).Leads (l.label i) (l.label j) := fun i j hij hne =>
    leads_condense.mpr ⟨hl.label_eq_iff.not.mpr hne, i, j, hij, rfl, rfl⟩
  constructor
  · intro i _ j _
    rw [List.idxOf_inj (hall _), hl.label_eq_iff]
  · intro i j hij hne
    exact h.idxOf_lt (hall _) (hleads i j hij hne)
  · rintro k b ⟨-, hkb, hpred⟩ hearliest
    have hk : k < order.length := hkb.trans_lt (List.idxOf_lt_length_of_mem (hall _))
    -- the component at place `k` starts no later than that of `b`
    have hfirst : l.first order[k] ≤ l.first (l.label b) := by
      refine h.first_getElem_le hk hkb fun a hab => ?_
      obtain ⟨hne, x, y, hxy, rfl, hy⟩ := leads_condense.mp hab
      exact hpred x y hxy (hl.label_eq_iff.mp hy) (hl.label_eq_iff.not.mp hne)
    obtain ⟨i, hi, hfirsti⟩ := hl.exists_first order[k]
    have hnumber : order.idxOf (l.label i) = k := by
      rw [hi, h.idxOf_getElem hk]
    have hbi : b.val ≤ i.val := by
      refine hearliest i ⟨List.mem_finRange i, hnumber.ge, ?_⟩
      intro x y hxy hy hx
      have hlt := h.idxOf_lt (hall _) (hleads x y hxy fun hsame => hx (hsame.trans hy))
      rwa [hl.label_eq_iff.mpr hy, hnumber] at hlt
    have hib : i.val ≤ b.val := hfirsti ▸ hfirst.trans (l.first_label_le b)
    rw [Fin.ext (le_antisymm hbi hib), hnumber]

/-- The numbering is the source order of a graph, with lawful choices of any kind. -/
theorem sourceOrder_numbering {choices : Choices} (h : choices.Lawful)
    (edge : Fin n → Fin n → Bool) :
    SourceOrder (List.finRange n) Fin.val (Joins edge) (numbering choices edge).get := by
  obtain ⟨order, hgreedy, hall, hnumber⟩ := exists_greedy_numbering h edge
  rw [show (numbering choices edge).get = _ from funext hnumber]
  exact hgreedy.sourceOrder (h.isComponents edge) hall

/-- The numbers depend on the edges alone: neither the choices nor the graph they
were made for leave a trace. -/
theorem toList_numbering_congr {choices choices' : Choices} (h : choices.Lawful)
    (h' : choices'.Lawful) (hnm : n = m) {edge : Fin n → Fin n → Bool}
    {edge' : Fin m → Fin m → Bool}
    (hedge : ∀ i j, edge i j = edge' (Fin.cast hnm i) (Fin.cast hnm j)) :
    (numbering choices edge).toList = (numbering choices' edge').toList := by
  subst hnm
  obtain rfl : edge = edge' := funext fun i => funext fun j => hedge i j
  refine congrArg Vector.toList (Vector.ext fun i hi => ?_)
  exact (sourceOrder_numbering h edge).unique (sourceOrder_numbering h' edge)
    (fun a b _ => ⟨List.mem_finRange a, List.mem_finRange b⟩) (List.mem_finRange ⟨i, hi⟩)

end Graph

end SourceAtlas
