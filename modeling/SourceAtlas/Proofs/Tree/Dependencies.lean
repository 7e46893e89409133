import Mathlib.Data.List.Sort
import Mathlib.Data.Set.Card
import SourceAtlas.Proofs.Tree.History
/-!
# The dependencies a history leaves

The dependencies of a tree are those that its history asked for and that can be:
`Records` says so for both ends and every bucket. A change keeps it, since whether
two artifacts can depend on each other rests on their origins and those around them
alone (`classify?_extends`).
-/

namespace SourceAtlas

namespace Tree

variable {t t' : Tree} {r d i j : Nat} {k k' : EdgeClass}

/-! ## Which dependencies can be -/

theorem contains_congr {c : Nat} (h : ∀ j ≤ i, t'.scopeOf? j = t.scopeOf? j) :
    t'.contains c i = t.contains c i := by
  induction i using Nat.strong_induction_on with
  | _ i ih =>
      rw [contains, contains, h i le_rfl]
      split
      · rfl
      · cases t.scopeOf? i with
        | none => rfl
        | some s =>
            dsimp only
            split
            · rename_i hs
              exact ih s hs fun j hj => h j (hj.trans hs.le)
            · rfl

theorem Extends.scopeOf? (h : Extends t t') (hi : i < t.size) : t'.scopeOf? i = t.scopeOf? i :=
  scopeOf?_congr (h.origin? i hi)

theorem Extends.contains (h : Extends t t') (c : Nat) (hi : i < t.size) :
    t'.contains c i = t.contains c i :=
  contains_congr fun _ hj => h.scopeOf? (hj.trans_lt hi)

theorem Alike.contains (h : Alike t t') (c i : Nat) : t.contains c i = t'.contains c i :=
  contains_congr fun j _ => scopeOf?_congr (h.origin? j)

/-- The class of a dependency between artifacts that are there is settled. -/
theorem classify?_extends (h : Extends t t') (hr : r < t.size) (hd : d < t.size) :
    t'.classify? r d = t.classify? r d := by
  rw [classify?, classify?, isSymbol_congr (h.origin? r hr), isSymbol_congr (h.origin? d hd),
    h.contains r hd, h.contains d hr, h.scopeOf? hr, h.scopeOf? hd]

/-- Which dependencies can be depends on origins only. -/
theorem classify?_congr (horigin : ∀ i, t'.origin? i = t.origin? i) (r d : Nat) :
    t'.classify? r d = t.classify? r d := by
  have hscope : ∀ i, t'.scopeOf? i = t.scopeOf? i := fun i => scopeOf?_congr (horigin i)
  rw [classify?, classify?, isSymbol_congr (horigin r), isSymbol_congr (horigin d),
    contains_congr fun j _ => hscope j, contains_congr fun j _ => hscope j, hscope, hscope]

/-- A dependency can be between symbols of which neither contains the other, and its
class says whether they share their scope. -/
theorem classify?_eq_some_iff :
    t.classify? r d = some k ↔
      t.isSymbol r = true ∧ t.isSymbol d = true ∧
        t.contains r d = false ∧ t.contains d r = false ∧
        (k = .inScope ↔ t.scopeOf? r = t.scopeOf? d) := by
  rw [classify?]
  cases hr : t.isSymbol r <;> cases hd : t.isSymbol d <;> cases hrd : t.contains r d <;>
    cases hdr : t.contains d r <;> simp
  by_cases hs : t.scopeOf? r = t.scopeOf? d <;> cases k <;> simp [hs]

/-! ## Recording -/

theorem outgoing_link (t : Tree) (k k' : EdgeClass) (hr : r < t.size) (i : Nat) :
    ((t.link k r d).links i).outgoing k' =
      if i = r ∧ k' = k then insertAscending d ((t.links i).outgoing k')
      else (t.links i).outgoing k' := by
  rw [link, links_update _ _ _ (fun l => l.addOutgoing k d) fun _ => rfl,
    links_update _ _ _ (fun l => l.addIncoming k r) fun _ => rfl, size_update]
  have hincoming : (if d = i ∧ i < t.size then (t.links i).addIncoming k r
      else t.links i).outgoing k' = (t.links i).outgoing k' := by
    split <;> simp
  by_cases hi : r = i
  · rw [if_pos ⟨hi, hi ▸ hr⟩, Links.outgoing_addOutgoing, hincoming]
    simp [hi]
  · rw [if_neg fun h => hi h.1, hincoming, if_neg fun h => hi h.1.symm]

theorem incoming_link (t : Tree) (k k' : EdgeClass) (hd : d < t.size) (i : Nat) :
    ((t.link k r d).links i).incoming k' =
      if i = d ∧ k' = k then insertAscending r ((t.links i).incoming k')
      else (t.links i).incoming k' := by
  rw [link, links_update _ _ _ (fun l => l.addOutgoing k d) fun _ => rfl,
    links_update _ _ _ (fun l => l.addIncoming k r) fun _ => rfl, size_update]
  rw [apply_ite (fun l => Links.incoming l k')]
  simp only [Links.incoming_addOutgoing, ite_self]
  by_cases hi : d = i
  · rw [if_pos ⟨hi, hi ▸ hd⟩, Links.incoming_addIncoming]
    simp [hi]
  · rw [if_neg fun h => hi h.1, if_neg fun h => hi h.1.symm]

/-- Some changes ask for a dependency, and in the tree it can be in the class `k`. -/
def Requested (cs : List Change) (t : Tree) (r d : Nat) (k : EdgeClass) : Prop :=
  Change.addDependency r d ∈ cs ∧ t.classify? r d = some k

/-- The dependencies of a tree are those that some changes ask for and that can be,
each at both of its ends and once in its bucket. -/
structure Records (cs : List Change) (t : Tree) : Prop where
  lt_size : ∀ r d, Change.addDependency r d ∈ cs → r < t.size ∧ d < t.size
  mem_outgoing : ∀ r d k, d ∈ (t.links r).outgoing k ↔ Requested cs t r d k
  mem_incoming : ∀ r d k, r ∈ (t.links d).incoming k ↔ Requested cs t r d k
  ascending_outgoing : ∀ i k, ((t.links i).outgoing k).Pairwise (· < ·)
  ascending_incoming : ∀ i k, ((t.links i).incoming k).Pairwise (· < ·)

namespace Records

variable {cs : List Change}

/-- What was asked for before stays what it was. -/
theorem requested_extends (h : Records cs t) (hext : Extends t t') :
    Requested cs t' r d k ↔ Requested cs t r d k := by
  refine and_congr_right fun hrd => ?_
  obtain ⟨hr, hd⟩ := h.lt_size r d hrd
  rw [classify?_extends hext hr hd]

theorem requested_append_of_ne {c : Change} (hc : ∀ r d, c ≠ .addDependency r d) :
    Requested (cs ++ [c]) t r d k ↔ Requested cs t r d k := by
  have hne : Change.addDependency r d ≠ c := (hc r d).symm
  simp [Requested, hne]

theorem requested_append_addDependency {x y : Nat} :
    Requested (cs ++ [.addDependency r d]) t x y k ↔
      Requested cs t x y k ∨ (x = r ∧ y = d ∧ t.classify? r d = some k) := by
  rw [Requested, List.mem_append, List.mem_singleton, Change.addDependency.injEq, or_and_right]
  refine or_congr_right ?_
  constructor
  · rintro ⟨⟨rfl, rfl⟩, hk⟩
    exact ⟨rfl, rfl, hk⟩
  · rintro ⟨rfl, rfl, hk⟩
    exact ⟨⟨rfl, rfl⟩, hk⟩

/-- A change that asks for no dependency and keeps those there are. -/
theorem of_links_eq (h : Records cs t) (hext : Extends t t') (hlinks : ∀ i, t'.links i = t.links i)
    {c : Change} (hc : ∀ r d, c ≠ .addDependency r d) : Records (cs ++ [c]) t' := by
  constructor
  · intro r d hrd
    have hne : Change.addDependency r d ≠ c := (hc r d).symm
    obtain ⟨hr, hd⟩ := h.lt_size r d (by simpa [hne] using hrd)
    exact ⟨hr.trans_le hext.size_le, hd.trans_le hext.size_le⟩
  · intro r d k
    rw [hlinks, h.mem_outgoing, requested_append_of_ne hc, h.requested_extends hext]
  · intro r d k
    rw [hlinks, h.mem_incoming, requested_append_of_ne hc, h.requested_extends hext]
  · intro i k
    rw [hlinks]
    exact h.ascending_outgoing i k
  · intro i k
    rw [hlinks]
    exact h.ascending_incoming i k

/-- Asking for a dependency records it, if it can be. -/
theorem addDependency (h : Records cs t) (hr : r < t.size) (hd : d < t.size) :
    Records (cs ++ [.addDependency r d]) (t.addDependency r d) := by
  have hlt : ∀ x y, Change.addDependency x y ∈ cs ++ [Change.addDependency r d] →
      x < t.size ∧ y < t.size := by
    intro x y hxy
    rcases List.mem_append.mp hxy with hxy | hxy
    · exact h.lt_size x y hxy
    · obtain ⟨rfl, rfl⟩ := Change.addDependency.inj (List.mem_singleton.mp hxy)
      exact ⟨hr, hd⟩
  rcases addDependency_cases t r d with ⟨hnone, heq⟩ | ⟨k, hsome, heq⟩
  · have hrequested : ∀ x y k, Requested (cs ++ [.addDependency r d]) t x y k ↔
        Requested cs t x y k := fun x y k => by
      simp [requested_append_addDependency, hnone]
    rw [heq]
    constructor
    · exact hlt
    · intro x y k
      rw [hrequested, h.mem_outgoing]
    · intro x y k
      rw [hrequested, h.mem_incoming]
    · exact h.ascending_outgoing
    · exact h.ascending_incoming
  · have hext : Extends t (t.link k r d) :=
      ⟨(size_link t k r d).ge, fun i _ => origin?_link t k r d i⟩
    have hrequested : ∀ x y k', Requested (cs ++ [.addDependency r d]) (t.link k r d) x y k' ↔
        Requested cs t x y k' ∨ (x = r ∧ y = d ∧ k' = k) := fun x y k' => by
      rw [requested_append_addDependency, h.requested_extends hext, classify?_extends hext hr hd,
        hsome, Option.some_inj, eq_comm (a := k)]
    rw [heq]
    constructor
    · intro x y hxy
      rw [size_link]
      exact hlt x y hxy
    · intro x y k'
      rw [hrequested, outgoing_link t k k' hr, ← h.mem_outgoing]
      split
      · rename_i hx
        rw [mem_insertAscending]
        tauto
      · rename_i hx
        tauto
    · intro x y k'
      rw [hrequested, incoming_link t k k' hd, ← h.mem_incoming]
      split
      · rename_i hx
        rw [mem_insertAscending]
        tauto
      · rename_i hx
        tauto
    · intro i k'
      rw [outgoing_link t k k' hr]
      split
      · exact pairwise_insertAscending d (h.ascending_outgoing i k')
      · exact h.ascending_outgoing i k'
    · intro i k'
      rw [incoming_link t k k' hd]
      split
      · exact pairwise_insertAscending r (h.ascending_incoming i k')
      · exact h.ascending_incoming i k'

/-- Every change records what it asks for. -/
theorem apply (h : Records cs t) {c : Change} (hc : c.Admissible t) :
    Records (cs ++ [c]) (c.apply t) := by
  cases c with
  | addSymbol scope file e =>
      exact h.of_links_eq (extends_apply hc) (links_addSymbol hc file e) (by simp)
  | addDependency r d => exact h.addDependency hc.1 hc.2
  | computeMetrics =>
      refine h.of_links_eq (extends_apply hc) ?_ (by simp)
      rcases apply_computeMetrics_cases t with ⟨-, heq⟩ | ⟨-, heq⟩
      · rw [heq]
        exact fun _ => rfl
      · rw [heq]
        exact links_measureAllWith _ t
  | sort => exact h.of_links_eq (extends_apply hc) (links_sort t) (by simp)

/-- What changes ask for and what can be settles every bucket. -/
theorem links_eq (h : Records cs t) {ds : List Change} (h' : Records ds t')
    (hrequested : ∀ r d k, Requested ds t' r d k ↔ Requested cs t r d k) (i : Nat) :
    t'.links i = t.links i := by
  apply Links.ext_buckets
  · intro k
    refine (h'.ascending_incoming i k).eq_of_mem_iff (h.ascending_incoming i k) fun r => ?_
    rw [h.mem_incoming, h'.mem_incoming, hrequested]
  · intro k
    refine (h'.ascending_outgoing i k).eq_of_mem_iff (h.ascending_outgoing i k) fun d => ?_
    rw [h.mem_outgoing, h'.mem_outgoing, hrequested]

end Records

theorem records_ofFolder (f : Folder) : Records [] (ofFolder f) := by
  have hlinks : ∀ i, (ofFolder f).links i = Links.empty := by
    refine keeps_ofFolder (P := fun u => ∀ i, u.links i = Links.empty) ?_ ?_ ?_ f
    · intro name i
      rw [links_push]
      rfl
    · intro u s name hu _ i
      rw [links_push, hu]
    · intro u s f hu _ i
      exact (links_addFile u s f i).trans (hu i)
  constructor <;> simp [hlinks, Requested]

theorem History.records {f : Folder} {cs : List Change} (h : History f cs t) : Records cs t := by
  induction h with
  | loaded => exact records_ofFolder f
  | change c _ hc ih => exact ih.apply hc

/-! ## Asking for dependencies -/

/-- Changes that ask for dependencies between artifacts that are there, and for nothing
else. -/
def Asks (t : Tree) (cs : List Change) : Prop :=
  ∀ c ∈ cs, ∃ r d, c = .addDependency r d ∧ r < t.size ∧ d < t.size

namespace Asks

variable {cs asked : List Change} {f : Folder}

theorem admits (h : t.Asks asked) : t.Admits asked := by
  induction asked generalizing t with
  | nil => trivial
  | cons c asked ih =>
      obtain ⟨r, d, rfl, hr, hd⟩ := h c List.mem_cons_self
      have hsize : (Change.apply t (.addDependency r d)).size = t.size :=
        (alike_apply t rfl).1.size_eq
      exact ⟨⟨hr, hd⟩, ih fun c hc => hsize ▸ h c (List.mem_cons_of_mem _ hc)⟩

theorem history_run (h : t.Asks asked) (ht : History f cs t) :
    History f (cs ++ asked) (t.run asked) :=
  ht.append h.admits

/-- Asking for dependencies keeps the artifacts. -/
theorem alike_run (h : t.Asks asked) (ht : History f cs t) : Alike (t.run asked) t := by
  have hnone : asked.filter Change.isAddition = [] := List.filter_eq_nil_iff.mpr fun c hc => by
    obtain ⟨r, d, rfl, -⟩ := h c hc
    exact Bool.false_ne_true
  have hadditions : (cs ++ asked).filter Change.isAddition = cs.filter Change.isAddition := by
    rw [List.filter_append, hnone, List.append_nil]
  exact (h.history_run ht).alike_run.trans (hadditions ▸ ht.alike_run.symm)

/-- The dependencies after asking are those there were and those that were asked for and
can be. -/
theorem mem_outgoing_run (h : t.Asks asked) (ht : History f cs t) :
    d ∈ ((t.run asked).links r).outgoing k ↔
      d ∈ (t.links r).outgoing k ∨
        (Change.addDependency r d ∈ asked ∧ t.classify? r d = some k) := by
  rw [(h.history_run ht).records.mem_outgoing, ht.records.mem_outgoing, Requested, Requested,
    List.mem_append, classify?_congr (h.alike_run ht).origin?, or_and_right]

end Asks

/-! ## Counting -/

/-- The dependencies of one class, by the artifacts they come from. -/
def edgesOf (t : Tree) (k : EdgeClass) : List (Nat × Nat) :=
  t.artifacts.toList.flatMap fun a => (a.links.outgoing k).map fun d => (a.id, d)

theorem length_edgesOf (t : Tree) (k : EdgeClass) : (t.edgesOf k).length = t.edgeCount k := by
  rw [edgesOf, edgeCount]
  induction t.artifacts.toList with
  | nil => rfl
  | cons a as ih => simp [ih]

theorem WellFormed.mem_edgesOf (h : t.WellFormed) (k : EdgeClass) (p : Nat × Nat) :
    p ∈ t.edgesOf k ↔ p.2 ∈ (t.links p.1).outgoing k := by
  obtain ⟨r, d⟩ := p
  rw [edgesOf, List.mem_flatMap]
  constructor
  · rintro ⟨a, ha, hp⟩
    obtain ⟨i, hi, hget⟩ := Array.mem_iff_getElem.mp (Array.mem_toList_iff.mp ha)
    have hget : t.get? i = some a := by rw [get?, Array.getElem?_eq_getElem hi, hget]
    obtain ⟨e, he, heq⟩ := List.mem_map.mp hp
    obtain ⟨rfl, rfl⟩ := Prod.mk.inj heq
    simpa [links, h.id_eq i a hget, hget] using he
  · intro hd
    cases hget : t.get? r with
    | none => simp [links, hget] at hd
    | some a =>
        refine ⟨a, Array.mem_toList_iff.mpr (Array.mem_of_getElem? hget), ?_⟩
        rw [links, hget] at hd
        exact List.mem_map.mpr ⟨d, hd, by rw [h.id_eq r a hget]⟩

theorem WellFormed.nodup_edgesOf (h : t.WellFormed)
    (hlinks : ∀ i k, ((t.links i).outgoing k).Pairwise (· < ·)) (k : EdgeClass) :
    (t.edgesOf k).Nodup := by
  have hget : ∀ i (hi : i < t.artifacts.toList.length), t.get? i = some t.artifacts.toList[i] := by
    intro i hi
    rw [get?, ← Array.getElem?_toList, List.getElem?_eq_getElem hi]
  refine List.nodup_flatMap.mpr ⟨?_, ?_⟩
  · intro a ha
    obtain ⟨i, hi, rfl⟩ := List.mem_iff_getElem.mp ha
    have hlinks := hlinks i k
    rw [links, hget i hi] at hlinks
    exact hlinks.nodup.map fun d e heq => (Prod.mk.inj heq).2
  · rw [List.pairwise_iff_getElem]
    intro i j hi hj hij p hp hp'
    obtain ⟨d, -, rfl⟩ := List.mem_map.mp hp
    obtain ⟨e, -, heq⟩ := List.mem_map.mp hp'
    have hid := (Prod.mk.inj heq).1
    rw [h.id_eq i _ (hget i hi), h.id_eq j _ (hget j hj)] at hid
    omega

/-- The count of a class is the number of pairs in it. -/
theorem WellFormed.edgeCount_eq_ncard (h : t.WellFormed)
    (hlinks : ∀ i k, ((t.links i).outgoing k).Pairwise (· < ·)) (k : EdgeClass) :
    t.edgeCount k = {p : Nat × Nat | p.2 ∈ (t.links p.1).outgoing k}.ncard := by
  have hset : {p : Nat × Nat | p.2 ∈ (t.links p.1).outgoing k} = (t.edgesOf k).toFinset := by
    ext p
    simp [h.mem_edgesOf]
  rw [hset, Set.ncard_coe_finset, List.toFinset_card_of_nodup (h.nodup_edgesOf hlinks k),
    length_edgesOf]

/-! ## Main statement -/

/-- The dependencies of a tree are those its history asked for between symbols of
which neither contains the other, and their class says whether the symbols share
their scope. So they stand at both ends and in one class only, they are counted
once, no later change takes one away, and neither repeating nor reordering requests
makes a difference. -/
theorem dependencies_are_those_requested {f : Folder} {cs : List Change} (h : History f cs t) :
    (∀ r d k, d ∈ (t.links r).outgoing k ↔ r ∈ (t.links d).incoming k) ∧
    (∀ r d k, d ∈ (t.links r).outgoing k ↔
      Change.addDependency r d ∈ cs ∧ t.isSymbol r = true ∧ t.isSymbol d = true ∧
        t.contains r d = false ∧ t.contains d r = false ∧
        (k = .inScope ↔ t.scopeOf? r = t.scopeOf? d)) ∧
    (∀ r d, ¬ (d ∈ (t.links r).outgoing .inScope ∧ d ∈ (t.links r).outgoing .external)) ∧
    (∀ k, t.edgeCount k = {p : Nat × Nat | Change.addDependency p.1 p.2 ∈ cs ∧
      t.isSymbol p.1 = true ∧ t.isSymbol p.2 = true ∧
        t.contains p.1 p.2 = false ∧ t.contains p.2 p.1 = false ∧
        (k = .inScope ↔ t.scopeOf? p.1 = t.scopeOf? p.2)}.ncard) ∧
    (∀ c : Change, c.Admissible t → ∀ r d k, d ∈ (t.links r).outgoing k →
      d ∈ ((c.apply t).links r).outgoing k) ∧
    ∀ ds t', History f ds t' → ds.filter Change.isAddition = cs.filter Change.isAddition →
      (∀ r d, Change.addDependency r d ∈ ds ↔ Change.addDependency r d ∈ cs) →
      ∀ i, t'.links i = t.links i := by
  have hrec := h.records
  have hout : ∀ r d k, d ∈ (t.links r).outgoing k ↔
      Change.addDependency r d ∈ cs ∧ t.isSymbol r = true ∧ t.isSymbol d = true ∧
        t.contains r d = false ∧ t.contains d r = false ∧
        (k = .inScope ↔ t.scopeOf? r = t.scopeOf? d) := fun r d k => by
    rw [hrec.mem_outgoing, Requested, classify?_eq_some_iff]
  refine ⟨?_, hout, ?_, ?_, ?_, ?_⟩
  · intro r d k
    rw [hrec.mem_outgoing, hrec.mem_incoming]
  · rintro r d ⟨hin, hex⟩
    rw [hrec.mem_outgoing] at hin hex
    cases hin.2.symm.trans hex.2
  · intro k
    rw [h.wellFormed.edgeCount_eq_ncard hrec.ascending_outgoing]
    congr 1
    ext p
    exact hout p.1 p.2 k
  · intro c hc r d k hd
    obtain ⟨hcs, hk⟩ := (hrec.requested_extends (extends_apply hc)).mpr
      ((hrec.mem_outgoing r d k).mp hd)
    exact ((hrec.apply hc).mem_outgoing r d k).mpr ⟨List.mem_append_left _ hcs, hk⟩
  · intro ds t' h' hadd hdep
    have halike : Alike t t' := h.alike_run.trans (hadd ▸ h'.alike_run.symm)
    refine hrec.links_eq h'.records fun r d k => ?_
    rw [Requested, hdep]
    exact hrec.requested_extends halike.to_extends

/-- A call that is asked for twice counts once, and what a file would be asked for
does not count. -/
theorem dependencies_are_those_requested_smallTree :
    smallTree.edgeCount .inScope = 3 ∧ 2 ∈ (smallTree.links 5).outgoing .inScope ∧
      5 ∈ (smallTree.links 2).incoming .inScope ∧ 1 ∉ (smallTree.links 5).outgoing .external ∧
      ∀ c : Change, c.Admissible smallTree → ∀ r d k, d ∈ (smallTree.links r).outgoing k →
        d ∈ ((c.apply smallTree).links r).outgoing k := by
  have hsmall : History smallFolder smallChanges smallTree := history_run (by decide +kernel)
  obtain ⟨hmirror, hout, -, -, hkept, -⟩ := dependencies_are_those_requested hsmall
  have hcall : 2 ∈ (smallTree.links 5).outgoing .inScope :=
    (hout 5 2 .inScope).mpr ⟨by simp [smallChanges], by decide +kernel⟩
  refine ⟨by decide +kernel, hcall, (hmirror 5 2 .inScope).mp hcall, fun h => ?_, hkept⟩
  exact absurd ((hout 5 1 .external).mp h).2 (by decide +kernel)

end Tree

end SourceAtlas
