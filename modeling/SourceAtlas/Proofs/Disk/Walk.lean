import SourceAtlas.Disk.Walk
import SourceAtlas.Proofs.Disk
/-!
# What a walk comes to

A walk may come to an entry where nothing on the way there is passed over (`Walk.Reaches`). A
walk is lawful that comes to nothing that is not there, and, where no ignore rules count, to
what it may come to and to nothing else (`Walk.Lawful`). Lawful walks may differ in the order of
what they come to. The walk that is used is lawful (`lawful_standard`): what it comes to inside
a folder is what a walk from that folder comes to, by settings that see it from there
(`visit_eq`, `reaches_cons_iff`).
-/

namespace SourceAtlas

namespace Disk

/-- What is below a place is what is there, seen from it. -/
theorem node?_append (d : Disk) (place steps : List String) :
    d.node? (place ++ steps) = (d.node? place).bind fun n => n.at? steps :=
  Node.at?_append d.root place steps

theorem node?_concat {d : Disk} {place : List String} {n : Node} (h : d.node? place = some n)
    (name : String) : d.node? (place ++ [name]) = n.entries.lookup name := by
  rw [node?_append, h, Option.bind_some, Node.at?_cons]
  exact Option.bind_fun_some _

theorem Node.nodup_entries {n : Node} (h : n.isProper = true) :
    (n.entries.map Prod.fst).Nodup := by
  cases n with
  | folder entries => exact (areProper_iff.mp h).2
  | file octets executable => exact List.nodup_nil
  | link target => exact List.nodup_nil

namespace Walk

/-- An entry is there, below the place of a walk or at it, and nothing on the way to it is passed
over: no hidden name where these are passed over, and nothing that is not to be kept. -/
structure Reaches (d : Disk) (s : Settings) (e : Entry) : Prop where
  isThere : d.node? (s.place ++ e.steps) = some e.node
  shown : s.skipHidden = true → ∀ name ∈ e.steps, name.toList.head? ≠ some '.'
  kept : ∀ before n, before ≠ [] → before <+: e.steps → d.node? (s.place ++ before) = some n →
    s.keeps ⟨before, n⟩ = true

/-- What is assumed of a walk over a disk that is proper: it comes to nothing that is not there,
and to all that it may come to and nothing else where no ignore rules count. -/
structure Lawful (walk : Walk) : Prop where
  isThere : ∀ {d : Disk} {s : Settings} {e : Entry}, d.root.isProper = true → e ∈ walk d s →
    d.node? (s.place ++ e.steps) = some e.node
  mem_iff : ∀ {d : Disk} {s : Settings} {e : Entry}, d.root.isProper = true →
    s.respectIgnoreRules = false → (e ∈ walk d s ↔ Reaches d s e)

variable {d : Disk} {s : Settings} {layers : List Ignore.Layer} {n m : Node} {step : String}
  {steps : List String}

theorem isShown_iff (hs : s.respectIgnoreRules = false) {name : String} {isFolder : Bool} :
    isShown s layers name isFolder = true ↔
      (s.skipHidden = true → name.toList.head? ≠ some '.') := by
  simp only [isShown, hs, isHidden]
  cases s.skipHidden <;> simp

/-! ## The first step -/

/-- The way to an entry starts with a step that is not passed over, and goes on from there. -/
theorem reaches_cons_iff : Reaches d s ⟨step :: steps, n⟩ ↔
    ∃ m, d.node? (s.place ++ [step]) = some m ∧
      (s.skipHidden = true → step.toList.head? ≠ some '.') ∧ s.keeps ⟨[step], m⟩ = true ∧
        Reaches d (s.inside step) ⟨steps, n⟩ := by
  have hplace : ∀ names, (s.inside step).place ++ names = s.place ++ step :: names :=
    fun names => List.append_assoc s.place [step] names
  constructor
  · rintro ⟨hthere, hshown, hkept⟩
    obtain ⟨m, hm, -⟩ : ∃ m, d.node? (s.place ++ [step]) = some m ∧ m.at? steps = some n := by
      rw [← List.singleton_append, ← List.append_assoc, node?_append] at hthere
      exact Option.bind_eq_some_iff.mp hthere
    refine ⟨m, hm, fun hskip => hshown hskip step List.mem_cons_self, ?_, ?_, ?_, ?_⟩
    · exact hkept [step] m (List.cons_ne_nil _ _) (List.prefix_append [step] steps) hm
    · rw [hplace, hthere]
    · exact fun hskip name hname => hshown hskip name (List.mem_cons_of_mem _ hname)
    · intro before k _ hbefore hk
      rw [hplace] at hk
      exact hkept (step :: before) k (List.cons_ne_nil _ _)
        (List.cons_prefix_cons.mpr ⟨rfl, hbefore⟩) hk
  · rintro ⟨m, hm, hstep, hkeeps, hthere, hshown, hkept⟩
    refine ⟨hplace steps ▸ hthere, fun hskip => ?_, ?_⟩
    · exact List.forall_mem_cons.mpr ⟨hstep hskip, hshown hskip⟩
    · intro before k hne hbefore hk
      obtain ⟨first, before, rfl⟩ := List.exists_cons_of_ne_nil hne
      obtain ⟨rfl, hrest⟩ := List.cons_prefix_cons.mp hbefore
      by_cases hnil : before = []
      · subst hnil
        cases hm.symm.trans hk
        exact hkeeps
      · exact hkept before k hnil hrest (hplace before ▸ hk)

/-- What a walk comes to by an entry of a folder is what it comes to from that entry on. -/
theorem visit_eq (d : Disk) (s : Settings) (layers : List Ignore.Layer) (name : String)
    (n : Node) : visit d s layers name n =
      if visits s layers name n then
        (within d (s.inside name) (layersInside d s name layers) n).map (Entry.below name)
      else [] := by
  cases n with
  | folder entries => rfl
  | file octets executable => rfl
  | link target => rfl

theorem visitAll_eq (d : Disk) (s : Settings) (layers : List Ignore.Layer)
    (entries : List (String × Node)) :
    visitAll d s layers entries =
      entries.flatMap fun entry => visit d s layers entry.1 entry.2 := by
  induction entries with
  | nil => rfl
  | cons entry rest ih =>
      obtain ⟨name, n⟩ := entry
      rw [visitAll, ih, List.flatMap_cons]

theorem mem_visitAll_iff {entries : List (String × Node)} {e : Entry} :
    e ∈ visitAll d s layers entries ↔
      ∃ name m, (name, m) ∈ entries ∧ visits s layers name m = true ∧
        ∃ f ∈ within d (s.inside name) (layersInside d s name layers) m, f.below name = e := by
  rw [visitAll_eq, List.mem_flatMap]
  constructor
  · rintro ⟨⟨name, m⟩, hentry, hmem⟩
    rw [visit_eq] at hmem
    split at hmem
    · next hvisits => exact ⟨name, m, hentry, hvisits, List.mem_map.mp hmem⟩
    · cases hmem
  · rintro ⟨name, m, hentry, hvisits, hmem⟩
    refine ⟨(name, m), hentry, ?_⟩
    rw [visit_eq, if_pos hvisits]
    exact List.mem_map.mpr hmem

theorem nil_mem_within_iff : ⟨[], m⟩ ∈ within d s layers n ↔ m = n := by
  rw [within, List.mem_cons, Entry.mk.injEq]
  refine ⟨?_, fun h => .inl ⟨rfl, h⟩⟩
  rintro (⟨-, h⟩ | hmem)
  · exact h
  · obtain ⟨name, m', -, -, f, -, heq⟩ := mem_visitAll_iff.mp hmem
    cases heq

theorem cons_mem_within_iff {k : Node} : ⟨step :: steps, k⟩ ∈ within d s layers n ↔
    ∃ m, (step, m) ∈ n.entries ∧ visits s layers step m = true ∧
      ⟨steps, k⟩ ∈ within d (s.inside step) (layersInside d s step layers) m := by
  rw [within, List.mem_cons, mem_visitAll_iff]
  constructor
  · rintro (heq | ⟨name, m, hentry, hvisits, ⟨names, k'⟩, hmem, heq⟩)
    · cases heq
    · cases heq
      exact ⟨m, hentry, hvisits, hmem⟩
  · rintro ⟨m, hentry, hvisits, hmem⟩
    exact .inr ⟨step, m, hentry, hvisits, _, hmem, rfl⟩

/-! ## All steps -/

section Proper

variable (hproper : d.root.isProper = true)

include hproper

theorem mem_entries_iff (hn : d.node? s.place = some n) :
    (step, m) ∈ n.entries ↔ d.node? (s.place ++ [step]) = some m := by
  rw [node?_concat hn,
    lookup_eq_some_iff_mem (Node.nodup_entries (Node.isProper_of_at?_eq_some hproper hn).1)]

theorem isThere_of_mem_within (hn : d.node? s.place = some n)
    (h : ⟨steps, m⟩ ∈ within d s layers n) : d.node? (s.place ++ steps) = some m := by
  induction steps generalizing s layers n with
  | nil => rw [nil_mem_within_iff.mp h, List.append_nil, hn]
  | cons step steps ih =>
      obtain ⟨k, hentry, -, hmem⟩ := cons_mem_within_iff.mp h
      rw [← ih (s := s.inside step) ((mem_entries_iff hproper hn).mp hentry) hmem]
      exact congrArg d.node? (List.append_assoc s.place [step] steps).symm

theorem mem_within_iff (hs : s.respectIgnoreRules = false) (hn : d.node? s.place = some n) :
    ⟨steps, m⟩ ∈ within d s layers n ↔ Reaches d s ⟨steps, m⟩ := by
  induction steps generalizing s layers n with
  | nil =>
      rw [nil_mem_within_iff]
      constructor
      · rintro rfl
        refine ⟨by rw [List.append_nil, hn], fun _ => nofun, fun before k hne hbefore _ => ?_⟩
        exact absurd (List.prefix_nil.mp hbefore) hne
      · rintro ⟨hthere, -, -⟩
        rw [List.append_nil, hn] at hthere
        exact (Option.some.inj hthere).symm
  | cons step steps ih =>
      rw [cons_mem_within_iff, reaches_cons_iff]
      refine exists_congr fun k => ?_
      rw [mem_entries_iff hproper hn, visits, Bool.and_eq_true_iff, isShown_iff hs, and_assoc]
      refine and_congr_right fun hk => and_congr_right fun _ => and_congr_right fun _ => ?_
      exact ih (s := s.inside step) hs hk

end Proper

theorem lawful_standard : standard.Lawful where
  isThere := by
    rintro d s ⟨steps, m⟩ hproper hmem
    rw [standard] at hmem
    split at hmem
    · next n hn => exact isThere_of_mem_within hproper hn hmem
    · cases hmem
  mem_iff := by
    rintro d s ⟨steps, m⟩ hproper hs
    rw [standard]
    split
    · next n hn => exact mem_within_iff hproper hs hn
    · next hnone =>
        -- where there is nothing at the place there is nothing below it
        refine iff_of_false List.not_mem_nil fun hreaches => ?_
        have hthere := hreaches.isThere
        rw [node?_append, hnone] at hthere
        cases hthere

end Walk

end Disk

end SourceAtlas
