import Mathlib.Data.List.Forall2
import SourceAtlas.Proofs.Tree.Dependencies
import SourceAtlas.Proofs.Tree.Printed
import SourceAtlas.Proofs.Tree.Traversal
/-!
# Snapshots and printed trees

A snapshot counts down the levels it may still go, the printed tree counts up to the limit, and
both show the same artifacts on the same levels (`WellFormed.exists_snapshot`). The level of an
artifact is the number of scopes up to the root (`ancestor?`). Shown are the artifacts within
the limit, each once, before what is in it and with parts in their order
(`WellFormed.showsLevels`). Without a limit that is every artifact there is, and so the copies
tell every dependency (`WellFormed.mem_edges_iff`).
-/

namespace SourceAtlas

namespace Snapshot

mutual

/-- A copy and all copies in it, each with its level and before its parts. -/
def preorder (level : Nat) : Snapshot → List (Nat × Snapshot)
  | ⟨id, name, kind, range, metrics, inScope, external, parts⟩ =>
      (level, ⟨id, name, kind, range, metrics, inScope, external, parts⟩) ::
        preorderAll (level + 1) parts

def preorderAll (level : Nat) : List Snapshot → List (Nat × Snapshot)
  | [] => []
  | s :: ss => preorder level s ++ preorderAll level ss

end

theorem preorderAll_eq (level : Nat) (ss : List Snapshot) :
    preorderAll level ss = ss.flatMap (preorder level) := by
  induction ss with
  | nil => rfl
  | cons s ss ih => rw [preorderAll, ih, List.flatMap_cons]

theorem preorder_eq (level : Nat) (s : Snapshot) :
    s.preorder level = (level, s) :: s.parts.flatMap (preorder (level + 1)) := by
  obtain ⟨id, name, kind, range, metrics, inScope, external, parts⟩ := s
  rw [preorder, preorderAll_eq]

/-- The line of a copy: two spaces for each level, its name, its kind, and all measures of it
that stand on a line. -/
def Line (level : Nat) (s : Snapshot) (line : String) : Prop :=
  ∃ measures, s.metrics.Lists measures ∧
    line = String.ofList (List.replicate (2 * level) ' ') ++ s.name ++ " [" ++ s.kind ++ "]" ++
      String.join (measures.map fun entry => " " ++ entry.1 ++ "=" ++ entry.2) ++ "\n"

def dependsOn (s : Snapshot) : EdgeClass → List Nat
  | .inScope => s.dependsOnInScope
  | .external => s.dependsOnExternal

/-- The dependencies that a copy and the copies in it tell, each with the artifact it is told
of. -/
def edges (k : EdgeClass) (copy : Snapshot) : List (Nat × Nat) :=
  (copy.preorder 0).flatMap fun shown => (shown.2.dependsOn k).map fun d => (shown.2.id, d)

/-- A copy says of an artifact what there is to say. -/
structure Shows (s : Snapshot) (a : Artifact) : Prop where
  id_eq : s.id = a.id
  name_eq : s.name = a.name
  kind_eq : s.kind = a.content.label
  range_eq : s.range = a.content.facts?.map SymbolFacts.range
  metrics_eq : s.metrics = a.metrics
  dependsOn_eq : ∀ k, s.dependsOn k = a.links.outgoing k

theorem shows_snapshotOf (a : Artifact) (parts : List Snapshot) :
    (Tree.snapshotOf a parts).Shows a :=
  ⟨rfl, rfl, rfl, rfl, rfl, fun k => by cases k <;> rfl⟩

theorem Shows.line {s : Snapshot} {a : Artifact} (h : s.Shows a) (level : Nat) :
    s.Line level (Tree.renderLine level a) := by
  obtain ⟨measures, hlists, hsummary⟩ := s.metrics.exists_lists_summary
  refine ⟨measures, hlists, ?_⟩
  rw [← hsummary, h.name_eq, h.kind_eq, h.metrics_eq, Tree.renderLine]
  simp only [String.append_assoc]
  rfl

end Snapshot

theorem map_eq_of_forall₂ {α β γ : Type} {R : α → β → Prop} {f : α → γ} {g : β → γ}
    {as : List α} {bs : List β} (h : List.Forall₂ R as bs) (heq : ∀ ⦃a b⦄, R a b → f a = g b) :
    as.map f = bs.map g :=
  List.forall₂_eq_eq_eq.le _ _ (List.rel_map heq h)

namespace Tree

variable {t : Tree} {depth : Option Nat} {a b c level n p q s x y : Nat} {cs : List Change}
  {copy : Snapshot}

/-! ## Counting down and counting up -/

/-- The artifacts from `id` down to a depth, where `id` itself is on the given level. -/
def levelsFrom (t : Tree) (depth : Option Nat) (id level : Nat) : List (Nat × Nat) :=
  t.fold (fun a below level =>
    (level, a) ::
      if depth.any fun limit => limit ≤ level then []
      else below.flatMap fun part => part (level + 1)) id level

theorem WellFormed.levelsFrom_eq (h : t.WellFormed) (depth : Option Nat) (a level : Nat) :
    t.levelsFrom depth a level = (level, a) ::
      if depth.any fun limit => limit ≤ level then []
      else (t.parts a).flatMap fun p => t.levelsFrom depth p (level + 1) := by
  rw [levelsFrom, h.fold_eq, List.flatMap_map]
  rfl

theorem WellFormed.levelsFrom_of_lt (h : t.WellFormed) (hopen : ∀ limit ∈ depth, level < limit) :
    t.levelsFrom depth a level =
      (level, a) :: (t.parts a).flatMap fun p => t.levelsFrom depth p (level + 1) := by
  rw [h.levelsFrom_eq, if_neg]
  simpa [Option.any_eq_true] using hopen

theorem WellFormed.snapshot?_zero (h : t.WellFormed) (a : Nat) :
    t.snapshot? a (some 0) = (t.get? a).map fun artifact => snapshotOf artifact [] := by
  rw [snapshot?, h.fold_eq]

theorem WellFormed.snapshot?_eq (h : t.WellFormed) (a : Nat) (hdepth : depth ≠ some 0) :
    t.snapshot? a depth = (t.get? a).map fun artifact =>
      snapshotOf artifact ((t.parts a).filterMap fun p => t.snapshot? p (depth.map (· - 1))) := by
  rw [snapshot?, h.fold_eq]
  cases depth with
  | none =>
      simp only [List.filterMap_map]
      rfl
  | some d =>
      cases d with
      | zero => exact absurd rfl hdepth
      | succ d =>
          simp only [List.filterMap_map]
          rfl

/-- A copy stands for the artifact on the same level. -/
def Shown (t : Tree) (copy : Nat × Snapshot) (entry : Nat × Nat) : Prop :=
  copy.1 = entry.1 ∧ ∃ artifact, t.get? entry.2 = some artifact ∧ copy.2.Shows artifact

/-- Counting down from a level to the limit shows the same artifacts as counting up to it. -/
theorem WellFormed.exists_snapshot (h : t.WellFormed) (ha : a < t.size) (depth : Option Nat)
    (level : Nat) :
    ∃ copy, t.snapshot? a depth = some copy ∧
      List.Forall₂ t.Shown (copy.preorder level)
        (t.levelsFrom (depth.map (level + ·)) a level) := by
  induction a using h.wellFounded_parts.induction generalizing depth level with
  | _ a ih =>
      obtain ⟨artifact, hget⟩ := t.exists_get? ha
      by_cases hdepth : depth = some 0
      · subst hdepth
        refine ⟨_, by rw [h.snapshot?_zero, hget, Option.map_some], ?_⟩
        rw [Snapshot.preorder_eq, h.levelsFrom_eq, if_pos (by simp)]
        exact .cons ⟨rfl, artifact, hget, Snapshot.shows_snapshotOf artifact []⟩ .nil
      · have hlimit : (depth.map (· - 1)).map (level + 1 + ·) = depth.map (level + ·) := by
          cases depth with
          | none => rfl
          | some d =>
              have hd : d ≠ 0 := fun heq => hdepth (congrArg some heq)
              simp only [Option.map_some]
              congr 1
              omega
        have hopen : ∀ limit ∈ depth.map (level + ·), level < limit := by
          intro limit hlimit
          obtain ⟨d, rfl, rfl⟩ := Option.map_eq_some_iff.mp hlimit
          exact Nat.lt_add_of_pos_right (Nat.pos_of_ne_zero fun heq => hdepth (congrArg some heq))
        have hparts : ∀ ps : List Nat, (∀ p ∈ ps, p ∈ t.parts a) →
            List.Forall₂ t.Shown
              ((ps.filterMap fun p => t.snapshot? p (depth.map (· - 1))).flatMap
                (Snapshot.preorder (level + 1)))
              (ps.flatMap fun p => t.levelsFrom (depth.map (level + ·)) p (level + 1)) := by
          intro ps hps
          induction ps with
          | nil => exact .nil
          | cons p ps ihps =>
              have hp := hps p List.mem_cons_self
              obtain ⟨copy, hcopy, hshown⟩ := ih p hp (h.lt_size_of_mem_parts hp)
                (depth.map (· - 1)) (level + 1)
              rw [hlimit] at hshown
              rw [List.filterMap_cons, hcopy, List.flatMap_cons, List.flatMap_cons]
              exact List.rel_append hshown (ihps fun q hq => hps q (List.mem_cons_of_mem p hq))
        refine ⟨_, by rw [h.snapshot?_eq a hdepth, hget, Option.map_some], ?_⟩
        rw [Snapshot.preorder_eq, h.levelsFrom_of_lt hopen]
        exact .cons ⟨rfl, artifact, hget, Snapshot.shows_snapshotOf artifact _⟩
          (hparts (t.parts a) fun _ => id)

/-! ## Levels -/

/-- The artifact that so many scopes lead up to. -/
def ancestor? (t : Tree) : Nat → Nat → Option Nat
  | 0, i => some i
  | n + 1, i => (t.ancestor? n i).bind t.scopeOf?

theorem ancestor?_succ_eq_some_iff : t.ancestor? (n + 1) b = some a ↔
    ∃ p, t.PartOf p a ∧ t.ancestor? n b = some p := by
  rw [ancestor?, Option.bind_eq_some_iff]
  exact exists_congr fun p => and_comm

theorem WellFormed.exists_ancestor (h : t.WellFormed) (hab : t.contains a b = true) :
    ∃ n, t.ancestor? n b = some a := by
  induction h.contains_iff.mp hab with
  | refl => exact ⟨0, rfl⟩
  | tail hbp hpa ih =>
      obtain ⟨n, hn⟩ := ih (h.contains_iff.mpr hbp)
      exact ⟨n + 1, ancestor?_succ_eq_some_iff.mpr ⟨_, hpa, hn⟩⟩

theorem WellFormed.contains_of_ancestor (h : t.WellFormed) (hab : t.ancestor? n b = some a) :
    t.contains a b = true := by
  induction n generalizing a with
  | zero =>
      obtain rfl := Option.some.inj hab
      exact h.contains_self b
  | succ n ih =>
      obtain ⟨p, hpa, hpb⟩ := ancestor?_succ_eq_some_iff.mp hab
      exact h.contains_trans (h.contains_of_mem_parts ((h.mem_parts_iff a p).mpr hpa)) (ih hpb)

theorem ancestor?_add (t : Tree) (m n i : Nat) :
    t.ancestor? (n + m) i = (t.ancestor? n i).bind (t.ancestor? m) := by
  induction m with
  | zero =>
      rw [Nat.add_zero]
      cases t.ancestor? n i <;> rfl
  | succ m ih =>
      rw [← Nat.add_assoc, ancestor?, ih, Option.bind_assoc]
      rfl

/-- No artifact is around itself. -/
theorem WellFormed.eq_zero_of_ancestor?_self (h : t.WellFormed) (ha : t.ancestor? n a = some a) :
    n = 0 := by
  cases n with
  | zero => rfl
  | succ n =>
      obtain ⟨p, hpa, hap⟩ := ancestor?_succ_eq_some_iff.mp ha
      have hle := h.le_of_contains (h.contains_of_ancestor hap)
      exact absurd (h.scope_lt p a hpa) (Nat.not_lt.mpr hle)

/-- No artifact is on two levels below another one. -/
theorem WellFormed.ancestor?_inj (h : t.WellFormed) {m n : Nat} (hm : t.ancestor? m b = some a)
    (hn : t.ancestor? n b = some a) : m = n := by
  have heq_of_le : ∀ {m n : Nat}, m ≤ n → t.ancestor? m b = some a → t.ancestor? n b = some a →
      m = n := by
    intro m n hle hm hn
    obtain ⟨d, rfl⟩ := Nat.exists_eq_add_of_le hle
    rw [ancestor?_add, hm, Option.bind_some] at hn
    rw [h.eq_zero_of_ancestor?_self hn, Nat.add_zero]
  rcases Nat.le_total m n with hle | hle
  · exact heq_of_le hle hm hn
  · exact (heq_of_le hle hn hm).symm

/-! ## What is shown -/

theorem WellFormed.ancestor?_of_mem_levelsFrom (h : t.WellFormed)
    (hmem : (n, b) ∈ t.levelsFrom depth a level) :
    ∃ m, n = level + m ∧ t.ancestor? m b = some a := by
  induction a using h.wellFounded_parts.induction generalizing level with
  | _ a ih =>
      rw [h.levelsFrom_eq, List.mem_cons] at hmem
      rcases hmem with heq | hmem
      · obtain ⟨rfl, rfl⟩ := Prod.mk.inj heq
        exact ⟨0, rfl, rfl⟩
      · split at hmem
        · cases hmem
        · obtain ⟨p, hp, hmem⟩ := List.mem_flatMap.mp hmem
          obtain ⟨m, rfl, hm⟩ := ih p hp hmem
          exact ⟨m + 1, Nat.add_right_comm level 1 m,
            ancestor?_succ_eq_some_iff.mpr ⟨p, (h.mem_parts_iff a p).mp hp, hm⟩⟩

theorem WellFormed.le_of_mem_levelsFrom (h : t.WellFormed)
    (hlevel : ∀ limit ∈ depth, level ≤ limit) (hmem : (n, b) ∈ t.levelsFrom depth a level) :
    ∀ limit ∈ depth, n ≤ limit := by
  induction a using h.wellFounded_parts.induction generalizing level with
  | _ a ih =>
      rw [h.levelsFrom_eq, List.mem_cons] at hmem
      rcases hmem with heq | hmem
      · obtain ⟨rfl, rfl⟩ := Prod.mk.inj heq
        exact hlevel
      · split at hmem
        · cases hmem
        · next hopen =>
            obtain ⟨p, hp, hmem⟩ := List.mem_flatMap.mp hmem
            refine ih p hp (fun limit hlimit => Nat.not_le.mp fun hle => hopen ?_) hmem
            exact (Option.any_eq_true _ _).mpr ⟨limit, hlimit, decide_eq_true hle⟩

/-- What is below an artifact and within the limit is shown. -/
theorem WellFormed.mem_levelsFrom (h : t.WellFormed) (hb : t.ancestor? n b = some a)
    (hlimit : ∀ limit ∈ depth, level + n ≤ limit) :
    (level + n, b) ∈ t.levelsFrom depth a level := by
  induction a using h.wellFounded_parts.induction generalizing level n with
  | _ a ih =>
      cases n with
      | zero =>
          obtain rfl := Option.some.inj hb
          rw [h.levelsFrom_eq]
          exact List.mem_cons_self
      | succ n =>
          obtain ⟨p, hpa, hpb⟩ := ancestor?_succ_eq_some_iff.mp hb
          have hp := (h.mem_parts_iff a p).mpr hpa
          rw [Nat.add_comm n 1, ← Nat.add_assoc] at hlimit ⊢
          rw [h.levelsFrom_of_lt fun limit hmem =>
            Nat.lt_of_lt_of_le (Nat.lt_add_right n (Nat.lt_succ_self level)) (hlimit limit hmem)]
          exact List.mem_cons_of_mem _ (List.mem_flatMap.mpr ⟨p, hp, ih p hp hpb hlimit⟩)

/-- What is shown of an artifact is a stretch of what is shown of those around it. -/
theorem WellFormed.levelsFrom_infix (h : t.WellFormed)
    (hmem : (n, b) ∈ t.levelsFrom depth a level) :
    t.levelsFrom depth b n <:+: t.levelsFrom depth a level := by
  induction a using h.wellFounded_parts.induction generalizing level with
  | _ a ih =>
      have heq := h.levelsFrom_eq depth a level
      rw [heq, List.mem_cons] at hmem
      rcases hmem with hhead | hmem
      · obtain ⟨rfl, rfl⟩ := Prod.mk.inj hhead
        exact List.infix_rfl
      · rw [heq]
        split at hmem
        · cases hmem
        · next hopen =>
            obtain ⟨p, hp, hmem⟩ := List.mem_flatMap.mp hmem
            rw [if_neg hopen]
            have hpart : t.levelsFrom depth p (level + 1) <:+:
                (t.parts a).flatMap fun p => t.levelsFrom depth p (level + 1) := by
              rw [List.flatMap_def]
              exact List.infix_of_mem_flatten (List.mem_map_of_mem hp)
            exact ((ih p hp hmem).trans hpart).trans (List.suffix_cons _ _).isInfix

theorem WellFormed.nodup_levelsFrom (h : t.WellFormed) (depth : Option Nat) (a level : Nat) :
    ((t.levelsFrom depth a level).map Prod.snd).Nodup := by
  have hcontains : ∀ {p d l}, d ∈ (t.levelsFrom depth p l).map Prod.snd →
      t.contains p d = true := by
    intro p d l hd
    obtain ⟨⟨n, b⟩, hmem, rfl⟩ := List.mem_map.mp hd
    obtain ⟨m, -, hm⟩ := h.ancestor?_of_mem_levelsFrom hmem
    exact h.contains_of_ancestor hm
  induction a using h.wellFounded_parts.induction generalizing level with
  | _ a ih =>
      rw [h.levelsFrom_eq]
      split
      · exact List.nodup_singleton a
      · rw [List.map_cons, List.map_flatMap, List.nodup_cons]
        refine ⟨fun hmem => ?_, List.nodup_flatMap.mpr ⟨fun p hp => ih p hp (level + 1), ?_⟩⟩
        · obtain ⟨p, hp, hpa⟩ := List.mem_flatMap.mp hmem
          exact absurd (h.le_of_contains (hcontains hpa)) (Nat.not_le.mpr (h.lt_of_mem_parts hp))
        · refine (h.nodup_parts a).imp_of_mem fun {p q} hp hq hne d hpd hqd => hne ?_
          exact h.eq_of_contains hp hq (hcontains hpd) (hcontains hqd)

/-! ## The order in which artifacts are shown -/

/-- What is in a shown artifact and is shown itself is among what is shown from there. -/
theorem WellFormed.mem_levelsFrom_of_contains (h : t.WellFormed)
    (hlevel : ∀ limit ∈ depth, level ≤ limit) {m n : Nat}
    (hb : (n, b) ∈ t.levelsFrom depth a level) (hc : (m, c) ∈ t.levelsFrom depth a level)
    (hbc : t.contains b c = true) : (m, c) ∈ t.levelsFrom depth b n := by
  have hlimit := h.le_of_mem_levelsFrom hlevel hc
  obtain ⟨i, rfl, hi⟩ := h.ancestor?_of_mem_levelsFrom hb
  obtain ⟨j, rfl, hj⟩ := h.ancestor?_of_mem_levelsFrom hc
  obtain ⟨d, hd⟩ := h.exists_ancestor hbc
  have hchain : t.ancestor? (d + i) c = some a := by rw [ancestor?_add, hd, Option.bind_some, hi]
  obtain rfl : j = d + i := h.ancestor?_inj hj hchain
  rw [Nat.add_comm d i, ← Nat.add_assoc] at hlimit ⊢
  exact h.mem_levelsFrom hd hlimit

/-- An artifact is shown before what is in it. -/
theorem WellFormed.pair_sublist_of_contains (h : t.WellFormed)
    (hlevel : ∀ limit ∈ depth, level ≤ limit) {m n : Nat}
    (hb : (n, b) ∈ t.levelsFrom depth a level) (hc : (m, c) ∈ t.levelsFrom depth a level)
    (hbc : t.contains b c = true) (hne : b ≠ c) :
    [(n, b), (m, c)].Sublist (t.levelsFrom depth a level) := by
  have hmem := h.mem_levelsFrom_of_contains hlevel hb hc hbc
  refine List.Sublist.trans ?_ (h.levelsFrom_infix hb).sublist
  rw [h.levelsFrom_eq, List.mem_cons] at hmem
  rw [h.levelsFrom_eq]
  have htail := hmem.resolve_left fun heq => hne (congrArg Prod.snd heq).symm
  exact (List.singleton_sublist.mpr htail).cons_cons _

/-- What is in an earlier part is shown before what is in a later one. -/
theorem WellFormed.pair_sublist_of_parts (h : t.WellFormed)
    (hlevel : ∀ limit ∈ depth, level ≤ limit) {m n : Nat} (has : t.contains a s = true)
    (hpq : [p, q].Sublist (t.parts s)) (hx : (n, x) ∈ t.levelsFrom depth a level)
    (hy : (m, y) ∈ t.levelsFrom depth a level) (hpx : t.contains p x = true)
    (hqy : t.contains q y = true) :
    [(n, x), (m, y)].Sublist (t.levelsFrom depth a level) := by
  obtain ⟨i, hi⟩ := h.exists_ancestor has
  -- The parts are one level below `s`, and no deeper than what is shown of them.
  have hpart : ∀ {r z l}, r ∈ t.parts s → t.contains r z = true →
      (l, z) ∈ t.levelsFrom depth a level → (∀ limit ∈ depth, level + i < limit) ∧
        (l, z) ∈ t.levelsFrom depth r (level + i + 1) := by
    intro r z l hr hrz hz
    have hlimit := h.le_of_mem_levelsFrom hlevel hz
    obtain ⟨j, rfl, hj⟩ := h.ancestor?_of_mem_levelsFrom hz
    obtain ⟨d, hd⟩ := h.exists_ancestor hrz
    have hrs : t.ancestor? 1 r = some s := (h.mem_parts_iff s r).mp hr
    have hra : t.ancestor? (1 + i) r = some a := by
      rw [ancestor?_add, hrs, Option.bind_some, hi]
    have hchain : t.ancestor? (d + (1 + i)) z = some a := by
      rw [ancestor?_add, hd, Option.bind_some, hra]
    obtain rfl : j = d + (1 + i) := h.ancestor?_inj hj hchain
    have heq : level + (d + (1 + i)) = level + i + 1 + d := by omega
    rw [heq] at hlimit ⊢
    exact ⟨fun limit hmem => Nat.lt_of_lt_of_le (by omega) (hlimit limit hmem),
      h.mem_levelsFrom hd hlimit⟩
  have hp : p ∈ t.parts s := hpq.subset (by simp)
  have hq : q ∈ t.parts s := hpq.subset (by simp)
  obtain ⟨hopen, hx'⟩ := hpart hp hpx hx
  obtain ⟨-, hy'⟩ := hpart hq hqy hy
  have hs : (level + i, s) ∈ t.levelsFrom depth a level :=
    h.mem_levelsFrom hi fun limit hmem => (hopen limit hmem).le
  have hparts : [(n, x), (m, y)].Sublist
      ((t.parts s).flatMap fun r => t.levelsFrom depth r (level + i + 1)) := by
    refine List.Sublist.trans ?_ (hpq.flatMap _)
    rw [List.flatMap_cons, List.flatMap_singleton]
    exact (List.singleton_sublist.mpr hx').append (List.singleton_sublist.mpr hy')
  have hstretch := h.levelsFrom_infix hs
  rw [h.levelsFrom_of_lt hopen] at hstretch
  exact (hparts.trans (List.sublist_cons_self _ _)).trans hstretch.sublist

/-- The artifacts up to a level, each once and on its level, are listed from the root down:
every artifact before what is in it, and parts in their order. -/
structure ShowsLevels (t : Tree) (depth : Option Nat) (entries : List (Nat × Nat)) : Prop where
  mem_iff : ∀ n b, (n, b) ∈ entries ↔
    t.ancestor? n b = some root ∧ ∀ limit ∈ depth, n ≤ limit
  nodup : (entries.map Prod.snd).Nodup
  below_last : ∀ n b m c, (n, b) ∈ entries → (m, c) ∈ entries → t.contains b c = true → b ≠ c →
    [(n, b), (m, c)].Sublist entries
  parts_in_order : ∀ s p q, [p, q].Sublist (t.parts s) → ∀ n x m y, (n, x) ∈ entries →
    (m, y) ∈ entries → t.contains p x = true → t.contains q y = true →
      [(n, x), (m, y)].Sublist entries

theorem WellFormed.showsLevels (h : t.WellFormed) (depth : Option Nat) :
    t.ShowsLevels depth (t.levels root depth) where
  mem_iff n b := by
    have hlevel : ∀ limit ∈ depth, 0 ≤ limit := fun limit _ => Nat.zero_le limit
    constructor
    · intro hmem
      obtain ⟨m, rfl, hm⟩ := h.ancestor?_of_mem_levelsFrom hmem
      exact ⟨by rwa [Nat.zero_add], h.le_of_mem_levelsFrom hlevel hmem⟩
    · rintro ⟨hb, hlimit⟩
      have hmem : (0 + n, b) ∈ t.levelsFrom depth root 0 :=
        h.mem_levelsFrom hb (by rwa [Nat.zero_add])
      rwa [Nat.zero_add] at hmem
  nodup := h.nodup_levelsFrom depth root 0
  below_last n b m c hb hc hbc hne :=
    h.pair_sublist_of_contains (fun limit _ => Nat.zero_le limit) hb hc hbc hne
  parts_in_order s p q hpq n x m y hx hy hpx hqy := by
    have hs : s < t.size :=
      (h.lt_of_mem_parts (hpq.subset (by simp) : p ∈ t.parts s)).trans
        (h.lt_size_of_mem_parts (hpq.subset (by simp)))
    exact h.pair_sublist_of_parts (fun limit _ => Nat.zero_le limit) (h.contains_root hs) hpq hx hy
      hpx hqy

/-! ## Dependencies -/

theorem WellFormed.edges_eq (h : t.WellFormed) (k : EdgeClass)
    (hshown : List.Forall₂ t.Shown (copy.preorder 0) (t.levels root depth)) :
    copy.edges k = ((t.levels root depth).map Prod.snd).flatMap fun r =>
      ((t.links r).outgoing k).map fun d => (r, d) := by
  rw [Snapshot.edges, List.flatMap_map, List.flatMap_def, List.flatMap_def]
  refine congrArg List.flatten (map_eq_of_forall₂ hshown ?_)
  rintro ⟨level, s⟩ ⟨level', r⟩ ⟨-, artifact, hget, hshows⟩
  obtain rfl : artifact.id = r := h.id_eq r artifact hget
  rw [hshows.dependsOn_eq, hshows.id_eq, links, hget]

theorem WellFormed.nodup_edges (h : t.WellFormed) (hrec : Records cs t) (k : EdgeClass)
    (hshown : List.Forall₂ t.Shown (copy.preorder 0) (t.levels root depth)) :
    (copy.edges k).Nodup := by
  rw [h.edges_eq k hshown]
  refine List.nodup_flatMap.mpr ⟨fun r _ => ?_, ?_⟩
  · exact (hrec.ascending_outgoing r k).nodup.map (Prod.mk_right_injective r)
  · refine (h.showsLevels depth).nodup.imp fun hne e he he' => hne ?_
    obtain ⟨d, -, rfl⟩ := List.mem_map.mp he
    obtain ⟨d', -, heq⟩ := List.mem_map.mp he'
    exact (Prod.mk.inj heq).1.symm

theorem WellFormed.mem_edges_iff (h : t.WellFormed) (k : EdgeClass)
    (hshown : List.Forall₂ t.Shown (copy.preorder 0) (t.levels root none)) {r d : Nat} :
    (r, d) ∈ copy.edges k ↔ d ∈ (t.links r).outgoing k := by
  rw [h.edges_eq k hshown, List.mem_flatMap]
  constructor
  · rintro ⟨r', -, hmem⟩
    obtain ⟨d', hd, heq⟩ := List.mem_map.mp hmem
    obtain ⟨rfl, rfl⟩ := Prod.mk.inj heq
    exact hd
  · intro hd
    have hr : r < t.size := by
      by_contra hle
      simp [links_of_size_le (Nat.not_lt.mp hle)] at hd
    obtain ⟨n, hn⟩ := h.exists_ancestor (h.contains_root hr)
    have hmem := ((h.showsLevels none).mem_iff n r).mpr ⟨hn, by simp⟩
    exact ⟨r, List.mem_map_of_mem hmem, List.mem_map.mpr ⟨d, hd, rfl⟩⟩

/-! ## Main statement -/

theorem exists_lines_of_shown
    (hshown : List.Forall₂ t.Shown (copy.preorder 0) (t.levels root depth)) :
    ∃ lines, t.render depth = String.join lines ∧
      List.Forall₂ (fun shown line => shown.2.Line shown.1 line) (copy.preorder 0) lines := by
  refine ⟨_, rfl, List.forall₂_map_right_iff.mpr (hshown.imp ?_)⟩
  rintro ⟨level, s⟩ ⟨level', r⟩ ⟨rfl, artifact, hget, hshows⟩
  dsimp only
  rw [hget]
  exact hshows.line level

/-- For every depth the snapshot of a tree and the printed tree show the same artifacts: copy by
copy what stands line by line, and these are the artifacts up to that level, from the root down
and parts in their order. Without a limit the copies tell every dependency once. -/
theorem snapshot_shows_what_is_printed {f : Folder} {cs : List Change} (h : History f cs t)
    (depth : Option Nat) :
    ∃ copy, t.snapshot? root depth = some copy ∧
      List.Forall₂ t.Shown (copy.preorder 0) (t.levels root depth) ∧
      (∃ lines, t.render depth = String.join lines ∧
        List.Forall₂ (fun shown line => shown.2.Line shown.1 line) (copy.preorder 0) lines) ∧
      t.ShowsLevels depth (t.levels root depth) ∧
      (∀ i < t.size, ∃! n, t.ancestor? n i = some root) ∧
      (depth = none → ∀ k, (copy.edges k).Nodup ∧
        ∀ r d, (r, d) ∈ copy.edges k ↔ d ∈ (t.links r).outgoing k) := by
  have hwf := h.wellFormed
  obtain ⟨copy, hcopy, hshown⟩ := hwf.exists_snapshot hwf.root_lt_size depth 0
  have hdepth : depth.map (0 + ·) = depth := by cases depth <;> simp
  rw [hdepth] at hshown
  refine ⟨copy, hcopy, hshown, exists_lines_of_shown hshown, hwf.showsLevels depth,
    fun i hi => ?_, ?_⟩
  · obtain ⟨n, hn⟩ := hwf.exists_ancestor (hwf.contains_root hi)
    exact ⟨n, hn, fun m hm => hwf.ancestor?_inj hm hn⟩
  · rintro rfl k
    exact ⟨hwf.nodup_edges h.records k hshown, fun r d => hwf.mem_edges_iff k hshown⟩

/-- Four functions of one file, measured. -/
def measuredChanges : List Change := smallChanges ++ [.computeMetrics]

def measuredTree : Tree := (ofFolder smallFolder).run measuredChanges

/-- With a limit of one level the nested folder shows itself, its folder and its file, and without
a limit the call from one file into the other one is told. The lines of a measured tree show its
measures. -/
theorem snapshot_shows_what_is_printed_nestedTree :
    History nestedFolder (nestedOutlines ++ nestedCalls) nestedTree ∧
      (∃ copy, nestedTree.snapshot? root (some 1) = some copy ∧
        (copy.preorder 0).map (fun shown => (shown.1, shown.2.id)) = [(0, 0), (1, 1), (1, 3)]) ∧
      (∃ copy, nestedTree.snapshot? root none = some copy ∧ (8, 12) ∈ copy.edges .external) ∧
      History smallFolder measuredChanges measuredTree ∧
      ∃ copy lines, measuredTree.snapshot? root none = some copy ∧
        List.Forall₂ (fun shown line => shown.2.Line shown.1 line) (copy.preorder 0) lines ∧
          String.join lines =
            "app [Folder] loc=2 incoming=3 in_cycles=4\n" ++
            "  cycle.swift [File] loc=2 incoming=3 in_cycles=4\n" ++
            "    even [Function] loc=2 component=2 incoming=2 scope_diff=-1\n" ++
            "    odd [Function] loc=2 component=2 incoming=1\n" ++
            "    help [Function] loc=2 component=0\n" ++
            "    main [Function] loc=2 component=1 scope_diff=+1\n" := by
  have h : History nestedFolder (nestedOutlines ++ nestedCalls) nestedTree :=
    history_run (by decide +kernel)
  have hmeasured : History smallFolder measuredChanges measuredTree :=
    history_run (by decide +kernel)
  obtain ⟨copy, hcopy, hshown, -⟩ := snapshot_shows_what_is_printed h (some 1)
  obtain ⟨whole, hwhole, -, -, -, -, hedges⟩ := snapshot_shows_what_is_printed h none
  obtain ⟨small, hsmall, -, ⟨lines, hrender, hlines⟩, -⟩ :=
    snapshot_shows_what_is_printed hmeasured none
  have hlevels : nestedTree.levels root (some 1) = [(0, 0), (1, 1), (1, 3)] := by decide +kernel
  have hcall : 12 ∈ (nestedTree.links 8).outgoing .external := by decide +kernel
  refine ⟨h, ⟨copy, hcopy, ?_⟩, ⟨whole, hwhole, ((hedges rfl .external).2 8 12).mpr hcall⟩,
    hmeasured, small, lines, hsmall, hlines, ?_⟩
  · rw [← hlevels, map_eq_of_forall₂ hshown (g := id), List.map_id]
    rintro ⟨level, s⟩ ⟨level', r⟩ ⟨rfl, artifact, hget, hshows⟩
    rw [hshows.id_eq, h.wellFormed.id_eq r artifact hget]
    rfl
  · rw [← hrender]
    decide +kernel

end Tree

end SourceAtlas
