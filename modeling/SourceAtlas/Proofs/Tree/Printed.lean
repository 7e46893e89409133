import Mathlib.Data.List.Basic
import SourceAtlas.Tree.Snapshot
/-!
# Printed lines

Which measures of an artifact stand on its line is a question about one measure at a time
(`Metrics.Stands`). A line shows all of them, each once and in the order of their labels
(`Metrics.Lists`), and this is what is printed at its end (`exists_lists_summary`).
-/

namespace SourceAtlas

/-- A difference that is not zero, written with its sign. -/
inductive Signed : Int → String → Prop where
  | more {n : Nat} : 0 < n → Signed n ("+" ++ toString n)
  | less {n : Nat} : 0 < n → Signed (-n) ("-" ++ toString n)

theorem signed_iff {d : Int} {text : String} : Signed d text ↔ d ≠ 0 ∧ Tree.signed d = text := by
  constructor
  · rintro (h | h)
    · exact ⟨Int.natCast_ne_zero.mpr (Nat.ne_of_gt h), rfl⟩
    · obtain ⟨n, rfl⟩ := Nat.exists_eq_add_one_of_ne_zero (Nat.ne_of_gt h)
      exact ⟨Int.negSucc_ne_zero n, rfl⟩
  · rintro ⟨hne, rfl⟩
    cases d with
    | ofNat n => exact .more (Nat.pos_of_ne_zero fun hn => hne (congrArg Int.ofNat hn))
    | negSucc n => exact .less (Nat.succ_pos n)

namespace Metrics

/-- A measure stands on the line of an artifact, under its label and as its text: a size and a
component number wherever there is one, other counts where they are not zero, and differences
where they are not, with their sign. -/
inductive Stands (m : Metrics) : String → String → Prop where
  | lines {n : Nat} : m.linesOfCode = some n → Stands m "loc" (toString n)
  | component {n : Nat} : m.componentNumber = some n → Stands m "component" (toString n)
  | incoming {n : Nat} : m.incomingDependenciesInScope = some n → 0 < n →
      Stands m "incoming" (toString n)
  | scope {d : Int} {text : String} : m.dependencyDifferenceScope = some d → Signed d text →
      Stands m "scope_diff" text
  | external {d : Int} {text : String} : m.dependencyDifferenceExternal = some d →
      Signed d text → Stands m "external_diff" text
  | cycles {n : Nat} : m.linesOfCodeOfPartsInCycles = some n → 0 < n →
      Stands m "in_cycles" (toString n)

/-- The labels of measures in the order in which they stand on a line. -/
def labels : List String :=
  ["loc", "component", "incoming", "scope_diff", "external_diff", "in_cycles"]

/-- All measures that stand on a line, each once and in the order of their labels. -/
structure Lists (m : Metrics) (measures : List (String × String)) : Prop where
  mem_iff : ∀ label text, (label, text) ∈ measures ↔ m.Stands label text
  inOrder : (measures.map Prod.fst).Sublist labels

/-! ## The measures that are printed -/

/-- Each label, with the text of its measure where that stands on the line. -/
def texts (m : Metrics) : List (String × Option String) :=
  [("loc", m.linesOfCode.map toString), ("component", m.componentNumber.map toString),
    ("incoming", (m.incomingDependenciesInScope.filter (0 < ·)).map toString),
    ("scope_diff", (m.dependencyDifferenceScope.filter (· ≠ 0)).map Tree.signed),
    ("external_diff", (m.dependencyDifferenceExternal.filter (· ≠ 0)).map Tree.signed),
    ("in_cycles", (m.linesOfCodeOfPartsInCycles.filter (0 < ·)).map toString)]

/-- The entries that have a text. -/
def present (entries : List (String × Option String)) : List (String × String) :=
  entries.filterMap fun entry => entry.2.map (entry.1, ·)

theorem mem_present_iff {entries : List (String × Option String)} {label text : String} :
    (label, text) ∈ present entries ↔ (label, some text) ∈ entries := by
  rw [present, List.mem_filterMap]
  constructor
  · rintro ⟨⟨label', text'⟩, hmem, heq⟩
    obtain ⟨text'', rfl, heq⟩ := Option.map_eq_some_iff.mp heq
    cases heq
    exact hmem
  · exact fun hmem => ⟨_, hmem, rfl⟩

theorem present_sublist (entries : List (String × Option String)) :
    ((present entries).map Prod.fst).Sublist (entries.map Prod.fst) := by
  induction entries with
  | nil => exact .slnil
  | cons entry entries ih =>
      obtain ⟨label, text⟩ := entry
      cases text with
      | none => exact ih.cons label
      | some text => exact ih.cons_cons label

/-- A measure as it is written, if it has a text. -/
def written (entry : String × Option String) : String :=
  match entry.2 with
  | some text => " " ++ entry.1 ++ "=" ++ text
  | none => ""

theorem join_present (entries : List (String × Option String)) :
    String.join ((present entries).map fun entry => " " ++ entry.1 ++ "=" ++ entry.2) =
      String.join (entries.map written) := by
  induction entries with
  | nil => rfl
  | cons entry entries ih =>
      obtain ⟨label, text⟩ := entry
      cases text with
      | none => simpa [present, String.join_cons, written] using ih
      | some text => simpa [present, String.join_cons, written] using ih

theorem lists_present_texts (m : Metrics) : m.Lists (present m.texts) where
  mem_iff label text := by
    rw [mem_present_iff]
    simp only [texts, List.mem_cons, List.not_mem_nil, or_false, Prod.mk.injEq,
      eq_comm (a := some text), Option.map_eq_some_iff, Option.filter_eq_some_iff,
      decide_eq_true_eq]
    constructor
    · rintro (⟨rfl, n, hn, rfl⟩ | ⟨rfl, n, hn, rfl⟩ | ⟨rfl, n, ⟨hn, hpos⟩, rfl⟩ |
        ⟨rfl, d, ⟨hd, hne⟩, htext⟩ | ⟨rfl, d, ⟨hd, hne⟩, htext⟩ | ⟨rfl, n, ⟨hn, hpos⟩, rfl⟩)
      · exact .lines hn
      · exact .component hn
      · exact .incoming hn hpos
      · exact .scope hd (signed_iff.mpr ⟨hne, htext⟩)
      · exact .external hd (signed_iff.mpr ⟨hne, htext⟩)
      · exact .cycles hn hpos
    · rintro (hn | hn | ⟨hn, hpos⟩ | ⟨hd, hsigned⟩ | ⟨hd, hsigned⟩ | ⟨hn, hpos⟩)
      · exact .inl ⟨rfl, _, hn, rfl⟩
      · exact .inr (.inl ⟨rfl, _, hn, rfl⟩)
      · exact .inr (.inr (.inl ⟨rfl, _, ⟨hn, hpos⟩, rfl⟩))
      · obtain ⟨hne, htext⟩ := signed_iff.mp hsigned
        exact .inr (.inr (.inr (.inl ⟨rfl, _, ⟨hd, hne⟩, htext⟩)))
      · obtain ⟨hne, htext⟩ := signed_iff.mp hsigned
        exact .inr (.inr (.inr (.inr (.inl ⟨rfl, _, ⟨hd, hne⟩, htext⟩))))
      · exact .inr (.inr (.inr (.inr (.inr ⟨rfl, _, ⟨hn, hpos⟩, rfl⟩))))
  inOrder := present_sublist m.texts

theorem written_filter {α : Type} (label : String) (f : α → String) (p : α → Prop)
    [DecidablePred p] (o : Option α) : written (label, (o.filter (p ·)).map f) =
      o.elim "" fun n => if p n then " " ++ label ++ "=" ++ f n else "" := by
  cases o with
  | none => rfl
  | some n => by_cases hn : p n <;> simp [Option.filter_some, hn, written]

/-- What is printed of measures is all that stands on the line. -/
theorem exists_lists_summary (m : Metrics) : ∃ measures, m.Lists measures ∧
    Tree.summary m = String.join (measures.map fun entry => " " ++ entry.1 ++ "=" ++ entry.2) := by
  refine ⟨_, m.lists_present_texts, ?_⟩
  have hcount := fun label => written_filter label (toString : Nat → String) (0 < ·)
  have hdifference := fun label => written_filter label Tree.signed (· ≠ 0)
  rw [join_present, texts]
  simp only [List.map_cons, List.map_nil, String.join_cons, String.join_nil, String.append_empty,
    hcount, hdifference, Tree.summary, String.append_assoc]
  refine congrArg₂ _ ?lines <| congrArg₂ _ ?component <| congrArg₂ _ ?incoming <|
    congrArg₂ _ ?scope <| congrArg₂ _ ?external ?cycles
  case lines => cases m.linesOfCode <;> rfl
  case component => cases m.componentNumber <;> rfl
  case incoming => cases m.incomingDependenciesInScope <;> rfl
  case scope => cases m.dependencyDifferenceScope <;> rfl
  case external => cases m.dependencyDifferenceExternal <;> rfl
  case cycles => cases m.linesOfCodeOfPartsInCycles <;> rfl

end Metrics

end SourceAtlas
