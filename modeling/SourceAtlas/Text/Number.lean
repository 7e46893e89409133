/-!
# Numbers in digits

Where a length or a depth is written in text, it is a row of ASCII digits, perhaps
after one plus sign, and it has to fit into 64 bits.
-/

namespace SourceAtlas

namespace Text

/-- The number that digits of ASCII make. -/
def ofDigits (ds : List Char) : Nat :=
  ds.foldl (fun acc c => acc * 10 + (c.toNat - 0x30)) 0

@[simp] theorem ofDigits_nil : ofDigits [] = 0 := rfl

theorem ofDigits_toDigits (n : Nat) : ofDigits (Nat.toDigits 10 n) = n := by
  have heq : ofDigits (Nat.toDigits 10 n) = Nat.ofDigitChars 10 (Nat.toDigits 10 n) 0 := by
    simp only [ofDigits, Nat.ofDigitChars, Nat.mul_comm]
    rfl
  rw [heq, Nat.ofDigitChars_ten_toDigits]

/-- The number in a text: digits of ASCII, perhaps after a plus sign, for a number
that fits into 64 bits. -/
def number? (text : List Char) : Option Nat :=
  let ds := match text with
    | '+' :: ds => ds
    | ds => ds
  if ds.isEmpty || !ds.all Char.isDigit then none
  else if ofDigits ds < UInt64.size then some (ofDigits ds)
  else none

/-- A number that is written in digits is read again. -/
theorem number?_toDigits {n : Nat} (h : n < UInt64.size) :
    number? (Nat.toDigits 10 n) = some n := by
  have hdigit : ∀ c ∈ Nat.toDigits 10 n, c.isDigit = true := fun c hc =>
    Nat.isDigit_of_mem_toDigits (by decide) (by decide) hc
  have hall : (Nat.toDigits 10 n).all Char.isDigit = true := List.all_eq_true.mpr hdigit
  rw [number?]
  · simp [Nat.toDigits_ne_nil, hall, ofDigits_toDigits, h]
  · intro ds hplus
    exact absurd (hdigit '+' (hplus ▸ List.mem_cons_self)) (by decide)

/-- The numerals of a number: digits of ASCII that make it, perhaps after a plus sign. -/
def IsNumeral (text : List Char) (n : Nat) : Prop :=
  ∃ ds, (text = ds ∨ text = '+' :: ds) ∧ ds ≠ [] ∧ (∀ c ∈ ds, c.isDigit = true) ∧
    ofDigits ds = n ∧ n < UInt64.size

/-- The numerals of 64 bits are read, and nothing else is. -/
theorem number?_eq_some_iff {text : List Char} {n : Nat} :
    number? text = some n ↔ IsNumeral text n := by
  have digits (ds : List Char) :
      (if ds.isEmpty || !ds.all Char.isDigit then none
        else if ofDigits ds < UInt64.size then some (ofDigits ds) else none) = some n ↔
      ds ≠ [] ∧ (∀ c ∈ ds, c.isDigit = true) ∧ ofDigits ds = n ∧ n < UInt64.size := by
    grind
  have signed (ds : List Char) : ¬ ∀ c ∈ '+' :: ds, c.isDigit = true := fun h =>
    absurd (h '+' List.mem_cons_self) (by decide)
  by_cases hplus : ∃ ds, text = '+' :: ds
  · obtain ⟨ds, rfl⟩ := hplus
    rw [number?, digits]
    refine ⟨fun h => ⟨ds, .inr rfl, h⟩, ?_⟩
    rintro ⟨ds', rfl | heq, h⟩
    · exact absurd h.2.1 (signed ds)
    · rwa [(List.cons.inj heq).2]
  · have hread := digits text
    rw [number?, hread]
    · refine ⟨fun h => ⟨text, .inl rfl, h⟩, ?_⟩
      rintro ⟨ds, rfl | heq, h⟩
      · exact h
      · exact absurd ⟨ds, heq⟩ hplus
    · exact fun ds heq => hplus ⟨ds, heq⟩

end Text

end SourceAtlas
