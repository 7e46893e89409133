/-!
# Positions, ranges and locations in source text

Lines and characters are counted from zero and are 32-bit words, as they are on
the wire. Positions are ordered by line, then by character. A range contains
another when it starts no later and ends no earlier.
-/

namespace SourceAtlas

/-- A place in a text: a line and a character in it, both counted from zero. -/
structure Position where
  line : UInt32
  character : UInt32
  deriving DecidableEq, Inhabited, Repr

namespace Position

def order (a b : Position) : Ordering :=
  (compare a.line b.line).then (compare a.character b.character)

def atMost (a b : Position) : Bool :=
  a.line < b.line || (a.line == b.line && a.character ≤ b.character)

end Position

/-- A stretch of text from one position up to another. -/
structure Range where
  start : Position
  stop : Position
  deriving DecidableEq, Inhabited, Repr

namespace Range

/-- Whether `inner` lies entirely within `outer`. -/
def contains (outer inner : Range) : Bool :=
  outer.start.atMost inner.start && inner.stop.atMost outer.stop

theorem contains_iff (outer inner : Range) :
    outer.contains inner = true ↔
      outer.start.atMost inner.start = true ∧ inner.stop.atMost outer.stop = true := by
  simp [contains]

/-- The number of lines a range touches. A range that ends before it starts
touches one. -/
def lineCount (r : Range) : Nat :=
  (r.stop.line.toNat - r.start.line.toNat) + 1

/-- The text of a range: both ends counted from one. -/
def render (r : Range) : String :=
  s!"{r.start.line.toNat + 1}:{r.start.character.toNat + 1}-{r.stop.line.toNat + 1}:{r.stop.character.toNat + 1}"

end Range

structure Location where
  uri : String
  range : Range
  deriving DecidableEq, Inhabited, Repr

end SourceAtlas
