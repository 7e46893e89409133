/-!
# Lines of a text

A line ends at a line feed. One carriage return right before the line feed
belongs to the line end and not to the line; anywhere else a carriage return is
an ordinary character. A text that ends with a line feed has no empty line after
it, so the empty text has no lines at all.

`lines` is a recursion on the characters, and every count and excerpt of a
source file goes through it.
-/

namespace SourceAtlas

namespace Text

/-- The lines of a text given by its characters, without their line ends. -/
def lines : List Char → List (List Char)
  | [] => []
  | '\n' :: cs => [] :: lines cs
  | '\r' :: '\n' :: cs => [] :: lines cs
  | c :: cs =>
      match lines cs with
      | [] => [[c]]
      | l :: ls => (c :: l) :: ls

@[simp] theorem lines_nil : lines [] = [] := rfl

@[simp] theorem lines_lineFeed (cs : List Char) :
    lines ('\n' :: cs) = [] :: lines cs := by
  simp [lines]

@[simp] theorem lines_carriageReturn_lineFeed (cs : List Char) :
    lines ('\r' :: '\n' :: cs) = [] :: lines cs := by
  simp [lines]

def lineCount (text : String) : Nat :=
  (lines text.toList).length

@[simp] theorem lineCount_empty : lineCount "" = 0 := by
  simp [lineCount]

/-- The `count` lines of a text that start with line number `first`, counted
from zero, joined by line feeds. Lines past the end are left out. -/
def excerpt (text : String) (first count : Nat) : String :=
  "\n".intercalate ((((lines text.toList).drop first).take count).map String.ofList)

end Text

end SourceAtlas
