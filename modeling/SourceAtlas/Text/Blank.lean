/-!
# Blank characters

A character is blank when it has the white-space property of the character
standard. That is more than the blanks of ASCII: the next-line control, the
no-break space and the spaces of general punctuation are blank as well.
-/

namespace SourceAtlas

namespace Text

def isBlank (c : Char) : Bool :=
  let n := c.toNat
  (0x09 ≤ n && n ≤ 0x0D) || n == 0x20 || n == 0x85 || n == 0xA0 || n == 0x1680
    || (0x2000 ≤ n && n ≤ 0x200A) || n == 0x2028 || n == 0x2029 || n == 0x202F
    || n == 0x205F || n == 0x3000

/-- The characters without the ones at both ends that satisfy `drop`. -/
def stripBy (drop : Char → Bool) (cs : List Char) : List Char :=
  ((cs.dropWhile drop).reverse.dropWhile drop).reverse

/-- What satisfies `drop` at the end makes no difference. -/
theorem stripBy_append {drop : Char → Bool} {tail : List Char} (h : ∀ c ∈ tail, drop c = true)
    (cs : List Char) : stripBy drop (cs ++ tail) = stripBy drop cs := by
  rw [stripBy, stripBy, List.dropWhile_append]
  split
  · next hnil =>
      have htail : (tail ++ []).dropWhile drop = [] := List.dropWhile_append_of_pos h
      rw [List.append_nil] at htail
      rw [htail, List.isEmpty_iff.mp hnil]
  · have htail : ∀ c ∈ tail.reverse, drop c = true := fun c hc => h c (List.mem_reverse.mp hc)
    rw [List.reverse_append, List.dropWhile_append_of_pos htail]

def trimChars (cs : List Char) : List Char :=
  stripBy isBlank cs

@[simp] theorem trimChars_nil : trimChars [] = [] := rfl

def trim (text : String) : String :=
  String.ofList (trimChars text.toList)

/-- Lower case for the letters of ASCII; every other character stays. -/
def asciiLower (cs : List Char) : List Char :=
  cs.map Char.toLower

def dropLeadingDots (text : String) : String :=
  String.ofList (text.toList.dropWhile (· == '.'))

end Text

end SourceAtlas
