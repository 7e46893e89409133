/-!
# Words of a TOML document

A document is cut into marks, blanks, line ends, quoted texts and bare words before
anything is made of it. A comment belongs to the end of its line, and a carriage
return before a line feed belongs to the line end, also within a text.

Cutting is bounded by the number of characters, which is never met, because every
word takes one character at least.
-/

namespace SourceAtlas

namespace Toml

inductive Token where
  | newline
  /-- Blanks within a line; `single` holds for one space alone. -/
  | gap (single : Bool)
  | equals | period | comma | colon | plus
  | leftBrace | rightBrace | leftBracket | rightBracket
  /-- A quoted text; `multiline` tells the kind of its quotes. -/
  | text (value : String) (multiline : Bool)
  /-- Letters and digits of ASCII, dashes and underscores. -/
  | bare (word : String)
  deriving DecidableEq, Inhabited, Repr

namespace Token

def joinLineEnds : List Char → List Char
  | [] => []
  | '\r' :: '\n' :: cs => '\n' :: joinLineEnds cs
  | c :: cs => c :: joinLineEnds cs

def isBare (c : Char) : Bool :=
  c.isAlphanum || c == '-' || c == '_'

def isCommented (c : Char) : Bool :=
  c == '\t' || 0x20 ≤ c.toNat

def isPlain (c : Char) : Bool :=
  c == '\t' || (0x20 ≤ c.toNat && c.toNat != 0x7F)

def isGap (c : Char) : Bool :=
  c == ' ' || c == '\t'

/-- The value of a digit in the given base, up to sixteen. -/
def digit? (base : Nat) (c : Char) : Option Nat :=
  let value? :=
    if c.isDigit then some (c.toNat - 0x30)
    else if 'a' ≤ c ∧ c ≤ 'f' then some (c.toNat - 0x61 + 10)
    else if 'A' ≤ c ∧ c ≤ 'F' then some (c.toNat - 0x41 + 10)
    else none
  value?.filter fun n => n < base

def readCode (count : Nat) (cs : List Char) : Option (List Char × List Char) := do
  let ds ← (cs.take count).mapM (digit? 16)
  if ds.length < count then none
  else
    let n := ds.foldl (fun acc d => acc * 16 + d) 0
    if n.isValidChar then some ([Char.ofNat n], cs.drop count) else none

/-- Drops the rest of a line that is blank, and all blanks after it. -/
def readFold (cs : List Char) : Option (List Char × List Char) :=
  let skip (cs : List Char) := cs.dropWhile fun c => isGap c || c == '\n'
  match cs.dropWhile isGap with
  | '\n' :: rest => some ([], skip rest)
  | [] => some ([], [])
  | _ => none

def readEscape (multiline : Bool) : List Char → Option (List Char × List Char)
  | '"' :: cs => some (['"'], cs)
  | '\\' :: cs => some (['\\'], cs)
  | 'b' :: cs => some ([Char.ofNat 0x08], cs)
  | 'f' :: cs => some ([Char.ofNat 0x0C], cs)
  | 'n' :: cs => some (['\n'], cs)
  | 'r' :: cs => some (['\r'], cs)
  | 't' :: cs => some (['\t'], cs)
  | 'u' :: cs => readCode 4 cs
  | 'U' :: cs => readCode 8 cs
  | c :: cs => if multiline && (isGap c || c == '\n') then readFold (c :: cs) else none
  | [] => none

/-- The end of a text in triple quotes, after the first of them: up to two more
quotes belong to the text. -/
def readTripleEnd? (quote : Char) : List Char → Option (List Char × List Char)
  | a :: b :: cs =>
      if a = quote ∧ b = quote then
        let extra := (cs.take 2).takeWhile (· == quote)
        some (extra, cs.drop extra.length)
      else none
  | _ => none

/-- The characters of a text up to its end, and those after it. At most `bound`
steps are taken. -/
def readText (quote : Char) (multiline : Bool) :
    Nat → List Char → Option (List Char × List Char)
  | 0, _ => none
  | _, [] => none
  | bound + 1, c :: cs =>
      let go (front : List Char) (rest : List Char) :=
        (readText quote multiline bound rest).map fun (found, rest) => (front ++ found, rest)
      if c = '\n' then if multiline then go ['\n'] cs else none
      else if c = quote then
        if multiline then
          match readTripleEnd? quote cs with
          | some found => some found
          | none => go [quote] cs
        else some ([], cs)
      else if c = '\\' ∧ quote = '"' then
        (readEscape multiline cs).bind fun (front, rest) => go front rest
      else if isPlain c then go [c] cs
      else none

def readQuoted (quote : Char) (cs : List Char) : Option (Token × List Char) :=
  match cs with
  | a :: b :: rest =>
      if a = quote ∧ b = quote then
        let rest := match rest with
          | '\n' :: rest => rest
          | rest => rest
        (readText quote true (rest.length + 1) rest).map fun (found, rest) =>
          (.text (String.ofList found) true, rest)
      else single
  | _ => single
where
  /-- A text in single quotes, which may be empty. -/
  single : Option (Token × List Char) :=
    (readText quote false (cs.length + 1) cs).map fun (found, rest) =>
      (.text (String.ofList found) false, rest)

def mark? : Char → Option Token
  | '\n' => some .newline
  | '=' => some .equals
  | '.' => some .period
  | ',' => some .comma
  | ':' => some .colon
  | '+' => some .plus
  | '{' => some .leftBrace
  | '}' => some .rightBrace
  | '[' => some .leftBracket
  | ']' => some .rightBracket
  | _ => none

/-- The words of some characters, of which at most `bound` are cut off. -/
def cut : Nat → List Char → Option (List Token)
  | _, [] => some []
  | 0, _ :: _ => none
  | bound + 1, c :: cs =>
      match mark? c with
      | some t => (cut bound cs).map (t :: ·)
      | none =>
          if isGap c then
            (cut bound (cs.dropWhile isGap)).map
              (.gap (c == ' ' && !cs.head?.any isGap) :: ·)
          else if c = '#' then
            match cs.dropWhile isCommented with
            | [] => some []
            | '\n' :: rest => cut bound ('\n' :: rest)
            | _ => none
          else if c = '"' ∨ c = '\'' then do
            let (t, rest) ← readQuoted c cs
            let ts ← cut bound rest
            return t :: ts
          else if isBare c then
            (cut bound (cs.dropWhile isBare)).map
              (.bare (String.ofList (c :: cs.takeWhile isBare)) :: ·)
          else none

/-- The words of a document, without a mark of the octet order before them. -/
def scan (document : List Char) : Option (List Token) :=
  let cs := match joinLineEnds document with
    | '\uFEFF' :: cs => cs
    | cs => cs
  cut cs.length cs

end Token

end Toml

end SourceAtlas
