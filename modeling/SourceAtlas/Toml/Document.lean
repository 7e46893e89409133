import SourceAtlas.Toml.Token
import SourceAtlas.Toml.Value
/-!
# TOML documents

A document is a list of sections: the entries before the first header, and those
after each header up to the next one. `Document.assemble` puts the sections into
one table. Sections with a common start of their headers belong to the same inner
table wherever they stand, so a header may come before the header it extends, but
no header may stand twice. A header in double brackets adds a table to an array,
and the sections after it that extend the header belong to that table.

Keys of one table are not compared here, apart from dotted keys, which may only go
on into tables that dotted keys made.
-/

namespace SourceAtlas

namespace Toml

namespace Document

/-! ## Numbers -/

/-- The digits at the start of a word, which single underscores may divide, and the
characters after them. `first` holds before the first digit, `zero` when that was a
zero, after which no digit may follow unless `zeros` allows it, and `divided` after
an underscore. -/
def takeDigits (base : Nat) (zeros first zero divided : Bool) :
    List Char → Option (List Char × List Char)
  | [] => if first || divided then none else some ([], [])
  | c :: cs =>
      let go (zero divided : Bool) :=
        (takeDigits base zeros false zero divided cs).map fun (digits, rest) => (c :: digits, rest)
      if c = '0' && first then go true divided
      else if (Token.digit? base c).isSome then
        if !first && zero && !zeros then none else go zero false
      else if c = '_' && !divided then if first then none else go zero true
      else if first || divided then none
      else some ([], c :: cs)

/-- A number at the start of a word: its sign and digits, and the characters after
it. -/
def takeNumber (base : Nat) (sign zeros : Bool) (cs : List Char) :
    Option (Bool × List Char × List Char) :=
  let (negative, cs) := match sign, cs with
    | true, '-' :: cs => (true, cs)
    | true, '+' :: cs => (false, cs)
    | _, cs => (false, cs)
  (takeDigits base zeros true false false cs).map fun (digits, rest) => (negative, digits, rest)

/-- The number that digits make; underscores do not count. -/
def number (base : Nat) (digits : List Char) : Nat :=
  (digits.filterMap (Token.digit? base)).foldl (fun acc d => acc * base + d) 0

/-- A whole number that fits into a signed 64-bit word. -/
def integer? (base : Nat) (cs : List Char) : Option Value :=
  match takeNumber base (base == 10) (base != 10) cs with
  | some (negative, digits, []) =>
      let n : Int := if negative then -(number base digits) else number base digits
      if -(UInt64.size / 2 : Int) ≤ n ∧ n < UInt64.size / 2 then some (.integer n) else none
  | _ => none

/-- Whether `n` times the given power of ten is less than every number that rounds
to infinity. -/
def isFinite (n : Nat) (exponent : Int) : Bool :=
  let magnitude : Int := (toString n).length + exponent
  if n = 0 || magnitude < 0 then true
  else if 400 < magnitude then false
  else
    let limit := Nat.pow 2 1024 - Nat.pow 2 970
    if 0 ≤ exponent then n * Nat.pow 10 exponent.toNat < limit
    else n < limit * Nat.pow 10 (-exponent).toNat

/-- The exponent after a decimal number. It may be a word of its own after a plus
sign. -/
def readExponent (suffix : List Char) (ts : List Token) : Option (Int × List Token) :=
  let exponent (negative : Bool) (digits : List Char) : Int :=
    if negative then -(number 10 digits) else number 10 digits
  match suffix with
  | [] => some (0, ts)
  | [e] =>
      if e = 'e' || e = 'E' then
        let ts := match ts with
          | .plus :: ts => ts
          | ts => ts
        match ts with
        | .bare word :: ts =>
            match takeNumber 10 false true word.toList with
            | some (negative, digits, []) => some (exponent negative digits, ts)
            | _ => none
        | _ => none
      else none
  | e :: cs =>
      if e = 'e' || e = 'E' then
        match takeNumber 10 true true cs with
        | some (negative, digits, []) => some (exponent negative digits, ts)
        | _ => none
      else none

/-- A decimal number, given the word before its point and perhaps the one after
it. -/
def readDecimal (word : List Char) (fraction : Option (List Char)) (ts : List Token) :
    Option (Value × List Token) := do
  let (_, digits, suffix) ← takeNumber 10 true false word
  let (decimals, suffix) ← match fraction with
    | none => some ([], suffix)
    | some after =>
        if suffix.isEmpty then
          (takeNumber 10 false true after).map fun (_, decimals, suffix) => (decimals, suffix)
        else none
  let (exponent, ts) ← readExponent suffix ts
  let places := (decimals.filter fun c => c != '_').length
  if isFinite (number 10 (digits ++ decimals)) (exponent - places) then
    return (.decimal, ts)
  else none

def readNumber (word : List Char) (ts : List Token) : Option (Value × List Token) :=
  let whole (base : Nat) (cs : List Char) := (integer? base cs).map fun v => (v, ts)
  match word with
  | '0' :: 'x' :: cs => whole 16 cs
  | '0' :: 'o' :: cs => whole 8 cs
  | '0' :: 'b' :: cs => whole 2 cs
  | word =>
      if word.contains 'e' || word.contains 'E' then readDecimal word none ts
      else
        match ts with
        | .period :: .bare after :: ts => readDecimal word (some after.toList) ts
        | .period :: _ => none
        | ts =>
            if ["inf", "-inf", "nan", "-nan"].contains (String.ofList word) then
              some (.decimal, ts)
            else whole 10 word

/-- The rest of a date or time after its first word. A space may stand before the
hour, and what stands between the marks is not looked at. -/
def readDate (colon : Bool) (ts : List Token) : Option (Value × List Token) :=
  let ts := match ts with
    | .gap true :: .bare _ :: ts => ts
    | ts => ts
  let wordAfter (mark : Token) (ts : List Token) : Option (List Token) :=
    match ts with
    | [] => some []
    | t :: rest =>
        if t = mark then
          match rest with
          | .bare _ :: rest => some rest
          | _ => none
        else some ts
  let time (ts : List Token) : Option (List Token) :=
    match ts with
    | .bare _ :: .colon :: .bare _ :: ts =>
        ((wordAfter .period ts).bind (wordAfter .plus)).bind (wordAfter .colon)
    | _ => none
  (match colon, ts with
    | true, ts => time ts
    | false, .colon :: ts => time ts
    | false, ts => some ts).map fun ts => (.date, ts)

def startsDate (word : List Char) : Bool :=
  let dashE := fun (e : Char) => (word.zip (word.drop 1)).contains (e, '-')
  word.contains 'T' || word.contains 't'
    || ((word.drop 1).contains '-' && !dashE 'e' && !dashE 'E')

/-- The value that a bare word stands for, perhaps with words after it. -/
def readBare (word : String) (ts : List Token) : Option (Value × List Token) :=
  if word = "true" then some (.boolean true, ts)
  else if word = "false" then some (.boolean false, ts)
  else
    let cs := word.toList
    if word = "inf" || word = "nan" || cs.head?.any (fun c => c == '-' || c.isDigit) then
      if startsDate cs then readDate false ts
      else
        match ts with
        | .colon :: ts => readDate true ts
        | ts => readNumber cs ts
    else none

/-! ## Entries -/

def skipGap : List Token → List Token
  | .gap _ :: ts => ts
  | ts => ts

def skipLines (ts : List Token) : List Token :=
  ts.dropWhile fun t =>
    match t with
    | .gap _ | .newline => true
    | _ => false

/-- A key: a bare word or a text on one line. -/
def readKey : List Token → Option (String × List Token)
  | .bare word :: ts => some (word, ts)
  | .text value false :: ts => some (value, ts)
  | _ => none

/-- The parts of a dotted key after its first one, of which there are at most
`bound`. -/
def readKeys : Nat → List Token → Option (List String × List Token)
  | bound + 1, .period :: ts => do
      let (key, ts) ← readKey (skipGap ts)
      let (keys, ts) ← readKeys bound (skipGap ts)
      return (key :: keys, ts)
  | _, ts => some ([], ts)

def readDottedKey (ts : List Token) : Option (List String × List Token) := do
  let (key, ts) ← readKey ts
  let (keys, ts) ← readKeys ts.length (skipGap ts)
  return (key :: keys, ts)

/-- Enters a value under a dotted key. The tables on the way are made, or were made
by other dotted keys. -/
def enter (value : Value) : List String → List (String × Value) → Option (List (String × Value))
  | [], entries => some entries
  | [key], entries => some (entries ++ [(key, value)])
  | key :: keys, entries =>
      match entries.span fun entry => entry.1 != key with
      | (before, (_, .table true inner) :: after) =>
          (enter value keys inner).map fun inner => before ++ (key, .table true inner) :: after
      | (_, _ :: _) => none
      | (_, []) => (enter value keys []).map fun inner => entries ++ [(key, .table true inner)]

mutual

/-- Reads a value with at most `bound` values inside one another and after one
another. -/
def readValue : Nat → List Token → Option (Value × List Token)
  | 0, _ => none
  | bound + 1, ts =>
      match ts with
      | .text s _ :: ts => some (.text s, ts)
      | .bare word :: ts => readBare word ts
      | .plus :: .bare word :: ts => readNumber word.toList ts
      | .leftBracket :: ts =>
          (readItems bound (skipLines ts)).map fun (items, ts) => (.array items, ts)
      | .leftBrace :: ts =>
          match skipGap ts with
          | .rightBrace :: ts => some (.table false [], ts)
          | ts => (readFields bound [] ts).map fun (entries, ts) => (.table false entries, ts)
      | _ => none

/-- Reads the items of an array up to its end. -/
def readItems : Nat → List Token → Option (List Value × List Token)
  | _, .rightBracket :: ts => some ([], ts)
  | 0, _ => none
  | bound + 1, ts => do
      let (item, ts) ← readValue bound ts
      match skipLines ts with
      | .comma :: ts =>
          let (items, ts) ← readItems bound (skipLines ts)
          return (item :: items, ts)
      | .rightBracket :: ts => return ([item], ts)
      | _ => none

/-- Reads the entries of a table in braces up to its end. -/
def readFields : Nat → List (String × Value) → List Token → Option (List (String × Value) × List Token)
  | 0, _, _ => none
  | bound + 1, entries, ts => do
      let (keys, ts) ← readDottedKey ts
      match ts with
      | .equals :: ts =>
          let (value, ts) ← readValue bound (skipGap ts)
          let entries ← enter value keys entries
          match skipGap ts with
          | .rightBrace :: ts => return (entries, ts)
          | .comma :: ts => readFields bound entries (skipGap ts)
          | _ => none
      | _ => none

end

/-- The words after a line end; nothing but blanks may stand before it. -/
def endLine : List Token → Option (List Token)
  | [] => some []
  | .newline :: ts => some ts
  | _ => none

/-! ## Sections -/

structure Section where
  header : List String
  repeated : Bool
  entries : List (String × Value)
  deriving Inhabited

def readHeader (ts : List Token) : Option (Section × List Token) := do
  let (repeated, ts) := match ts with
    | .leftBracket :: ts => (true, ts)
    | ts => (false, ts)
  let (header, ts) ← readDottedKey (skipGap ts)
  let ts ← match repeated, ts with
    | true, .rightBracket :: .rightBracket :: ts => some ts
    | false, .rightBracket :: ts => some ts
    | _, _ => none
  let ts ← endLine (skipGap ts)
  return (⟨header, repeated, []⟩, ts)

/-- The sections of a document of at most `bound` lines, the section that is being
read first. -/
def readSections : Nat → Section → List Token → Option (List Section)
  | 0, _, _ => none
  | bound + 1, current, ts =>
      match skipLines ts with
      | [] => some [current]
      | .leftBracket :: ts => do
          let (next, ts) ← readHeader ts
          let sections ← readSections bound next ts
          return current :: sections
      | ts => do
          let (keys, ts) ← readDottedKey ts
          match ts with
          | .equals :: ts =>
              let (value, ts) ← readValue (2 * ts.length + 2) (skipGap ts)
              let entries ← enter value keys current.entries
              let ts ← endLine (skipGap ts)
              readSections bound { current with entries := entries } ts
          | _ => none

/-! ## Tables -/

/-- The first keys of headers, each one once, in the order they occur. -/
def firstKeys (sections : List Section) : List String :=
  (sections.filterMap fun s => s.header.head?).eraseDups

/-- The sections whose headers start with a key, without that key. -/
def below (key : String) (sections : List Section) : List Section :=
  sections.filterMap fun s =>
    match s.header with
    | k :: header => if k = key then some { s with header := header } else none
    | [] => none

/-- Cuts sections before each one that adds a table to the array they belong to. -/
def cutElements : List Section → List (List Section)
  | [] => []
  | s :: rest =>
      let more := cutElements rest
      let s' := if s.header.isEmpty then { s with repeated := false } else s
      match rest, more with
      | next :: _, element :: elements =>
          if next.header.isEmpty && next.repeated then [s'] :: element :: elements
          else (s' :: element) :: elements
      | _, _ => [[s']]

/-- The entries of the table that sections make up, whose headers have at most
`bound` keys. At most one section stands for the table itself. -/
def assemble : Nat → List Section → Option (List (String × Value))
  | bound, sections => do
      let own ← match sections.filter fun s => s.header.isEmpty with
        | [] => some []
        | [s] => if s.repeated then none else some s.entries
        | _ => none
      let inner ← match bound with
        | 0 => some []
        | bound + 1 => (firstKeys sections).mapM fun key => do
            let group := below key sections
            let isArray := group.head?.any fun s => s.header.isEmpty && s.repeated
            if isArray then
              let elements ← (cutElements group).mapM (assemble bound)
              return (key, Value.array (elements.map (Value.table false)))
            else
              let entries ← assemble bound group
              return (key, Value.table false entries)
      return own ++ inner

def read? (document : String) : Option Value := do
  let ts ← Token.scan document.toList
  let sections ← readSections (ts.length + 1) ⟨[], false, []⟩ ts
  let bound := (sections.map fun s => s.header.length).foldl max 0
  let entries ← assemble bound sections
  return .table false entries

end Document

end Toml

end SourceAtlas
