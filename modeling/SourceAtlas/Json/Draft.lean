import SourceAtlas.Decimal.Binary64
import SourceAtlas.Json.Basic
import SourceAtlas.Text.Utf8
/-!
# Reading JSON text

Reading goes in two steps. The first one follows the grammar and gives a draft:
fields stand in the order they were written in, repeated ones included, and a
leaf that meets the grammar but has no value is marked as such. That is a string
with half of a surrogate pair or with octets that are no text, and a number
greater than every double. The second step takes values out of a draft. A message
that ignores a field therefore does not care what stands in it, as long as it is
JSON.

The grammar is read with a bound on the number of steps. Every second step takes
at least one octet, so the bound `2 * length + 2` is never met.
-/

namespace SourceAtlas

namespace Json

inductive Draft where
  | null
  | bool (b : Bool)
  /-- A number; none if it is too great to have a value. -/
  | number (n : Option Number)
  /-- A string; none if it is no text. -/
  | string (s : Option String)
  | array (items : List Draft)
  | object (fields : List (Option String × Draft))
  deriving Inhabited

/-! ## Octets -/

/-- Whether an octet is the given character of ASCII. -/
def is (c : Char) (b : UInt8) : Bool :=
  b.toNat == c.toNat

def isSpace (b : UInt8) : Bool :=
  is ' ' b || is '\n' b || is '\t' b || is '\r' b

def skipSpace (bs : List UInt8) : List UInt8 :=
  bs.dropWhile isSpace

def digit? (b : UInt8) : Option Nat :=
  if 0x30 ≤ b && b ≤ 0x39 then some (b.toNat - 0x30) else none

def digits (bs : List UInt8) : List Nat × List UInt8 :=
  ((bs.takeWhile fun b => (digit? b).isSome).filterMap digit?,
    bs.dropWhile fun b => (digit? b).isSome)

def afterWord? (word : List Char) (bs : List UInt8) : Option (List UInt8) :=
  let octets := word.map fun c => UInt8.ofNat c.toNat
  if octets.isPrefixOf bs then some (bs.drop octets.length) else none

/-! ## Numbers -/

def ofDigits (ds : List Nat) : Nat :=
  ds.foldl (fun acc d => acc * 10 + d) 0

/-- The digits of a significand that count: as many as fit into an unsigned
64-bit word, and the number of digits dropped after them. -/
def significand : Nat → List Nat → Nat × Nat
  | acc, [] => (acc, 0)
  | acc, d :: ds =>
      if acc * 10 + d < UInt64.size then significand (acc * 10 + d) ds
      else (acc, (d :: ds).length)

/-- The value of a number from its parts: the sign, the digits before the point,
the digits after it, and the exponent. -/
def numberValue (negative : Bool) (whole : List Nat) (fraction : Option (List Nat))
    (exponent : Option Int) : Option Number :=
  let (head, dropped) := significand 0 whole
  match fraction, exponent with
  | none, none =>
      let value : Int := if negative then -(ofDigits whole : Int) else ofDigits whole
      if Number.fits value && !(negative && value == 0) then some (.int value)
      else (Binary64.ofDecimal? negative head dropped).map .float
  | _, _ =>
      let after := fraction.getD []
      let (all, lost) := significand head after
      let scale : Int := (dropped : Int) - ((after.length : Int) - lost) + exponent.getD 0
      (Binary64.ofDecimal? negative all scale).map .float

/-- The exponent of a number, if one follows, and the octets after it; `none`
when an exponent has no digits. -/
def readExponent (bs : List UInt8) : Option (Option Int × List UInt8) :=
  match bs with
  | b :: rest =>
      if is 'e' b || is 'E' b then
        let (negative, rest) := match rest with
          | s :: more => if is '-' s then (true, more) else if is '+' s then (false, more)
              else (false, rest)
          | [] => (false, [])
        match digits rest with
        | ([], _) => none
        | (ds, rest) =>
            let n : Int := ofDigits ds
            some (some (if negative then -n else n), rest)
      else some (none, bs)
  | [] => some (none, [])

/-- The fraction of a number, if one follows, and the octets after it; `none`
when a point has no digits after it. -/
def readFraction (bs : List UInt8) : Option (Option (List Nat) × List UInt8) :=
  match bs with
  | b :: rest =>
      if is '.' b then
        match digits rest with
        | ([], _) => none
        | (ds, rest) => some (some ds, rest)
      else some (none, bs)
  | [] => some (none, [])

/-- A number, and the octets after it. No digit follows a leading zero. -/
def readNumber (bs : List UInt8) : Option (Draft × List UInt8) := do
  let (negative, bs) := match bs with
    | b :: rest => if is '-' b then (true, rest) else (false, bs)
    | [] => (false, [])
  let (whole, bs) := digits bs
  if whole.isEmpty || (whole.head? == some 0 && 1 < whole.length) then none
  else
    let (fraction, bs) ← readFraction bs
    let (exponent, bs) ← readExponent bs
    return (.number (numberValue negative whole fraction exponent), bs)

/-! ## Strings -/

/-- A piece of a string: an octet, or the number of an escaped unit of 16 bits. -/
inductive Piece where
  | octet (b : UInt8)
  | unit (n : Nat)

def hexDigit? (b : UInt8) : Option Nat :=
  if 0x30 ≤ b && b ≤ 0x39 then some (b.toNat - 0x30)
  else if 0x41 ≤ b && b ≤ 0x46 then some (b.toNat - 0x41 + 10)
  else if 0x61 ≤ b && b ≤ 0x66 then some (b.toNat - 0x61 + 10)
  else none

def shortEscape? (b : UInt8) : Option UInt8 :=
  if is '"' b || is '\\' b || is '/' b then some b
  else if is 'b' b then some 0x08
  else if is 'f' b then some 0x0C
  else if is 'n' b then some 0x0A
  else if is 'r' b then some 0x0D
  else if is 't' b then some 0x09
  else none

/-- The pieces of a string up to its closing quote, and the octets after it. -/
def readPieces : List UInt8 → Option (List Piece × List UInt8)
  | [] => none
  | b :: rest =>
      if is '"' b then some ([], rest)
      else if b < 0x20 then none
      else if is '\\' b then
        match rest with
        | [] => none
        | e :: more =>
            if is 'u' e then
              match more with
              | w :: x :: y :: z :: after => do
                  let n1 ← hexDigit? w
                  let n2 ← hexDigit? x
                  let n3 ← hexDigit? y
                  let n4 ← hexDigit? z
                  let (pieces, rest) ← readPieces after
                  return (.unit (((n1 * 16 + n2) * 16 + n3) * 16 + n4) :: pieces, rest)
              | _ => none
            else do
              let c ← shortEscape? e
              let (pieces, rest) ← readPieces more
              return (.octet c :: pieces, rest)
      else do
        let (pieces, rest) ← readPieces rest
        return (.octet b :: pieces, rest)

/-- The octets of a string from its pieces. Two escaped halves of a surrogate
pair make one character; `none` when a half stands alone. -/
def joinPieces : List Piece → Option (List UInt8)
  | [] => some []
  | .octet b :: rest => (joinPieces rest).map (b :: ·)
  | .unit n :: rest =>
      if n < 0xD800 ∨ 0xDFFF < n then
        (joinPieces rest).map (String.utf8EncodeChar (Char.ofNat n) ++ ·)
      else if n ≤ 0xDBFF then
        match rest with
        | .unit low :: more =>
            if 0xDC00 ≤ low ∧ low ≤ 0xDFFF then
              let c := Char.ofNat (0x10000 + (n - 0xD800) * 0x400 + (low - 0xDC00))
              (joinPieces more).map (String.utf8EncodeChar c ++ ·)
            else none
        | _ => none
      else none

def readString (bs : List UInt8) : Option (Option String × List UInt8) := do
  let (pieces, rest) ← readPieces bs
  return ((joinPieces pieces).bind Utf8.decode?, rest)

/-! ## Values -/

mutual

def readValue : Nat → List UInt8 → Option (Draft × List UInt8)
  | 0, _ => none
  | steps + 1, bs =>
      match skipSpace bs with
      | [] => none
      | b :: rest =>
          if is '"' b then do
            let (s, rest) ← readString rest
            return (.string s, rest)
          else if is '[' b then
            match skipSpace rest with
            | c :: after =>
                if is ']' c then some (.array [], after)
                else do
                  let (items, rest) ← readItems steps rest
                  return (.array items, rest)
            | [] => none
          else if is '{' b then
            match skipSpace rest with
            | c :: after =>
                if is '}' c then some (.object [], after)
                else do
                  let (fields, rest) ← readFields steps rest
                  return (.object fields, rest)
            | [] => none
          else if is 'n' b then (afterWord? ['n', 'u', 'l', 'l'] (b :: rest)).map (.null, ·)
          else if is 't' b then (afterWord? ['t', 'r', 'u', 'e'] (b :: rest)).map (.bool true, ·)
          else if is 'f' b then
            (afterWord? ['f', 'a', 'l', 's', 'e'] (b :: rest)).map (.bool false, ·)
          else readNumber (b :: rest)

/-- The items of an array up to its closing bracket. -/
def readItems : Nat → List UInt8 → Option (List Draft × List UInt8)
  | 0, _ => none
  | steps + 1, bs => do
      let (item, rest) ← readValue steps bs
      match skipSpace rest with
      | b :: after =>
          if is ']' b then return ([item], after)
          else if is ',' b then
            let (items, rest) ← readItems steps after
            return (item :: items, rest)
          else none
      | [] => none

/-- The fields of an object up to its closing brace. -/
def readFields : Nat → List UInt8 → Option (List (Option String × Draft) × List UInt8)
  | 0, _ => none
  | steps + 1, bs =>
      match skipSpace bs with
      | [] => none
      | q :: rest =>
          if is '"' q then do
            let (key, rest) ← readString rest
            match skipSpace rest with
            | [] => none
            | c :: rest =>
                if is ':' c then do
                  let (value, rest) ← readValue steps rest
                  match skipSpace rest with
                  | b :: after =>
                      if is '}' b then return ([(key, value)], after)
                      else if is ',' b then
                        let (fields, rest) ← readFields steps after
                        return ((key, value) :: fields, rest)
                      else none
                  | [] => none
                else none
          else none

end

/-- The draft of a JSON text; `none` when the text is not one JSON value. -/
def Draft.read? (bs : List UInt8) : Option Draft :=
  match readValue (2 * bs.length + 2) bs with
  | some (draft, rest) => if (skipSpace rest).isEmpty then some draft else none
  | none => none

/-! ## Values of drafts -/

mutual

/-- The value of a draft in which arrays and objects are nested at most `room`
deep; `none` when a leaf has no value. -/
def Draft.value? (room : Nat) : Draft → Option Json
  | .null => some .null
  | .bool b => some (.bool b)
  | .number n => n.map .number
  | .string s => s.map .string
  | .array items =>
      match room with
      | 0 => none
      | room + 1 => (Draft.values? room items).map .array
  | .object fields =>
      match room with
      | 0 => none
      | room + 1 => (Draft.fields? room fields).map ofFields

/-- The values of drafts, all of which have to have one. -/
def Draft.values? (room : Nat) : List Draft → Option (List Json)
  | [] => some []
  | d :: ds => do
      let v ← Draft.value? room d
      let vs ← Draft.values? room ds
      return v :: vs

/-- The values of fields, all of which have to have one. -/
def Draft.fields? (room : Nat) : List (Option String × Draft) → Option (List (String × Json))
  | [] => some []
  | (key, d) :: fields => do
      let k ← key
      let v ← Draft.value? room d
      let vs ← Draft.fields? room fields
      return (k, v) :: vs

end

def read? (bs : List UInt8) : Option Json :=
  (Draft.read? bs).bind (Draft.value? bs.length)

end Json

end SourceAtlas
