import SourceAtlas.Path
import SourceAtlas.Text.Utf8
/-!
# File uris

A file is announced to the server under a uri, and the server answers with uris
of its own. Servers differ in what they escape, so a uri that comes back is
decoded to a path before anything is looked up: `ofPath` writes one form and
`toPath?` reads every form of the same path.

Escapes are percent signs with two hexadecimal digits and stand for octets. An
escape that is cut short or has another digit makes the uri unreadable, and so
do octets that are no text.
-/

namespace SourceAtlas

namespace Uri

def scheme : List Char := "file://".toList

/-- The octets written as they are: letters and digits of ASCII, the separator
and four marks. -/
def isPlain (b : UInt8) : Bool :=
  (0x30 ≤ b && b ≤ 0x39) || (0x41 ≤ b && b ≤ 0x5A) || (0x61 ≤ b && b ≤ 0x7A)
    || b == 0x2F || b == 0x2D || b == 0x5F || b == 0x2E || b == 0x7E

def hexDigit (n : Nat) : Char :=
  if n < 10 then Char.ofNat (0x30 + n) else Char.ofNat (0x41 + (n - 10))

/-- How an octet of a path is written. A backslash becomes a separator. -/
def escape (b : UInt8) : List Char :=
  if isPlain b then [Char.ofNat b.toNat]
  else if b = 0x5C then ['/']
  else ['%', hexDigit (b.toNat / 16), hexDigit (b.toNat % 16)]

/-- The uri of a path. A path that does not start with a separator gets one. -/
def ofPath (p : Path) : String :=
  let body := (Utf8.encode p.text).flatMap escape
  let lead := if p.isAbsolute then [] else ['/']
  String.ofList (scheme ++ lead ++ body)

/-- The value of a hexadecimal digit in either case. -/
def hexValue? (b : UInt8) : Option Nat :=
  if 0x30 ≤ b && b ≤ 0x39 then some (b.toNat - 0x30)
  else if 0x41 ≤ b && b ≤ 0x46 then some (b.toNat - 0x41 + 10)
  else if 0x61 ≤ b && b ≤ 0x66 then some (b.toNat - 0x61 + 10)
  else none

/-- Replaces every escape by the octet it stands for; `none` when one is
malformed. -/
def unescape? : List UInt8 → Option (List UInt8)
  | [] => some []
  | b :: rest =>
      if b = 0x25 then
        match rest with
        | x :: y :: more => do
            let high ← hexValue? x
            let low ← hexValue? y
            let tail ← unescape? more
            return UInt8.ofNat (high * 16 + low) :: tail
        | _ => none
      else (unescape? rest).map (b :: ·)

/-- What follows the scheme and the authority of a file uri, with the separator
it starts with. -/
def pathPart? (uri : String) : Option (List UInt8) :=
  let bytes := Utf8.encode uri
  let start := Utf8.encode (String.ofList scheme)
  if start.isPrefixOf bytes then
    match (bytes.drop start.length).dropWhile (· ≠ 0x2F) with
    | [] => none
    | part => some part
  else none

/-- Drops the separator before a drive: a letter of ASCII and a colon. -/
def dropDriveSeparator : List Char → List Char
  | '/' :: d :: ':' :: rest => if d.isAlpha then d :: ':' :: rest else '/' :: d :: ':' :: rest
  | cs => cs

/-- The path a file uri stands for; `none` for other schemes, for malformed
escapes and for octets that are no text. -/
def toPath? (uri : String) : Option Path := do
  let part ← pathPart? uri
  let bytes ← unescape? part
  let text ← Utf8.decode? bytes
  return ⟨String.ofList (dropDriveSeparator text.toList)⟩

end Uri

end SourceAtlas
