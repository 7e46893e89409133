import SourceAtlas.Decimal.Shortest
import SourceAtlas.Json.Basic
/-!
# Writing JSON text

`write` is the compact form that messages have: no blanks, characters as they
are, and escapes only for the double quote, the backslash and the controls.
`writeIndented` is the form for readers, with one item or field to a line and two
blanks for each level; empty arrays and objects stay on their line.
-/

namespace SourceAtlas

namespace Json

def lowerHex (n : Nat) : Char :=
  if n < 10 then Char.ofNat (0x30 + n) else Char.ofNat (0x61 + (n - 10))

def escapeChar (c : Char) : List Char :=
  if c = '"' then ['\\', '"']
  else if c = '\\' then ['\\', '\\']
  else if c.toNat = 0x08 then ['\\', 'b']
  else if c = '\t' then ['\\', 't']
  else if c = '\n' then ['\\', 'n']
  else if c.toNat = 0x0C then ['\\', 'f']
  else if c = '\r' then ['\\', 'r']
  else if c.toNat < 0x20 then
    ['\\', 'u', '0', '0', lowerHex (c.toNat / 16), lowerHex (c.toNat % 16)]
  else [c]

def writeString (s : String) : List Char :=
  ['"'] ++ s.toList.flatMap escapeChar ++ ['"']

def Number.write : Number → List Char
  | .int n => (toString n).toList
  | .float x => x.render.toList

mutual

def writeChars : Json → List Char
  | .null => ['n', 'u', 'l', 'l']
  | .bool true => ['t', 'r', 'u', 'e']
  | .bool false => ['f', 'a', 'l', 's', 'e']
  | .number n => n.write
  | .string s => writeString s
  | .array items => ['['] ++ writeItems items ++ [']']
  | .object fields => ['{'] ++ writeFields fields ++ ['}']

def writeItems : List Json → List Char
  | [] => []
  | [v] => writeChars v
  | v :: vs => writeChars v ++ [','] ++ writeItems vs

def writeFields : List (String × Json) → List Char
  | [] => []
  | [(k, v)] => writeString k ++ [':'] ++ writeChars v
  | (k, v) :: fields => writeString k ++ [':'] ++ writeChars v ++ [','] ++ writeFields fields

end

theorem Number.write_ne_nil (n : Number) : n.write ≠ [] := by
  cases n with
  | int n =>
      have hdigits : ∀ m : Nat, m.repr.toList ≠ [] := fun m => by
        rw [Nat.toList_repr]
        exact Nat.toDigits_ne_nil
      cases n with
      | ofNat m => exact hdigits m
      | negSucc m =>
          have hsign : Number.write (.int (.negSucc m)) = ("-" ++ (m + 1).repr).toList := rfl
          rw [hsign, String.toList_append]
          exact List.append_ne_nil_of_right_ne_nil _ (hdigits (m + 1))
  | float x => exact x.toList_render_ne_nil

/-- No value is written as nothing. -/
theorem writeChars_ne_nil (v : Json) : v.writeChars ≠ [] := by
  cases v with
  | null => simp [writeChars]
  | bool b => cases b <;> simp [writeChars]
  | number n => exact n.write_ne_nil
  | string s => simp [writeChars, writeString]
  | array items => simp [writeChars]
  | object fields => simp [writeChars]

def write (v : Json) : String :=
  String.ofList (writeChars v)

def lineBreak (level : Nat) : List Char :=
  '\n' :: List.replicate (2 * level) ' '

mutual

/-- The text of a value for readers, as characters, at a level of indentation. -/
def writeIndentedChars (level : Nat) : Json → List Char
  | .null => ['n', 'u', 'l', 'l']
  | .bool true => ['t', 'r', 'u', 'e']
  | .bool false => ['f', 'a', 'l', 's', 'e']
  | .number n => n.write
  | .string s => writeString s
  | .array [] => ['[', ']']
  | .array (v :: vs) =>
      ['['] ++ writeIndentedItems (level + 1) (v :: vs) ++ lineBreak level ++ [']']
  | .object [] => ['{', '}']
  | .object (f :: fields) =>
      ['{'] ++ writeIndentedFields (level + 1) (f :: fields) ++ lineBreak level ++ ['}']

def writeIndentedItems (level : Nat) : List Json → List Char
  | [] => []
  | [v] => lineBreak level ++ writeIndentedChars level v
  | v :: vs =>
      lineBreak level ++ writeIndentedChars level v ++ [','] ++ writeIndentedItems level vs

def writeIndentedFields (level : Nat) : List (String × Json) → List Char
  | [] => []
  | [(k, v)] =>
      lineBreak level ++ writeString k ++ [':', ' '] ++ writeIndentedChars level v
  | (k, v) :: fields =>
      lineBreak level ++ writeString k ++ [':', ' '] ++ writeIndentedChars level v ++ [',']
        ++ writeIndentedFields level fields

end

def writeIndented (v : Json) : String :=
  String.ofList (writeIndentedChars 0 v)

end Json

end SourceAtlas
