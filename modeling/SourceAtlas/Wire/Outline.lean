import SourceAtlas.Outline
import SourceAtlas.Wire.Span
/-!
# Outlines on the wire

A server answers the request for an outline in one of two shapes: nested entries,
or a flat list of symbols with their locations. The nested shape is tried first,
and a list has one shape throughout. A flat symbol becomes an entry without
nested ones whose selection is its whole range.

Entries are read with a bound on their nesting, which is the size of the value
they are read from, so the bound is never met.
-/

namespace SourceAtlas

def SymbolKind.toJson (k : SymbolKind) : Json :=
  .nat k.code.toNat

def SymbolKind.ofJson? (v : Json) : Option SymbolKind :=
  v.byte?.map SymbolKind.ofCode

namespace Json

mutual

def weight : Json → Nat
  | .array items => 1 + weightItems items
  | .object fields => 1 + weightFields fields
  | _ => 1

def weightItems : List Json → Nat
  | [] => 0
  | v :: vs => weight v + weightItems vs

def weightFields : List (String × Json) → Nat
  | [] => 0
  | (_, v) :: fields => weight v + weightFields fields

end

end Json

namespace Outline

namespace Entry

mutual

def toJson : Entry → Json
  | ⟨name, detail, kind, range, selection, none⟩ =>
      .object [("children", .null), ("detail", Json.ofOption .string detail),
        ("kind", kind.toJson), ("name", .string name), ("range", range.toJson),
        ("selectionRange", selection.toJson)]
  | ⟨name, detail, kind, range, selection, some entries⟩ =>
      .object [("children", .array (toJsonAll entries)), ("detail", Json.ofOption .string detail),
        ("kind", kind.toJson), ("name", .string name), ("range", range.toJson),
        ("selectionRange", selection.toJson)]

def toJsonAll : List Entry → List Json
  | [] => []
  | e :: es => toJson e :: toJsonAll es

end

/-- The fields of an entry, in the order in which an array lists them. -/
def fieldNames : List String :=
  ["name", "detail", "kind", "range", "selectionRange", "children"]

/-- An entry nested at most `depth` deep from its wire form. -/
def ofJsonWithin? : Nat → Json → Option Entry
  | 0, _ => none
  | depth + 1, v =>
      match v.record? fieldNames with
      | some [some name, detail, some kind, some range, some selection, children] => do
          let n ← name.string?
          let d ← Json.optional? Json.string? detail
          let k ← SymbolKind.ofJson? kind
          let r ← Range.ofJson? range
          let s ← Range.ofJson? selection
          let c ← Json.optional? (Json.list? (ofJsonWithin? depth)) children
          return ⟨n, d, k, r, s, c⟩
      | _ => none

def ofJson? (v : Json) : Option Entry :=
  ofJsonWithin? v.weight v

def ofFlatJson? (v : Json) : Option Entry :=
  match v.record? ["name", "kind", "location", "containerName"] with
  | some [some name, some kind, some location, container] => do
      let n ← name.string?
      let k ← SymbolKind.ofJson? kind
      let l ← Location.ofJson? location
      let d ← Json.optional? Json.string? container
      return ⟨n, d, k, l.range, l.range, none⟩
  | _ => none

end Entry

/-- The entries of an answer in either shape; null is no entries. -/
def ofJson? (v : Json) : Option (List Entry) :=
  if v.isNull then some []
  else (v.list? Entry.ofJson?).or (v.list? Entry.ofFlatJson?)

end Outline

end SourceAtlas
