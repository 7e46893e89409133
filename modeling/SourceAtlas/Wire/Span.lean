import SourceAtlas.Json.Basic
import SourceAtlas.Span
/-!
# Positions, ranges and locations on the wire

Each of them is a record of the wire format, so it is read from an object or from
an array of its fields, and written as an object.
-/

namespace SourceAtlas

def Position.toJson (p : Position) : Json :=
  .object [("character", .nat p.character.toNat), ("line", .nat p.line.toNat)]

def Position.ofJson? (v : Json) : Option Position :=
  match v.record? ["line", "character"] with
  | some [some line, some character] => do
      let l ← line.word32?
      let c ← character.word32?
      return ⟨l, c⟩
  | _ => none

def Range.toJson (r : Range) : Json :=
  .object [("end", r.stop.toJson), ("start", r.start.toJson)]

def Range.ofJson? (v : Json) : Option Range :=
  match v.record? ["start", "end"] with
  | some [some start, some stop] => do
      let s ← Position.ofJson? start
      let e ← Position.ofJson? stop
      return ⟨s, e⟩
  | _ => none

def Location.toJson (l : Location) : Json :=
  .object [("range", l.range.toJson), ("uri", .string l.uri)]

def Location.ofJson? (v : Json) : Option Location :=
  match v.record? ["uri", "range"] with
  | some [some uri, some range] => do
      let u ← uri.string?
      let r ← Range.ofJson? range
      return ⟨u, r⟩
  | _ => none

/-- The locations of a result; null is none. -/
def Location.listOfJson? (v : Json) : Option (List Location) :=
  if v.isNull then some [] else v.list? Location.ofJson?

theorem Position.ofJson?_toJson (p : Position) : Position.ofJson? p.toJson = some p := by
  simp [Position.ofJson?, Position.toJson, Json.record?, List.lookup_cons]

theorem Range.ofJson?_toJson (r : Range) : Range.ofJson? r.toJson = some r := by
  simp [Range.ofJson?, Range.toJson, Json.record?, List.lookup_cons, Position.ofJson?_toJson]

theorem Location.ofJson?_toJson (l : Location) : Location.ofJson? l.toJson = some l := by
  simp [Location.ofJson?, Location.toJson, Json.record?, Json.string?, List.lookup_cons,
    Range.ofJson?_toJson]

end SourceAtlas
