import SourceAtlas.Tree.Snapshot
import SourceAtlas.Wire.Span
/-!
# Exporting snapshots

A snapshot is exported as a JSON object for each artifact, with the objects of its
parts inside. Lists that are empty are left out, and so is the range of what is no
symbol; measures that are absent are null.
-/

namespace SourceAtlas

def Metrics.toJson (m : Metrics) : Json :=
  .ofFields
    [("lines_of_code", Json.ofOption .nat m.linesOfCode),
      ("lines_of_code_of_parts", Json.ofOption .nat m.linesOfCodeOfParts),
      ("lines_of_code_of_parts_in_cycles", Json.ofOption .nat m.linesOfCodeOfPartsInCycles),
      ("component_number", Json.ofOption .nat m.componentNumber),
      ("incoming_dependencies_in_scope", Json.ofOption .nat m.incomingDependenciesInScope),
      ("dependency_difference_scope", Json.ofOption .int m.dependencyDifferenceScope),
      ("dependency_difference_external", Json.ofOption .int m.dependencyDifferenceExternal)]

namespace Snapshot

def listField (key : String) (items : List Json) : List (String × Json) :=
  if items.isEmpty then [] else [(key, .array items)]

/-- The fields that all snapshots have, whatever their parts. -/
def ownFields (s : Snapshot) : List (String × Json) :=
  [("uid", .nat s.id), ("name", .string s.name), ("kind", .string s.kind),
    ("metrics", s.metrics.toJson)]
    ++ (s.range.toList.map fun r => ("range", r.toJson))
    ++ listField "depends_on_in_scope" (s.dependsOnInScope.map .nat)
    ++ listField "depends_on_external" (s.dependsOnExternal.map .nat)

mutual

def toJson : Snapshot → Json
  | ⟨id, name, kind, range, metrics, inScope, external, parts⟩ =>
      .ofFields (ownFields ⟨id, name, kind, range, metrics, inScope, external, []⟩
        ++ listField "parts" (toJsonAll parts))

def toJsonAll : List Snapshot → List Json
  | [] => []
  | s :: ss => toJson s :: toJsonAll ss

end

end Snapshot

end SourceAtlas
