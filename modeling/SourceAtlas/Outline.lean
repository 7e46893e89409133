import SourceAtlas.Span
import SourceAtlas.SymbolKind
/-!
# Outlines

The outline of a document is a list of entries, each with the entries nested in
it. A server may leave the list of nested entries out, which is not the same as
sending an empty one, so the list is optional; `Outline.Entry.nested` reads both
as no entries.
-/

namespace SourceAtlas

namespace Outline

structure Entry where
  name : String
  detail : Option String
  kind : SymbolKind
  range : Range
  selection : Range
  children : Option (List Entry)
  deriving Inhabited

namespace Entry

def nested (e : Entry) : List Entry :=
  e.children.getD []

mutual

/-- The number of symbols an entry stands for: itself and all nested ones. -/
def count : Entry → Nat
  | ⟨_, _, _, _, _, none⟩ => 1
  | ⟨_, _, _, _, _, some entries⟩ => 1 + countAll entries

def countAll : List Entry → Nat
  | [] => 0
  | e :: es => count e + countAll es

end

@[simp] theorem countAll_nil : countAll [] = 0 := rfl

@[simp] theorem countAll_cons (e : Entry) (es : List Entry) :
    countAll (e :: es) = count e + countAll es := rfl

end Entry

end Outline

end SourceAtlas
