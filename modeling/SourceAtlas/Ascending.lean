/-!
# Ascending entries

Entries under names, ascending by name, so that every name occurs once. Texts are
compared by their characters, which is the order of their octets as well.
-/

namespace SourceAtlas

namespace Ascending

/-- Changes the entry under a name, or makes one where there is none. -/
def alter {α : Type} (name : String) (f : Option α → α) :
    List (String × α) → List (String × α)
  | [] => [(name, f none)]
  | (k, v) :: rest =>
      if name < k then (name, f none) :: (k, v) :: rest
      else if name = k then (name, f (some v)) :: rest
      else (k, v) :: alter name f rest

/-- Enters a value under a name; it takes the place of the value the name had. -/
def put {α : Type} (name : String) (value : α) (entries : List (String × α)) :
    List (String × α) :=
  alter name (fun _ => value) entries

@[simp] theorem alter_nil {α : Type} (name : String) (f : Option α → α) :
    alter name f [] = [(name, f none)] := rfl

end Ascending

end SourceAtlas
