/-!
# Paths

A path is kept as the text it was written as, because messages show that text.
Two paths name the same place when their components agree, so everything that
looks a path up works on `Path.components`: repeated separators, inner and
trailing dots and a trailing separator leave no trace there, a leading dot and
every parent step do.

`join`, `parent?` and `fileName?` follow the same reading of the text.
-/

namespace SourceAtlas

structure Path where
  text : String
  deriving DecidableEq, Inhabited, Repr

namespace Path

inductive Component where
  | root
  | here
  | up
  | entry (name : String)
  deriving DecidableEq, Inhabited, Repr

/-- The pieces of a text between separators, the empty ones included. -/
def pieces : List Char → List (List Char)
  | [] => [[]]
  | '/' :: cs => [] :: pieces cs
  | c :: cs =>
      match pieces cs with
      | [] => [[c]]
      | p :: ps => (c :: p) :: ps

@[simp] theorem pieces_nil : pieces [] = [[]] := rfl

@[simp] theorem pieces_separator (cs : List Char) :
    pieces ('/' :: cs) = [] :: pieces cs := by
  simp [pieces]

/-- The step a piece stands for; empty pieces and dots stand for none. -/
def step? : List Char → Option Component
  | [] => none
  | ['.'] => none
  | ['.', '.'] => some .up
  | name => some (.entry (String.ofList name))

def isAbsolute (p : Path) : Bool :=
  match p.text.toList with
  | '/' :: _ => true
  | _ => false

/-- The steps of a path. Two paths with the same steps name the same place. -/
def components (p : Path) : List Component :=
  match pieces p.text.toList with
  | [] => []
  | first :: rest =>
      let inner := rest.filterMap step?
      match first with
      | [] => if p.isAbsolute then .root :: inner else inner
      | ['.'] => .here :: inner
      | _ => (step? first).toList ++ inner

/-- The path that `p` leads to when it is followed from `base`: `p` itself when
it is absolute, otherwise `p` after `base`, with a separator between them where
`base` does not end with one already. -/
def join (base p : Path) : Path :=
  if p.isAbsolute then p
  else if base.text.isEmpty then p
  else if base.text.toList.getLast? = some '/' then ⟨base.text ++ p.text⟩
  else ⟨base.text ++ "/" ++ p.text⟩

/-- Drops the separators and dots that add no step to the end of a path. The
characters are given last one first. -/
def trimEnd : List Char → List Char
  | ['/'] => ['/']
  | '/' :: cs => trimEnd cs
  | '.' :: '/' :: cs => trimEnd ('/' :: cs)
  | cs => cs

/-- The path without its last step, where that step is not the root. -/
def parent? (p : Path) : Option Path :=
  match p.components.getLast? with
  | none => none
  | some .root => none
  | some _ =>
      let kept := (trimEnd p.text.toList.reverse).dropWhile (· ≠ '/')
      some ⟨String.ofList (trimEnd kept).reverse⟩

def fileName? (p : Path) : Option String :=
  match p.components.getLast? with
  | some (.entry name) => some name
  | _ => none

/-- The name a folder at this path goes by: its own name, or the whole path when
it ends with no name. -/
def displayName (p : Path) : String :=
  p.fileName?.getD p.text

/-- The part of a file name after its last dot, where that dot is not the first
character. -/
def extensionOf? (name : String) : Option String :=
  let tail := name.toList.reverse.takeWhile (· ≠ '.')
  let head := name.toList.reverse.dropWhile (· ≠ '.')
  match head with
  | _ :: _ :: _ => some (String.ofList tail.reverse)
  | _ => none

end Path

end SourceAtlas
