import SourceAtlas.Ignore
/-!
# Walking a disk

A walk starts at a place of a disk and comes to what is there and to the entries below it.
Hidden entries are passed over where that is wanted, and so are entries that ignore rules say
no to, where these count; whoever walks may pass over others. Nothing below an entry that was
passed over is come to. Links are come to, but not followed.

How a walk is made is left open (`Disk.Walk`). The one that is used comes to a folder before
its entries, and to these in their order (`Disk.Walk.standard`).
-/

namespace SourceAtlas

namespace Disk

namespace Walk

/-- What a walk comes to, with the names that lead to it from where the walk started. -/
structure Entry where
  steps : List String
  node : Node
  deriving Inhabited

/-- An entry seen from the folder around the place it was seen from. -/
def Entry.below (name : String) (e : Entry) : Entry :=
  { e with steps := name :: e.steps }

structure Settings where
  place : List String
  skipHidden : Bool
  respectIgnoreRules : Bool
  /-- Which entries are not passed over. It is not asked where the walk starts. -/
  keeps : Entry → Bool

/-- The settings of the part of a walk that is inside a folder. -/
def Settings.inside (s : Settings) (name : String) : Settings :=
  { s with place := s.place ++ [name], keeps := fun e => s.keeps (e.below name) }

end Walk

/-- The entries that a walk over a disk comes to, one after another. -/
abbrev Walk := Disk → Walk.Settings → List Walk.Entry

namespace Walk

/-- Whether an entry is hidden: its name starts with a dot. -/
def isHidden (name : String) : Bool :=
  name.toList.head? == some '.'

/-- Whether an entry is neither hidden nor ignored. A rule that keeps it has the last word. -/
def isShown (s : Settings) (layers : List Ignore.Layer) (name : String) (isFolder : Bool) :
    Bool :=
  match if s.respectIgnoreRules then Ignore.ask layers name isFolder else none with
  | some .ignored => false
  | some .kept => true
  | none => !(s.skipHidden && isHidden name)

/-- The rules where a walk starts, where rules count. -/
def layersAt (d : Disk) (s : Settings) : List Ignore.Layer :=
  if s.respectIgnoreRules then Ignore.layers d s.place else []

/-- The rules of a folder inside the one at a place, where rules count. -/
def layersInside (d : Disk) (s : Settings) (name : String) (layers : List Ignore.Layer) :
    List Ignore.Layer :=
  if s.respectIgnoreRules then Ignore.enter d s.place name layers else []

/-- Whether a walk comes to an entry of the folder it has come to. -/
def visits (s : Settings) (layers : List Ignore.Layer) (name : String) (n : Node) : Bool :=
  isShown s layers name n.isFolder && s.keeps ⟨[name], n⟩

mutual

/-- An entry of the folder that a walk has come to, and what is below it. -/
def visit (d : Disk) (s : Settings) (layers : List Ignore.Layer) (name : String) :
    Node → List Entry
  | .folder entries =>
      if visits s layers name (.folder entries) then
        ⟨[name], .folder entries⟩
          :: (visitAll d (s.inside name) (layersInside d s name layers) entries).map
            (Entry.below name)
      else []
  | n => if visits s layers name n then [⟨[name], n⟩] else []

/-- The entries of the folder that a walk has come to, and what is below them. -/
def visitAll (d : Disk) (s : Settings) (layers : List Ignore.Layer) :
    List (String × Node) → List Entry
  | [] => []
  | (name, n) :: rest => visit d s layers name n ++ visitAll d s layers rest

end

/-- What a walk comes to from an entry on: the entry itself, and then what is below it. -/
def within (d : Disk) (s : Settings) (layers : List Ignore.Layer) (n : Node) : List Entry :=
  ⟨[], n⟩ :: visitAll d s layers n.entries

/-- A walk that comes to entries in their order, and to a folder before what is in it. -/
def standard : Walk := fun d s =>
  match d.node? s.place with
  | some n => within d s (layersAt d s) n
  | none => []

end Walk

end Disk

end SourceAtlas
