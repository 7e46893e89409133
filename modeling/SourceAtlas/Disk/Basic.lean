import SourceAtlas.Ascending
import SourceAtlas.Disk.Error
import SourceAtlas.Path
import SourceAtlas.Text.Utf8
/-!
# Disks

A disk is a folder of entries, and an entry is a file, a folder or a link. The
place of an entry is the list of names that lead to it from the root, without any
link on the way; `Disk.resolve` finds the place of a path by following its steps
and the links they meet. Everything that looks at a disk goes through it, so a
path is found by every question or by none.

A step needs a folder to start from, also when it stays where it is: a file with
a separator after its name is not found as a folder.
-/

namespace SourceAtlas

namespace Disk

inductive Node where
  | file (octets : List UInt8) (executable : Bool)
  | folder (entries : List (String × Node))
  | link (target : Path)
  deriving Inhabited

namespace Node

/-- The entries of a folder; nothing else has any. -/
def entries : Node → List (String × Node)
  | .folder entries => entries
  | _ => []

def isFolder : Node → Bool
  | .folder _ => true
  | _ => false

/-- The entry at a place below an entry, which for no names is the entry itself. -/
def at? (n : Node) : List String → Option Node
  | [] => some n
  | name :: names => (n.entries.lookup name).bind fun entry => entry.at? names

@[simp] theorem at?_nil (n : Node) : n.at? [] = some n := rfl

theorem at?_cons (n : Node) (name : String) (names : List String) :
    n.at? (name :: names) = (n.entries.lookup name).bind fun entry => entry.at? names := rfl

theorem at?_append (n : Node) (place names : List String) :
    n.at? (place ++ names) = (n.at? place).bind fun entry => entry.at? names := by
  induction place generalizing n with
  | nil => rfl
  | cons name place ih =>
      rw [List.cons_append, at?_cons, at?_cons]
      cases n.entries.lookup name with
      | none => rfl
      | some entry => exact ih entry

/-- Puts an entry at a place below a folder. Folders that are missing on the way
are made. -/
def putAt (n : Node) (new : Node) : List String → Node
  | [] => new
  | name :: names =>
      .folder (Ascending.alter name
        (fun entry => (entry.getD (.folder [])).putAt new names) n.entries)

/-- Takes the entry at a place below a folder away, with everything below it. -/
def removeAt : List String → Node → Node
  | [name], .folder entries => .folder (entries.filter fun entry => entry.1 != name)
  | name :: names, .folder entries =>
      .folder (entries.map fun entry =>
        if entry.1 == name then (entry.1, removeAt names entry.2) else entry)
  | _, n => n

end Node

/-- How many links a path may meet. -/
def maxLinks : Nat := 40

def maxName : Nat := 255

end Disk

structure Disk where
  root : Disk.Node
  current : List String
  deriving Inhabited

namespace Disk

def empty : Disk := ⟨.folder [], []⟩

def node? (d : Disk) (place : List String) : Option Node :=
  d.root.at? place

def pathOf (place : List String) : Path :=
  ⟨"/" ++ "/".intercalate place⟩

/-- Follows the pieces of a path from a place, meeting at most `links` links. -/
def follow (d : Disk) (links : Nat) (place : List String) (pieces : List (List Char)) :
    Except Error (List String) :=
  match pieces with
  | [] => .ok place
  | piece :: rest =>
      match d.node? place with
      | some (.folder entries) =>
          match Path.step? piece with
          | some (.entry name) =>
              if maxName < (Utf8.encode name).length then .error .nameTooLong
              else
                match entries.lookup name with
                | none => .error .notFound
                | some (.link target) =>
                    match links with
                    | 0 => .error .tooManyLinks
                    | links + 1 =>
                        d.follow links (if target.isAbsolute then [] else place)
                          (Path.pieces target.text.toList ++ rest)
                | some _ => d.follow links (place ++ [name]) rest
          | some .up => d.follow links place.dropLast rest
          | _ => d.follow links place rest
      | _ => .error .notAFolder
termination_by (links, pieces.length)

def resolve (d : Disk) (p : Path) : Except Error (List String) :=
  if p.text.toList.contains (Char.ofNat 0) then .error .nulInPath
  else if p.text.isEmpty then .error .notFound
  else d.follow maxLinks (if p.isAbsolute then [] else d.current) (Path.pieces p.text.toList)

def find (d : Disk) (p : Path) : Except Error Node := do
  let place ← d.resolve p
  match d.node? place with
  | some node => .ok node
  | none => .error .notFound

def has (d : Disk) (p : Path) : Bool :=
  match d.find p with
  | .ok _ => true
  | .error _ => false

def hasFolder (d : Disk) (p : Path) : Bool :=
  match d.find p with
  | .ok node => node.isFolder
  | .error _ => false

def read (d : Disk) (p : Path) : Except Error (List UInt8) :=
  match d.find p with
  | .ok (.file octets _) => .ok octets
  | .ok _ => .error .isAFolder
  | .error e => .error e

def readText (d : Disk) (p : Path) : Except Error String :=
  match d.read p with
  | .ok octets =>
      match Utf8.decode? octets with
      | some text => .ok text
      | none => .error .notText
  | .error e => .error e

/-- Whether a program could be run as `command` with the folder `home` as the
place its relative paths start from. A command without a separator is looked for
among the installed programs, of which a disk has none. -/
def mayRun (d : Disk) (command : String) (arguments : List String) (home : Path) :
    Except Error Unit := do
  if (command :: arguments).any fun text => text.toList.contains (Char.ofNat 0) then
    .error .nulInCommand
  let place ← d.resolve home
  match d.node? place with
  | some (.folder _) => .ok ()
  | _ => .error .notAFolder
  if command.toList.contains '/' then
    match ({ d with current := place } : Disk).find ⟨command⟩ with
    | .ok (.file _ true) => .ok ()
    | .ok _ => .error .accessDenied
    | .error e => .error e
  else .error .notFound

/-! ## Changing a disk -/

/-- The place that a path names, or would name once the folders it leads through
are made. -/
def target (d : Disk) (links : Nat) (place : List String) (pieces : List (List Char)) :
    List String :=
  match pieces with
  | [] => place
  | piece :: rest =>
      match Path.step? piece with
      | some (.entry name) =>
          match d.node? (place ++ [name]), links with
          | some (.link p), links + 1 =>
              d.target links (if p.isAbsolute then [] else place)
                (Path.pieces p.text.toList ++ rest)
          | _, links => d.target links (place ++ [name]) rest
      | some .up => d.target links place.dropLast rest
      | _ => d.target links place rest
termination_by (links, pieces.length)

/-- The place of a path's own last step, which may be a link, after the links
before it. -/
def targetOfEntry (d : Disk) (p : Path) : List String :=
  let start := if p.isAbsolute then [] else d.current
  match p.parent?, p.fileName? with
  | some folder, some name => d.target maxLinks start (Path.pieces folder.text.toList) ++ [name]
  | _, _ => d.target maxLinks start (Path.pieces p.text.toList)

/-- Writes a file, through the links its path meets. -/
def write (d : Disk) (p : Path) (octets : List UInt8) (executable : Bool) : Disk :=
  let start := if p.isAbsolute then [] else d.current
  { d with
    root := d.root.putAt (.file octets executable)
      (d.target maxLinks start (Path.pieces p.text.toList)) }

/-- Makes a folder, unless there is one already. -/
def makeFolder (d : Disk) (p : Path) : Disk :=
  let start := if p.isAbsolute then [] else d.current
  let place := d.target maxLinks start (Path.pieces p.text.toList)
  match d.node? place with
  | some (.folder _) => d
  | _ => { d with root := d.root.putAt (.folder []) place }

def makeLink (d : Disk) (p target : Path) : Disk :=
  { d with root := d.root.putAt (.link target) (d.targetOfEntry p) }

/-- Takes away what is at a path; a link is taken away itself. -/
def remove (d : Disk) (p : Path) : Disk :=
  { d with root := Node.removeAt (d.targetOfEntry p) d.root }

end Disk

end SourceAtlas
