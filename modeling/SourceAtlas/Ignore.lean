import SourceAtlas.Disk.Basic
import SourceAtlas.Pattern.Glob
import SourceAtlas.Text.Blank
import SourceAtlas.Text.Lines
/-!
# Ignore rules

A folder may hold a file that says which entries below it are to be passed over.
Every line of such a file is a rule: a pattern, perhaps with a mark that keeps what
it matches, and perhaps for folders only. Of the rules that match an entry the last
one in a file decides.

Rules of inner folders come before rules of outer ones, up to the root of the
disk. Each folder has two files of rules: its own one, and the list of exclusions
of a repository that starts in the folder, which is asked only when none of the
former says anything.
-/

namespace SourceAtlas

namespace Ignore

inductive Verdict where
  | ignored
  | kept
  deriving DecidableEq, Inhabited, Repr

structure Rule where
  pattern : Regex
  verdict : Verdict
  foldersOnly : Bool
  deriving Inhabited

/-! ## Reading rules -/

/-- The characters of a rule without the blanks at its end. A blank that has a
backslash before it keeps all of them. -/
def trimRule (line : List Char) : List Char :=
  match line.reverse with
  | ' ' :: '\\' :: _ => line
  | _ => (line.reverse.dropWhile Text.isBlank).reverse

/-- What the marks at the start of a rule say: its verdict, whether it is for
entries at one place only, and its pattern. -/
def readMarks : List Char → Verdict × Bool × List Char
  | '\\' :: '!' :: cs => (.ignored, false, '!' :: cs)
  | '\\' :: '#' :: cs => (.ignored, false, '#' :: cs)
  | '!' :: '/' :: cs => (.kept, true, cs)
  | '!' :: cs => (.kept, false, cs)
  | '/' :: cs => (.ignored, true, cs)
  | cs => (.ignored, false, cs)

/-- Whether a rule is for folders only, and its pattern without the separator that
says so. -/
def readFolderMark (cs : List Char) : Bool × List Char :=
  match cs.reverse with
  | '/' :: '\\' :: rest => (true, rest.reverse)
  | '/' :: rest => (true, rest.reverse)
  | _ => (false, cs)

/-- The pattern for a whole path: a pattern that names no folder holds at every
depth, and one that ends below a folder does not match the folder. -/
def wholePath (anchored : Bool) (cs : List Char) : List Char :=
  let free := !anchored && !cs.contains '/' && cs != ['*', '*']
  let cs := if free then '*' :: '*' :: '/' :: cs else cs
  match cs.reverse with
  | '*' :: '*' :: '/' :: _ => cs ++ ['/', '*']
  | _ => cs

/-- The rule on a line; none for comments, for blank lines and for patterns that
cannot be read. -/
def Rule.ofLine? (line : List Char) : Option Rule :=
  match line with
  | '#' :: _ => none
  | line =>
      match trimRule line with
      | [] => none
      | cs =>
          let (verdict, anchored, cs) := readMarks cs
          let (foldersOnly, cs) := readFolderMark cs
          (Glob.read? (wholePath anchored cs)).map fun signs =>
            ⟨Glob.regex signs, verdict, foldersOnly⟩

def cutLines : List UInt8 → List (List UInt8)
  | [] => []
  | b :: bs =>
      if b = 0x0A then [b] :: cutLines bs
      else
        match cutLines bs with
        | [] => [[b]]
        | line :: lines => (b :: line) :: lines

/-- The text of lines up to the first one that is no text. -/
def leadingText : List (List UInt8) → List Char
  | [] => []
  | line :: lines =>
      match Utf8.decode? line with
      | some text => text.toList ++ leadingText lines
      | none => []

/-- The first line without the marks of the octet order before it. -/
def dropOrderMarks : List (List Char) → List (List Char)
  | [] => []
  | line :: lines => line.dropWhile (· == '\uFEFF') :: lines

def rules (octets : List UInt8) : List Rule :=
  (dropOrderMarks (Text.lines (leadingText (cutLines octets)))).filterMap Rule.ofLine?

/-! ## Asking rules -/

/-- What the rules of a file say about the entry at a path below their folder. -/
def verdict? (rules : List Rule) (path : List UInt8) (isFolder : Bool) : Option Verdict :=
  (rules.reverse.find? fun rule =>
    (isFolder || !rule.foldersOnly) && rule.pattern.accepts path).map Rule.verdict

/-- The rules of one folder, seen from a folder at or below it. -/
structure Layer where
  /-- The names that lead from the folder of the rules to the one looked from. -/
  steps : List String
  own : List Rule
  excluded : List Rule
  deriving Inhabited

def pathOctets (steps : List String) : List UInt8 :=
  Utf8.encode ("/".intercalate steps)

/-- What layers of rules, the innermost first, say about an entry of the folder
they are seen from. -/
def ask (layers : List Layer) (name : String) (isFolder : Bool) : Option Verdict :=
  let from? (rulesOf : Layer → List Rule) :=
    layers.findSome? fun layer =>
      verdict? (rulesOf layer) (pathOctets (layer.steps ++ [name])) isFolder
  (from? Layer.own).or (from? Layer.excluded)

/-- The rules in the file at a path; none where there is no such file. -/
def rulesAt (d : Disk) (p : Path) : List Rule :=
  match d.read p with
  | .ok octets => rules octets
  | .error _ => []

/-- The rules of the folder at a place, seen from that folder. -/
def layerAt (d : Disk) (place : List String) : Layer :=
  ⟨[], rulesAt d (Disk.pathOf (place ++ [".gitignore"])),
    rulesAt d (Disk.pathOf (place ++ [".git", "info", "exclude"]))⟩

/-- The layers seen from a folder inside the one they were seen from. -/
def enter (d : Disk) (place : List String) (name : String) (layers : List Layer) : List Layer :=
  layerAt d (place ++ [name])
    :: layers.map fun layer => { layer with steps := layer.steps ++ [name] }

/-- The layers seen from the folder at a place that `names` lead to from `base`. -/
def enterAll (d : Disk) (base : List String) (layers : List Layer) : List String → List Layer
  | [] => layers
  | name :: names => enterAll d (base ++ [name]) (enter d base name layers) names

/-- The layers seen from the folder at a place. -/
def layers (d : Disk) (place : List String) : List Layer :=
  enterAll d [] [layerAt d []] place

end Ignore

end SourceAtlas
