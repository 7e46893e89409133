import SourceAtlas.Pattern.Regex
import SourceAtlas.Text.Utf8
/-!
# Patterns for paths

A pattern is a path in which some signs stand for more than themselves: `?` for
one octet of a name, `*` for any octets of a name, `**` between separators for any
number of names, a class in brackets for one of its characters, alternatives in
braces for one of them. A backslash takes the meaning away from the sign after it.

`Glob.read?` reads the signs of a pattern, and `Glob.regex` says which paths they
match. A class that is never closed is a bracket and nothing more, and so are all
brackets after it; a range that runs backwards, braces without their counterpart
and a backslash at the end make the pattern unreadable.
-/

namespace SourceAtlas

namespace Glob

inductive Sign where
  | literal (c : Char)
  | one
  | many
  /-- Any names before what follows, or none. -/
  | leading
  | trailing
  /-- Any names between what came before and what follows, or none. -/
  | between
  | range (outside : Bool) (ranges : List (Char × Char))
  | choice (branches : List (List Sign))
  deriving Inhabited

/-! ## Reading -/

/-- The ranges of a class up to its closing bracket. -/
inductive ClassReading where
  | closed (ranges : List (Char × Char)) (rest : List Char)
  | unclosed
  | backwards
  deriving Inhabited

/-- Reads the characters of a class. `first` holds for its first character, which
is a member whatever it is, and `inRange` after a dash that may join two members.
The ranges read so far are given last one first. -/
def readClass (first inRange : Bool) (ranges : List (Char × Char)) :
    List Char → ClassReading
  | [] => .unclosed
  | ']' :: cs =>
      if first then readClass false false ((']', ']') :: ranges) cs
      else .closed ((if inRange then ('-', '-') :: ranges else ranges).reverse) cs
  | c :: cs =>
      if c = '-' && !first && !inRange then readClass false true ranges cs
      else
        match inRange, ranges with
        | true, (low, _) :: others =>
            if c < low then .backwards else readClass false false ((low, c) :: others) cs
        | _, _ => readClass false false ((c, c) :: ranges) cs

theorem length_of_readClass {first inRange : Bool} {ranges found : List (Char × Char)}
    {cs rest : List Char} (h : readClass first inRange ranges cs = .closed found rest) :
    rest.length < cs.length := by
  fun_induction readClass first inRange ranges cs with
  | case1 => simp at h
  | case2 => simp_all; omega
  | case3 =>
      simp only [ClassReading.closed.injEq] at h
      simp [h.2]
  | case4 => simp_all; omega
  | case5 => simp at h
  | case6 => simp_all; omega
  | case7 => simp_all; omega

/-- Whether a class is of the characters outside it, and the characters after the
mark that says so. -/
def classMark : List Char → Bool × List Char
  | '!' :: cs | '^' :: cs => (true, cs)
  | cs => (false, cs)

theorem length_classMark_le (cs : List Char) : (classMark cs).2.length ≤ cs.length := by
  unfold classMark
  split <;> simp

structure Reading where
  /-- The signs of the branch that is being read, last one first. -/
  signs : List Sign
  /-- The finished branches of the innermost braces, last one first. -/
  branches : List (List Sign)
  /-- What was being read around each pair of braces, innermost first. -/
  outer : List (List Sign × List (List Sign))
  deriving Inhabited

namespace Reading

def start : Reading := ⟨[], [], []⟩

def push (r : Reading) (s : Sign) : Reading :=
  { r with signs := s :: r.signs }

def nested (r : Reading) : Bool :=
  !r.outer.isEmpty

/-- Puts a sign for any number of names in the place of the separator before it,
unless that is such a sign already. -/
def replaceLast (r : Reading) (s : Sign) : Reading :=
  match r.signs with
  | .leading :: _ | .trailing :: _ => r
  | _ :: signs => { r with signs := s :: signs }
  | [] => r

def openBraces (r : Reading) : Reading :=
  ⟨[], [], (r.signs, r.branches) :: r.outer⟩

def nextBranch (r : Reading) : Reading :=
  { r with signs := [], branches := r.signs.reverse :: r.branches }

def closeBraces? (r : Reading) : Option Reading :=
  match r.outer with
  | [] => none
  | (signs, branches) :: outer =>
      some ⟨.choice (r.signs.reverse :: r.branches).reverse :: signs, branches, outer⟩

end Reading

/-- Reads two stars at the front of which `before` stands. They stand for any
number of names where nothing but separators is next to them, and otherwise for
any octets of one name. Gives the characters that are left, the last one that was
taken, and what has been read. -/
def readStars (r : Reading) (before : Option Char) (cs : List Char) :
    Reading × Char × List Char :=
  let plain := ((r.push .many).push .many, '*', cs)
  if r.signs.isEmpty then
    match cs with
    | [] => (r.push .leading, '*', [])
    | '/' :: rest => (r.push .leading, '/', rest)
    | _ => plain
  else if before ≠ some '/' ∧ ¬ (r.nested ∧ (before = some ',' ∨ before = some '{')) then plain
  else
    match cs with
    | [] => (r.replaceLast .trailing, '*', [])
    | '/' :: rest => (r.replaceLast .between, '/', rest)
    | c :: _ => if r.nested ∧ (c = ',' ∨ c = '}') then (r.replaceLast .trailing, '*', cs) else plain

theorem length_readStars_le (r : Reading) (before : Option Char) (cs : List Char) :
    (readStars r before cs).2.2.length ≤ cs.length := by
  unfold readStars
  grind

/-- Reads the rest of a pattern. `before` is the character before it, and
`literalBrackets` holds after a class that is never closed. -/
def readSigns (r : Reading) (before : Option Char) (literalBrackets : Bool) (cs : List Char) :
    Option (List Sign) :=
  match cs with
  | [] => if r.nested then none else some r.signs.reverse
  | '?' :: cs => readSigns (r.push .one) (some '?') literalBrackets cs
  | '*' :: '*' :: cs =>
      have := length_readStars_le r before cs
      readSigns (readStars r before cs).1 (some (readStars r before cs).2.1) literalBrackets
        (readStars r before cs).2.2
  | '*' :: cs => readSigns (r.push .many) (some '*') literalBrackets cs
  | '[' :: cs =>
      if literalBrackets then readSigns (r.push (.literal '[')) (some '[') true cs
      else
        match _read : readClass true false [] (classMark cs).2 with
        | .closed ranges rest =>
            have := length_of_readClass _read
            have := length_classMark_le cs
            readSigns (r.push (.range (classMark cs).1 ranges)) (some ']') false rest
        | .unclosed => readSigns (r.push (.literal '[')) (some '[') true cs
        | .backwards => none
  | '{' :: cs => readSigns r.openBraces (some '{') literalBrackets cs
  | '}' :: cs =>
      match r.closeBraces? with
      | some r => readSigns r (some '}') literalBrackets cs
      | none => none
  | ',' :: cs =>
      readSigns (if r.nested then r.nextBranch else r.push (.literal ',')) (some ',')
        literalBrackets cs
  | ['\\'] => none
  | '\\' :: c :: cs => readSigns (r.push (.literal c)) (some c) literalBrackets cs
  | c :: cs => readSigns (r.push (.literal c)) (some c) literalBrackets cs
termination_by cs.length
decreasing_by all_goals (simp only [List.length_cons]; omega)

def read? (pattern : List Char) : Option (List Sign) :=
  readSigns .start none false pattern

/-! ## Matching -/

def separator : UInt8 := 0x2F

def nameOctets : Regex := .star (.except separator)

def anything : Regex := .star .any

/-- The octets that stand for the characters from `low` to `high`. Octets are
compared one by one, so only the last octet of `low` and the first one of `high`
make a range. -/
def rangeOctets (low high : Char) : List (UInt8 × UInt8) :=
  let single (b : UInt8) := (b, b)
  let lows := Utf8.encode (String.singleton low)
  let highs := Utf8.encode (String.singleton high)
  if low = high then lows.map single
  else
    match lows.reverse, highs with
    | l :: before, h :: after => before.reverse.map single ++ [(l, h)] ++ after.map single
    | _, _ => []

mutual

/-- What a sign matches. A choice between nothing but empty patterns is no sign at
all. -/
def Sign.regex? : Sign → Option Regex
  | .literal c => some (Regex.word (Utf8.encode (String.singleton c)))
  | .one => some (.except separator)
  | .many => some nameOctets
  | .leading =>
      some (.either (.either .empty (.only separator)) (.seq anything (.only separator)))
  | .trailing => some (.seq (.only separator) anything)
  | .between =>
      some (.either (.only separator)
        (.seq (.only separator) (.seq anything (.only separator))))
  | .range outside ranges =>
      some (.octet outside (ranges.flatMap fun (low, high) => rangeOctets low high))
  | .choice branches => choiceRegex? branches

/-- What one of several branches matches; empty branches do not count. -/
def choiceRegex? : List (List Sign) → Option Regex
  | [] => none
  | branch :: branches =>
      match signsRegex? branch, choiceRegex? branches with
      | some r, some s => some (.either r s)
      | some r, none => some r
      | none, rest => rest

/-- What signs match one after another; nothing where there are none. -/
def signsRegex? : List Sign → Option Regex
  | [] => none
  | sign :: signs =>
      match sign.regex?, signsRegex? signs with
      | some r, some s => some (.seq r s)
      | some r, none => some r
      | none, rest => rest

end

/-- What a pattern matches. A pattern that is only two stars matches
everything. -/
def regex (signs : List Sign) : Regex :=
  match signs with
  | [.leading] => anything
  | signs => (signsRegex? signs).getD .empty

end Glob

end SourceAtlas
