import SourceAtlas.Text.Number
/-!
# Command-line arguments

There are two commands, `analyze` and `scan`. The project folder and the
configuration file may be named before the command and after it, where the name
after it counts; every other option stands after its command.

An option takes its value from the argument after it, or from the same argument
behind an equals sign. A value of its own may not start with a dash, two dashes end
the options, and an option that takes one value may be given once in each place.

A value is looked at only when the argument after it has been read, so where two
arguments are wrong the later one may be the one that is reported.
-/

namespace SourceAtlas

namespace CommandLine

structure FileFilter where
  extensions : List String
  /-- Folders that are not entered either. -/
  excluded : List String
  deriving DecidableEq, Inhabited, Repr

inductive Command where
  | analyze (server : Option String) (serverArguments : List String) (filter : FileFilter)
      (json : Bool) (depth : Option Nat)
  | scan (filter : FileFilter)
  deriving DecidableEq, Inhabited, Repr

structure Invocation where
  root : Option String
  config : Option String
  command : Command
  deriving DecidableEq, Inhabited, Repr

/-- Why a command line asks for nothing that can be done. -/
inductive Refusal where
  | help
  | nothing
  | missingCommand
  | unknownCommand
  | unknownArgument
  | missingValue
  | malformedValue
  | repeatedOption
  | unwantedValue
  deriving DecidableEq, Inhabited, Repr

inductive Switch where
  | root | config | server | serverArgument | extension | exclude | json | depth | help
  deriving DecidableEq, Inhabited, Repr

namespace Switch

def long : Switch → String
  | .root => "root"
  | .config => "config"
  | .server => "server"
  | .serverArgument => "server-arg"
  | .extension => "ext"
  | .exclude => "exclude"
  | .json => "json"
  | .depth => "depth"
  | .help => "help"

def short? : Switch → Option Char
  | .root => some 'r'
  | .config => some 'c'
  | .depth => some 'd'
  | .help => some 'h'
  | _ => none

def takesValue : Switch → Bool
  | .json | .help => false
  | _ => true

end Switch

inductive Place where
  | beforeCommand | analyze | scan
  deriving DecidableEq, Inhabited, Repr

def Place.switches : Place → List Switch
  | .beforeCommand => [.root, .config, .help]
  | .analyze =>
      [.root, .config, .server, .serverArgument, .extension, .exclude, .json, .depth, .help]
  | .scan => [.root, .config, .extension, .exclude, .help]

def Place.ofCommand? : String → Option Place
  | "analyze" => some .analyze
  | "scan" => some .scan
  | _ => none

/-- Whether an argument before the command is a command or asks for help. -/
def isCommand (argument : String) : Bool :=
  argument = "help" || (Place.ofCommand? argument).isSome

structure Given where
  root : Option String
  config : Option String
  server : Option String
  serverArguments : List String
  filter : FileFilter
  json : Bool
  depth : Option Nat
  deriving DecidableEq, Inhabited, Repr

namespace Given

def none : Given := ⟨.none, .none, .none, [], ⟨[], []⟩, false, .none⟩

def has (g : Given) : Switch → Bool
  | .root => g.root.isSome
  | .config => g.config.isSome
  | .server => g.server.isSome
  | .json => g.json
  | .depth => g.depth.isSome
  | _ => false

def set (g : Given) (s : Switch) (value : String) : Except Refusal Given :=
  if g.has s then .error .repeatedOption
  else
    match s with
    | .root => if value.isEmpty then .error .missingValue else .ok { g with root := some value }
    | .config =>
        if value.isEmpty then .error .missingValue else .ok { g with config := some value }
    | .server => .ok { g with server := some value }
    | .serverArgument => .ok { g with serverArguments := g.serverArguments ++ [value] }
    | .extension =>
        .ok { g with filter := { g.filter with extensions := g.filter.extensions ++ [value] } }
    | .exclude =>
        .ok { g with filter := { g.filter with excluded := g.filter.excluded ++ [value] } }
    | .json => .ok { g with json := true }
    | .depth =>
        match Text.number? value.toList with
        | some n => .ok { g with depth := some n }
        | .none => .error .malformedValue
    | .help => .error .help

end Given

/-- An option whose value is looked for, or is there but was not looked at yet. -/
structure Pending where
  switch : Switch
  value : Option String
  deriving DecidableEq, Inhabited, Repr

structure Reading where
  given : Given
  pending : Option Pending
  ended : Bool
  deriving DecidableEq, Inhabited, Repr

namespace Reading

def start : Reading := ⟨Given.none, none, false⟩

def settle (r : Reading) : Except Refusal Reading :=
  match r.pending with
  | none => .ok r
  | some ⟨_, none⟩ => .error .missingValue
  | some ⟨s, some value⟩ =>
      (r.given.set s value).map fun given => { r with given := given, pending := none }

def wantsValue (r : Reading) : Bool :=
  r.pending.any fun p => p.value.isNone

/-- Reads an option that takes a value, which may come with it. -/
def option (r : Reading) (s : Switch) (value : Option String) : Except Refusal Reading := do
  let r ← r.settle
  match value with
  | some value => (r.given.set s value).map fun given => { r with given := given }
  | none => return { r with pending := some ⟨s, none⟩ }

def flag (r : Reading) (s : Switch) : Except Refusal Reading := do
  let r ← r.settle
  (r.given.set s "").map fun given => { r with given := given }

def long (r : Reading) (place : Place) (cs : List Char) : Except Refusal Reading :=
  let name := String.ofList (cs.takeWhile (· ≠ '='))
  let value := match cs.dropWhile (· ≠ '=') with
    | _ :: value => some (String.ofList value)
    | [] => none
  match place.switches.find? fun s => s.long = name with
  | none => .error .unknownArgument
  | some s =>
      if s.takesValue then r.option s value
      else if value.isSome then .error .unwantedValue
      else r.flag s

def short (r : Reading) (place : Place) (c : Char) (cs : List Char) : Except Refusal Reading :=
  match place.switches.find? fun s => s.short? = some c with
  | none => .error .unknownArgument
  | some s =>
      if s.takesValue then
        match cs with
        | [] => r.option s none
        | '=' :: value => r.option s (some (String.ofList value))
        | value => r.option s (some (String.ofList value))
      else r.flag s

/-- The refusal of an argument that is neither an option nor a value. -/
def stray (r : Reading) (place : Place) (argument : String) : Refusal :=
  match place with
  | .beforeCommand =>
      if r.ended && isCommand argument then .unknownArgument else .unknownCommand
  | _ => .unknownArgument

def argument (r : Reading) (place : Place) (arg : String) : Except Refusal Reading :=
  let value :=
    if r.wantsValue then
      .ok { r with pending := r.pending.map fun p => { p with value := some arg } }
    else .error (r.stray place arg)
  if r.ended then .error (r.stray place arg)
  else
    match arg.toList with
    | ['-', '-'] => .ok { r with ended := true }
    | '-' :: '-' :: cs => r.long place cs
    | '-' :: c :: cs => r.short place c cs
    | _ => value

end Reading

/-- Reads arguments up to the end, or up to the command where one is expected. -/
def readArguments (place : Place) : Reading → List String →
    Except Refusal (Reading × Option (String × List String))
  | r, [] => .ok (r, none)
  | r, arg :: args =>
      if place = .beforeCommand ∧ !r.ended ∧ !r.wantsValue ∧ isCommand arg then
        .ok (r, some (arg, args))
      else
        match r.argument place arg with
        | .error e => .error e
        | .ok r => readArguments place r args

/-- The refusal of a question for help, which may name one command. -/
def helpOn : List String → Refusal
  | [] => .help
  | [name] => if isCommand name then .help else .unknownCommand
  | _ => .unknownCommand

def readOptions (place : Place) (args : List String) : Except Refusal Given := do
  let (r, _) ← readArguments place .start args
  let r ← r.settle
  return r.given

def commandOf (place : Place) (g : Given) : Command :=
  match place with
  | .analyze => .analyze g.server g.serverArguments g.filter g.json g.depth
  | _ => .scan g.filter

def read (args : List String) : Except Refusal Invocation := do
  let (r, command) ← readArguments .beforeCommand .start args
  match command with
  | none =>
      let r ← r.settle
      if r.given = Given.none then .error .nothing else .error .missingCommand
  | some (name, args) =>
      match Place.ofCommand? name with
      | none => .error (helpOn args)
      | some place =>
          let own ← readOptions place args
          let r ← r.settle
          return ⟨own.root.or r.given.root, own.config.or r.given.config, commandOf place own⟩

end CommandLine

end SourceAtlas
