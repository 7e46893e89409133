import SourceAtlas.Analysis.Run
/-!
# The course of an analysis

Calls of an analysis overlap. Some files are outlined at the same time, though the tree
takes the outlines in file by file; the queries about symbols are all begun together,
some of them are with the server, and their outcomes are collected as they arrive.

A course is an analysis between any two of these things. The server answers when it
likes and as it likes, and the run may be cancelled at any time. A move that cannot be
made leaves the course as it is, so any list of moves is a schedule.
-/

namespace SourceAtlas

namespace Analysis

/-- How far a call is that asks the server for something. -/
inductive Progress (α : Type) where
  | idle
  /-- The document is announced, and the server has not taken it yet. -/
  | opening
  | asked
  | settled (outcome : Except CallError α)
  deriving Inhabited

namespace Progress

/-- Begins a call. It looks whether the run was cancelled before it asks anything. -/
def launch {α : Type} (cancelled opens : Bool) : Progress α → Progress α
  | .idle =>
      if cancelled then .settled (.error .cancelled) else if opens then .opening else .asked
  | p => p

def opened {α : Type} (answer : Except CallError Unit) : Progress α → Progress α
  | .opening =>
      match answer with
      | .ok () => .asked
      | .error e => .settled (.error e)
  | p => p

def answered {α : Type} (outcome : Except CallError α) : Progress α → Progress α
  | .asked => .settled outcome
  | p => p

def isAsked {α : Type} : Progress α → Bool
  | .asked => true
  | _ => false

/-- One of some calls goes on. -/
def advance {κ α : Type} (calls : List (κ × Progress α)) (n : Nat)
    (f : Progress α → Progress α) : List (κ × Progress α) :=
  calls.modify n fun call => (call.1, f call.2)

@[simp] theorem length_advance {κ α : Type} (calls : List (κ × Progress α)) (n : Nat)
    (f : Progress α → Progress α) : (advance calls n f).length = calls.length := by
  simp [advance]

theorem getElem?_advance {κ α : Type} (calls : List (κ × Progress α)) (n k : Nat)
    (f : Progress α → Progress α) :
    (advance calls n f)[k]? =
      if n = k then calls[k]?.map fun call => (call.1, f call.2) else calls[k]? := by
  rw [advance, List.getElem?_modify]
  split <;> simp

/-- What a call is about does not change. -/
@[simp] theorem map_fst_advance {κ α : Type} (calls : List (κ × Progress α)) (n : Nat)
    (f : Progress α → Progress α) : (advance calls n f).map (·.1) = calls.map (·.1) := by
  refine List.ext_getElem? fun k => ?_
  rw [List.getElem?_map, List.getElem?_map, getElem?_advance]
  split
  · rw [Option.map_map]
    rfl
  · rfl

end Progress

inductive Phase where
  /-- The folder is loaded. -/
  | ready
  | greeting
  | outlining
  | asking
  /-- The dependencies are recorded. -/
  | recorded
  | ended (result : Except Failure Tree)
  deriving Inhabited

/-- Whether the dependencies are still to be recorded. -/
def Phase.isEarly : Phase → Bool
  | .ready | .greeting | .outlining | .asking => true
  | .recorded | .ended _ => false

structure Course where
  options : Extract.Options
  /-- How many calls may be under way at once. -/
  limit : Nat
  tree : Tree
  cancelled : Bool
  phase : Phase
  outlines : List (Extract.Job × Progress (List Outline.Entry))
  /-- How many outlines the tree has taken in. -/
  taken : Nat
  extracted : Extract.Report
  questions : List (Resolve.Query × Progress (List Location))
  /-- The outcomes that were collected, each with the number of its question. -/
  arrived : List (Nat × Resolve.Outcome)
  resolved : Option Resolve.Report
  deriving Inhabited

namespace Course

/-- The course of an analysis that has loaded a folder. A limit of no calls at all counts
as a limit of one. -/
def start (folder : Folder) (options : Extract.Options) (maxRequests : Nat)
    (cancelled : Bool) : Course :=
  let tree := Tree.ofFolder folder
  let jobs := Extract.jobs tree
  { options
    limit := max 1 maxRequests
    tree
    cancelled
    phase := .ready
    outlines := jobs.map fun job => (job, .idle)
    taken := 0
    extracted := ⟨jobs.length, 0, 0⟩
    questions := []
    arrived := []
    resolved := none }

def stop (c : Course) (e : Failure) : Course :=
  { c with phase := .ended (.error e) }

/-! ## The handshake -/

def greet (c : Course) : Course :=
  match c.phase with
  | .ready => if c.cancelled then c.stop .cancelled else { c with phase := .greeting }
  | _ => c

def greeted (c : Course) (answer : Except CallError Unit) : Course :=
  match c.phase with
  | .greeting =>
      match answer with
      | .ok () => { c with phase := .outlining }
      | .error e => c.stop (.ofCall e)
  | _ => c

/-! ## Outlines -/

/-- Changes how far the call about a file is. -/
def outline (c : Course) (n : Nat)
    (f : Progress (List Outline.Entry) → Progress (List Outline.Entry)) : Course :=
  match c.phase with
  | .outlining => { c with outlines := Progress.advance c.outlines n f }
  | _ => c

/-- Begins the call about a file. Files that were not taken in yet count as under way. -/
def launch (c : Course) (n : Nat) : Course :=
  if n < c.taken + c.limit then
    c.outline n (Progress.launch c.cancelled c.options.openDocuments)
  else c

/-- Takes in what came of the next file. -/
def take (c : Course) : Course :=
  match c.phase, c.outlines[c.taken]? with
  | .outlining, some (job, .settled outcome) =>
      if c.cancelled then c.stop .cancelled
      else
        match Extract.absorb c.tree c.extracted job outcome with
        | .ok (tree, extracted) => { c with tree, extracted, taken := c.taken + 1 }
        | .error e => c.stop e
  | _, _ => c

/-- Goes on to the questions once all files are taken in. -/
def turn (c : Course) : Course :=
  match c.phase with
  | .outlining =>
      if c.taken = c.outlines.length then
        if c.cancelled then c.stop .cancelled
        else
          { c with
            phase := .asking
            questions := (Resolve.queries c.tree).map fun q => (q, .idle) }
      else c
  | _ => c

/-! ## Questions -/

/-- Changes how far a question is. -/
def question (c : Course) (n : Nat)
    (f : Progress (List Location) → Progress (List Location)) : Course :=
  match c.phase with
  | .asking => { c with questions := Progress.advance c.questions n f }
  | _ => c

/-- How many questions are with the server. -/
def inFlight (c : Course) : Nat :=
  c.questions.countP fun q => q.2.isAsked

/-- Asks a question when there is room for it; a cancelled run waits for no room. -/
def ask (c : Course) (n : Nat) : Course :=
  if c.cancelled ∨ c.inFlight < c.limit then c.question n (Progress.launch c.cancelled false)
  else c

/-- Collects the outcome of a question. A broken connection ends the run. -/
def join (c : Course) (n : Nat) : Course :=
  match c.phase, c.questions[n]? with
  | .asking, some (_, .settled outcome) =>
      if n ∈ c.arrived.map (·.1) then c
      else
        let c := { c with arrived := c.arrived ++ [(n, outcome)] }
        match outcome with
        | .error (.transport reason) => c.stop (.transport reason)
        | _ => c
  | _, _ => c

/-- Records the dependencies once all outcomes are collected. -/
def record (c : Course) : Course :=
  match c.phase with
  | .asking =>
      if c.arrived.length = c.questions.length then
        match c.tree.resolveWith c.cancelled c.arrived with
        | (tree, .ok report) => { c with tree, resolved := some report, phase := .recorded }
        | (tree, .error e) => { c with tree }.stop e
      else c
  | _ => c

/-- Computes the metrics and sorts the tree, which ends the run. -/
def conclude (c : Course) : Course :=
  match c.phase with
  | .recorded =>
      if c.cancelled then c.stop .cancelled else { c with phase := .ended (finish c.tree) }
  | _ => c

/-! ## Moves -/

inductive Move where
  | cancel
  | greet
  | greeted (answer : Except CallError Unit)
  | launch (n : Nat)
  | opened (n : Nat) (answer : Except CallError Unit)
  | outlined (n : Nat) (outcome : Except CallError (List Outline.Entry))
  | take
  | turn
  | ask (n : Nat)
  | answered (n : Nat) (outcome : Resolve.Outcome)
  | join (n : Nat)
  | record
  | conclude

def move (c : Course) : Move → Course
  | .cancel => { c with cancelled := true }
  | .greet => c.greet
  | .greeted answer => c.greeted answer
  | .launch n => c.launch n
  | .opened n answer => c.outline n (Progress.opened answer)
  | .outlined n outcome => c.outline n (Progress.answered outcome)
  | .take => c.take
  | .turn => c.turn
  | .ask n => c.ask n
  | .answered n outcome => c.question n (Progress.answered outcome)
  | .join n => c.join n
  | .record => c.record
  | .conclude => c.conclude

def play (c : Course) (moves : List Move) : Course :=
  moves.foldl move c

end Course

end Analysis

end SourceAtlas
