import JsMinify.Minify
import JsMinify.Node.Walk
import JsMinify.Workload.Samples

/-!
# Workloads

A `Workload` sends a sample program through a part of the library and reports what came of it.
`Workload.runs` sets it up once and runs it a number of times. What one run leaves behind the next
one finds: the lexer counts on its lines, and names that are short already are shortened again. One
parser serves all workloads of a series.
-/

namespace JsMinify

/-- A job on a sample program. -/
inductive Workload where
  /-- Split a text into tokens. -/
  | tokenize
  /-- Print a program in its compact form. -/
  | compact
  /-- Lay a program out, with and without semicolons after expressions. -/
  | pretty
  /-- Count the nodes of a program. -/
  | walk
  /-- Shorten the names of a program. -/
  | mangle
  /-- Parse a program, shorten its names and print it in both forms, several rounds. -/
  | pipeline
  /-- Replace every node of a program by another one and put it back. -/
  | replace
  /-- Parse good and bad programs in turn. -/
  | recover
  deriving DecidableEq, Repr

/-- Both printed forms of a tree, and the number of its nodes. -/
structure Summary where
  compact : String
  pretty : String
  nodes : Nat
  deriving DecidableEq, Repr

/-- What a run reports. -/
inductive Outcome where
  | size (n : Nat)
  | text (s : String)
  /-- The number of tokens, the last one, and the line the lexer is on. -/
  | tokens (count : Nat) (last : Option Token) (line : Nat)
  | restored (s : Summary)
  /-- A summary for each round on a good program, `none` for a bad one. -/
  | recovered (rounds : List (Option Summary))
  deriving DecidableEq, Repr

namespace Workload

/-- A computation on the parser that all workloads share. -/
abbrev Shared := StateT Parser (Except Error)

/-- A computation on trees as one on the shared parser. -/
def ofTree {α : Type} (r : Except TreeError α) : Shared α := fun p =>
  match r with
  | .ok a => .ok (a, p)
  | .error e => .error (.tree e)

def tree? (text : String) : Shared (Except ParseError Node) := fun p => .ok (p.parse text)

def tree (text : String) : Shared Node := do
  match ← tree? text with
  | .ok n => return n
  | .error e => throw (.parse e)

def nodeCount (n : Node) : Except TreeError Nat := return (← n.walk).length

def summary (n : Node) : Except TreeError Summary :=
  return { compact := ← n.compact, pretty := ← n.pretty {}, nodes := ← nodeCount n }

/-- Runs on a state `times` times, each on what the one before left. -/
def chain {ε σ α : Type} (run : σ → Except ε (α × σ)) : Nat → σ → Except ε (List α)
  | 0, _ => .ok []
  | times + 1, s => do
    let (a, s) ← run s
    return a :: (← chain run times s)

def tokenizeOnce (text : String) (l : Lexer) : Except Error (Outcome × Lexer) :=
  match (l.input text).drain with
  | (ts, .ok (), l) => .ok (.tokens ts.length ts.getLast? l.line, l)
  | (_, .error e, _) => .error (.parse (.lex e))

/-- Shortens all names of a tree. -/
def mangleOnce (n : Node) : Except TreeError (Outcome × Node) := do
  let n ← n.mangle true
  return (.text (← n.compact), n)

/-- The rounds of the pipeline: those in `true` shorten the names of the program itself too. -/
def rounds : List Bool := [true, false, true, false]

/-- Shortens the names of a tree in each round, on what the round before left, and sums it up. -/
def mangledSummaries (n : Node) : List Bool → Except TreeError (List Summary)
  | [] => .ok []
  | toplevel :: rest => do
    let n ← n.mangle toplevel
    return (← summary n) :: (← mangledSummaries n rest)

/-- Replaces every node of a tree and puts it back. -/
def replaceAll (n : Node) : Except TreeError Node := do
  let new := Node.node (.identifier "other") {} []
  return (← n.walk).foldl (fun t (p, old) => .replaceAt old (.replaceAt new t p) p) n

/-- A run on the small program with a number. The tokens put off before it are forgotten. -/
def recoverOnce (i : Nat) : Shared (List (Option Summary)) := do
  modify fun p => { p with seen := [] }
  match ← tree? (Samples.snippets.getD (i % Samples.snippets.length) "") with
  | .ok n => ofTree (return (← mangledSummaries n rounds).map some)
  | .error _ => return [none]

/-- The reports of a workload of a given size that runs `times` times. -/
def runs (w : Workload) (size times : Nat) : Shared (List Outcome) :=
  let again (run : Shared Outcome) : Shared (List Outcome) := (List.replicate times run).mapM id
  match w with
  | .tokenize =>
    let text := String.join (List.replicate (max 1 (size / 18)) Samples.tokens)
    liftM (chain (tokenizeOnce text) times {})
  | .compact => do
    let n ← tree (Samples.program size)
    again (ofTree (return .size (← n.compact).length))
  | .pretty => do
    let n ← tree (Samples.program size)
    again (ofTree (return .size ((← n.pretty {}).length + (← n.pretty ⟨false⟩).length)))
  | .walk => do
    let n ← tree (Samples.program size)
    again (ofTree (return .size (← nodeCount n)))
  | .mangle => do
    let n ← tree (Samples.program size)
    ofTree (chain mangleOnce times n)
  | .pipeline => again do
    let n ← tree (Samples.program size)
    let ss ← ofTree (mangledSummaries n rounds)
    return .size ((ss.map fun s => s.compact.length + s.pretty.length + s.nodes).foldl (· + ·) 0)
  | .replace => do
    let n ← tree (Samples.arrays size)
    again (ofTree (return .restored (← summary (← replaceAll n))))
  | .recover => again (return .recovered (← (List.range size).mapM recoverOnce).flatten)

end Workload

end JsMinify
