import JsMinify.Minify

/-!
# The command line

`CommandLine.plan` reads the arguments: long options may be abbreviated, short ones grouped, and
options may follow arguments up to `--`. A plan asks for help, names a mistake, or says what to
minify: one file, or standard input if there is not exactly one argument.
`CommandLine.respond` carries it out.
-/

namespace JsMinify.CommandLine

/-- The options. -/
inductive Flag where
  | help | mangle | toplevel
  deriving DecidableEq, Repr

def Flag.short : Flag → Char
  | .help => 'h'
  | .mangle => 'm'
  | .toplevel => 't'

def Flag.long : Flag → String
  | .help => "--help"
  | .mangle => "--mangle"
  | .toplevel => "--mangle-toplevel"

def flags : List Flag := [.help, .mangle, .toplevel]

/-- A mistake in the arguments. -/
inductive UsageError where
  | unknown (option : String)
  | ambiguous (option : String) (candidates : List String)
  | takesNoValue (option : String)
  deriving DecidableEq, Repr

def UsageError.message : UsageError → String
  | .unknown option => "no such option: " ++ option
  | .ambiguous option candidates =>
    "ambiguous option: " ++ option ++ " (" ++ ", ".intercalate candidates ++ "?)"
  | .takesNoValue option => option ++ " option does not take a value"

/-- The option that a long form, perhaps abbreviated, stands for. -/
def longFlag (word : String) : Except UsageError Flag :=
  match flags.find? (·.long = word) with
  | some f => .ok f
  | none =>
    match flags.filter fun f => word.toList.isPrefixOf f.long.toList with
    | [f] => .ok f
    | [] => .error (.unknown word)
    | fs => .error (.ambiguous word (fs.map Flag.long))

/-- The option that a short form stands for. -/
def shortFlag (c : Char) : Except UsageError Flag :=
  match flags.find? (·.short = c) with
  | some f => .ok f
  | none => .error (.unknown ("-" ++ String.singleton c))

/-- What the arguments ask for. -/
inductive Plan where
  | help
  | mistake (e : UsageError)
  | minify (options : Options) (file : Option String)
  deriving DecidableEq, Repr

/-- What the options read so far amount to. -/
structure Progress where
  options : Options := {}
  /-- Arguments that are no options, in order. -/
  files : List String := []
  deriving DecidableEq, Repr

/-- Takes an option; asking for help ends the reading. -/
def Progress.take (p : Progress) : Flag → Except Plan Progress
  | .help => .error .help
  | .mangle => .ok { p with options := { p.options with mangle := true } }
  | .toplevel => .ok { p with options := { p.options with toplevel := true } }

/-- The result of a search, with a mistake as a plan. -/
def orMistake {α : Type} : Except UsageError α → Except Plan α
  | .ok a => .ok a
  | .error e => .error (.mistake e)

def Progress.takeLong (p : Progress) (arg : String) : Except Plan Progress := do
  let s := arg.toList
  let word := String.ofList (s.takeWhile (· != '='))
  let f ← orMistake (longFlag word)
  if s.contains '=' then throw (.mistake (.takesNoValue f.long))
  p.take f

def Progress.takeShort (p : Progress) (cs : List Char) : Except Plan Progress :=
  cs.foldlM (fun p c => do p.take (← orMistake (shortFlag c))) p

def readArgs : List String → Progress → Except Plan Progress
  | [], p => .ok p
  | arg :: rest, p =>
    match arg.toList with
    | ['-', '-'] => .ok { p with files := p.files ++ rest }
    | '-' :: '-' :: _ => do readArgs rest (← p.takeLong arg)
    | '-' :: c :: cs => do readArgs rest (← p.takeShort (c :: cs))
    | _ => readArgs rest { p with files := p.files ++ [arg] }

def plan (args : List String) : Plan :=
  match readArgs args {} with
  | .error plan => plan
  | .ok p =>
    match p.files with
    | [file] => .minify p.options (some file)
    | _ => .minify p.options none

def usage : String :=
  "Usage: slimit [options] [input file]\n\n"
    ++ "If no input file is provided STDIN is used by default.\n"
    ++ "Minified JavaScript code is printed to STDOUT.\n\n\n"

def help : String :=
  usage ++ "Options:\n"
    ++ "  -h, --help            show this help message and exit\n"
    ++ "  -m, --mangle          mangle names\n"
    ++ "  -t, --mangle-toplevel\n"
    ++ "                        mangle top level scope (defaults to False)\n"

/-- Line ends as one character each: a return, with or without a line break after it, is a line
break. -/
def joinLineEnds : List Char → List Char
  | '\r' :: '\n' :: s => '\n' :: joinLineEnds s
  | c :: s => (if c = '\r' then '\n' else c) :: joinLineEnds s
  | [] => []

/-- Why nothing was minified. -/
inductive Failure where
  | noFile (name : String)
  | program (e : Error)
  deriving DecidableEq, Repr

def Failure.message : Failure → String
  | .noFile name => "[Errno 2] No such file or directory: " ++ Text.quoted name
  | .program e => e.message

/-- What the program does in the end. -/
structure Response where
  /-- The minified program. -/
  out : String := ""
  /-- Other lines on standard output. -/
  printed : String := ""
  /-- Lines on standard error. -/
  complaints : String := ""
  /-- The exit code of a run that ends early. -/
  exitCode : Option Nat := none
  failure : Option Failure := none
  deriving DecidableEq, Repr

def respondWith (options : Options) (text : String) : Response :=
  let r := JsMinify.minify options text
  let printed := String.join (r.illegal.map fun c => c.message ++ "\n")
  match r.result with
  | .ok out => { out, printed }
  | .error e => { printed, failure := some (.program e) }

/-- Carries out what the arguments ask for, with a way to read files. -/
def respond (args : List String) (stdin : String) (file? : String → Option String) : Response :=
  match plan args with
  | .help => { printed := help, exitCode := some 0 }
  | .mistake e => { complaints := usage ++ "slimit: error: " ++ e.message ++ "\n", exitCode := some 2 }
  | .minify options none => respondWith options stdin
  | .minify options (some name) =>
    match file? name with
    | none => { failure := some (.noFile name) }
    | some text => respondWith options (String.ofList (joinLineEnds text.toList))

end JsMinify.CommandLine
