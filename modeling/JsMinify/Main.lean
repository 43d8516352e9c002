import JsMinify.CommandLine

/-!
The program: reads arguments, a file or standard input, and writes the minified program.
-/

open JsMinify

def main (args : List String) : IO UInt32 := do
  let stdin ← match CommandLine.plan args with
    | .minify _ none => do (← IO.getStdin).readToEnd
    | _ => pure ""
  let file ← match CommandLine.plan args with
    | .minify _ (some name) =>
      try some <$> IO.FS.readFile name catch _ => pure none
    | _ => pure none
  let r := CommandLine.respond args stdin fun _ => file
  IO.print r.printed
  IO.print r.out
  IO.eprint r.complaints
  match r.failure, r.exitCode with
  | some f, _ =>
    IO.eprintln f.message
    return 1
  | none, some code => return code.toUInt32
  | none, none => return 0
