import Sml.CommandLine

/-!
# The program
-/

namespace Sml.Main

def steps : Nat := Nat.pow 10 15

def print (output : Output) : IO Unit := do
  (← IO.getStdout).putStr output.stdout
  (← IO.getStdout).flush
  (← IO.getStderr).putStr output.stderr
  (← IO.getStderr).flush

def finish (finished : Finished) : IO UInt32 := do
  print finished.output
  return finished.code

def readArguments : List String → Flags → List String → Flags × List String
  | [], flags, words => (flags, words.reverse)
  | argument :: rest, flags, words =>
    match flags.add? argument with
    | some flags => readArguments rest flags words
    | none => readArguments rest flags (argument :: words)

def withFile (path : String) (run : String → Finished) : IO UInt32 := do
  match ← (IO.FS.readFile path).toBaseIO with
  | .ok source => finish (run source)
  | .error (.noFileOrDirectory ..) =>
    finish (unreadable path "No such file or directory (os error 2)")
  | .error error => finish (unreadable path error.toString)

partial def loop (input : IO.FS.Stream) (options : Options) (repl : Repl) :
    IO Unit := do
  let line ← input.getLine
  if !line.isEmpty then
    let (repl, output) := repl.step steps options ((inputLines line).headD "")
    print output
    print repl.prompt
    loop input options repl

def usage : String :=
  "usage: (run FILE | check FILE | repl) [--no-elaboration] " ++
    "[--no-evaluation] [--strict] [--no-prelude]"

end Sml.Main

open Sml Sml.Main in
def main (arguments : List String) : IO UInt32 := do
  match readArguments arguments {} [] with
  | (flags, ["run", path]) =>
    withFile path (runFile steps flags flags.options)
  | (flags, ["check", path]) => withFile path (checkFile steps flags)
  | (flags, ["repl"]) =>
    let repl : Repl := { session := flags.session }
    print repl.prompt
    loop (← IO.getStdin) flags.options repl
    return 0
  | _ =>
    IO.eprintln usage
    return 2
