import Sml.Session.Report

/-!
# The command line

Running a file, checking one, and the loop that reads inputs.  All of it is
computed from texts; only `Main` reads and prints.
-/

namespace Sml

structure Output where
  stdout : String := ""
  stderr : String := ""
deriving DecidableEq, Repr

namespace Output

def append (first second : Output) : Output :=
  ⟨first.stdout ++ second.stdout, first.stderr ++ second.stderr⟩

instance : Append Output := ⟨append⟩

def out (text : String) : Output := { stdout := text }

def errLine (text : String) : Output := { stderr := text ++ "\n" }

end Output

structure Flags where
  skipElaboration : Bool := false
  skipEvaluation : Bool := false
  strict : Bool := false
  noPrelude : Bool := false
deriving DecidableEq, Repr

namespace Flags

def options (flags : Flags) : Options where
  skipElaboration := flags.skipElaboration
  skipEvaluation := flags.skipEvaluation
  strict := flags.strict

def session (flags : Flags) : Session :=
  if flags.noPrelude then .basic else .initial

def add? (flags : Flags) : String → Option Flags
  | "--no-elaboration" => some { flags with skipElaboration := true }
  | "--no-evaluation" => some { flags with skipEvaluation := true }
  | "--strict" => some { flags with strict := true }
  | "--no-prelude" => some { flags with noPrelude := true }
  | _ => none

end Flags

/-- The text of a value, or as much as can be said of one that holds
itself. -/
private def shown (tree : ScopeTree) (value : Value) : String :=
  (value.text? tree.memory).getD value.text

private def report (printed : String) (warnings : List Warning) : Output :=
  ⟨printed, String.join (warnings.map fun warning => warning.message ++ "\n")⟩

private def errorText (error : InputError) : String :=
  error.message?.getD ""

/-! ## Files -/

structure Finished where
  output : Output
  code : UInt32 := 0

private def failed (output : Output) (text : String) : Finished :=
  ⟨output ++ .errLine ("Error: " ++ text), 1⟩

def unreadable (path reason : String) : Finished :=
  failed {} ("failed to read " ++ path ++ "\n\nCaused by:\n    " ++ reason)

def runFile (steps : Nat) (flags : Flags) (options : Options)
    (source : String) : Finished :=
  match interpret steps options source flags.session with
  | (.error error, _) => failed {} (errorText error)
  | (.ok reply, tree) =>
    let (printed, tree) := tree.takeOutput
    let output := report printed reply.warnings
    match reply.raised with
    | some exn => failed output ("uncaught exception " ++ shown tree exn)
    | none => ⟨output, 0⟩

def checkFile (steps : Nat) (flags : Flags) (source : String) : Finished :=
  runFile steps flags { flags.options with skipEvaluation := true } source

/-! ## The loop -/

structure Repl where
  session : Session
  pending : String := ""

namespace Repl

def prompt (repl : Repl) : Output :=
  .out (if repl.pending.isEmpty then "- " else "= ")

private def dropBlank : List Char → List Char
  | [] => []
  | c :: rest => if isWhiteSpace c then dropBlank rest else c :: rest

/-- Whether a line completes an input: its last character but blanks is a
semicolon. -/
def completes (line : String) : Bool :=
  (dropBlank line.toList.reverse).head? == some ';'

def answer (steps : Nat) (options : Options) (session : Session)
    (input : String) : Session × Output :=
  match interpret steps options input session with
  | (.error error, tree) =>
    ({ session with tree }, .errLine (errorText error))
  | (.ok reply, tree) =>
    let (printed, tree) := tree.takeOutput
    let lines := match reply.raised with
      | some exn => ["uncaught exception " ++ shown tree exn]
      | none => (describeChanges tree session.scope reply.scope).getD []
    (⟨tree, reply.scope⟩,
      report printed reply.warnings ++
        .out (String.join (lines.map (· ++ "\n"))))

def step (steps : Nat) (options : Options) (repl : Repl) (line : String) :
    Repl × Output :=
  let pending := repl.pending ++ line ++ "\n"
  if completes line then
    let (session, output) := answer steps options repl.session pending
    ({ session }, output)
  else ({ repl with pending }, {})

/-- Takes lines to the last, with a prompt after each.  An input that is not
complete then is dropped. -/
def runLines (steps : Nat) (options : Options) : Repl → List String → Output
  | _, [] => {}
  | repl, line :: rest =>
    let (repl, output) := repl.step steps options line
    output ++ repl.prompt ++ repl.runLines steps options rest

end Repl

def inputLines (text : String) : List String :=
  (linesOf text.toList).map String.ofList

def runRepl (steps : Nat) (flags : Flags) (text : String) : Finished :=
  let repl : Repl := { session := flags.session }
  ⟨repl.prompt ++ repl.runLines steps flags.options (inputLines text), 0⟩

end Sml
