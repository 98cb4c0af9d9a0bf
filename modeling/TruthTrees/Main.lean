import TruthTrees.Session.Run

/-!
# The command line

Reads the words of the command line, the argument and the clock, and carries out the actions of a
run.
-/

namespace TruthTrees

namespace CommandLine

def fileFault : IO.Error → FileFault
  | .noFileOrDirectory _ _ _ => .notFound
  | .inappropriateType _ code _ =>
    if code = 21 || 0 - code = 21 then .isDirectory else .notDirectory
  | e => .other (toString e)

/-- The rest of a line of which the first bytes have been read, or nothing at the end. -/
partial def readLineFrom (input : IO.FS.Stream) (line : ByteArray) : IO (Option Line) := do
  let next ← input.read 1
  if next.isEmpty then return if line.isEmpty then none else some line.toList
  if next.toList = [10] then return some line.toList
  readLineFrom input (line ++ next)

def readLine? (input : IO.FS.Stream) : IO (Option Line) :=
  readLineFrom input .empty

def perform (verbosity : Level) : Action → IO (Except Failure Unit)
  | .print text => do
    let output ← IO.getStdout
    output.putStr text
    output.flush
    return .ok ()
  | .tell event => do
    IO.eprint (event.line verbosity)
    return .ok ()
  | .save path text => do
    try
      IO.FS.writeFile path text
      return .ok ()
    catch e => return .error (.file (fileFault e))

def performAll (verbosity : Level) : List Action → IO (Except Failure Unit)
  | [] => return .ok ()
  | action :: rest => do
    match ← perform verbosity action with
    | .ok () => performAll verbosity rest
    | .error failure => return .error failure

/-- Ask for an argument. -/
partial def converse (verbosity : Level) (input : IO.FS.Stream) (d : Dialogue) :
    IO (Except Failure Argument) := do
  let _ ← performAll verbosity (Action.ofRemark (.prompt d))
  match d.react (← readLine? input) with
  | .ask next => converse verbosity input next
  | .askAgain fault =>
    let _ ← performAll verbosity (Action.ofRemark (.complaint d fault))
    converse verbosity input d
  | .finish result => return result

def readFile (verbosity : Level) (file : String) : IO (Except Failure Argument) := do
  let _ ← perform verbosity (.tell (.openingFile file))
  try
    let lines := linesOf (← IO.FS.readBinFile file).toList
    let _ ← performAll verbosity (Action.ofLines lines)
    return Argument.ofLines lines
  catch e => return .error (.file (fileFault e))

def readArgument (o : Options) (verbosity : Level) : IO (Except Failure Argument) := do
  match o.argumentFile with
  | some file => readFile verbosity file
  | none =>
    let _ ← perform verbosity (.print Dialogue.greeting)
    converse verbosity (← IO.getStdin) .start

/-- More steps than a search can take. -/
def budget : Nat := Nat.pow 2 62

def prove (o : Options) (verbosity : Level) : IO (Except Failure Unit) := do
  match ← readArgument o verbosity with
  | .error failure => return .error failure
  | .ok a =>
    let started ← IO.monoNanosNow
    let outcome ← IO.lazyPure fun _ => a.judge o.limit budget
    let seconds := secondsText ((← IO.monoNanosNow) - started)
    match outcome with
    | some (tree, report) =>
      performAll verbosity (Action.ofOutcome o verbosity seconds budget a tree report)
    | none => return .error (.file (.other "out of steps"))

end CommandLine

end TruthTrees

open TruthTrees in
def main (words : List String) : IO UInt32 := do
  let verbosity := ((← IO.getEnv "LOG").bind Level.ofName?).getD .warn
  match Command.read words with
  | none =>
    IO.eprint Command.usage
    return 2
  | some .help =>
    IO.print Command.usage
    return 0
  | some .version =>
    IO.print Command.versionText
    return 0
  | some (.prove o) =>
    match ← CommandLine.prove o verbosity with
    | .ok () => return 0
    | .error failure =>
      IO.eprint failure.lines
      return 1
