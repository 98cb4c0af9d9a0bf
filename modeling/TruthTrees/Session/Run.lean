import TruthTrees.Argument.Dialogue
import TruthTrees.Session.Directory
import TruthTrees.Session.Narration
import TruthTrees.Session.Options
import TruthTrees.Tree.Drawing

/-!
# Runs of the program

A run reads an argument, searches for its tree, and shows a report and the tree. What it does is a
list of actions, which are carried out one after the other until one of them fails.
-/

namespace TruthTrees

inductive Action where
  | print (text : String)
  | tell (event : Event)
  | save (path : String) (text : String)

namespace Action

def ofRemark : Dialogue.Remark → List Action
  | .prompt question => [print question.prompt]
  | .complaint question fault => [tell (.lineRejected fault), print question.complaint]

def ofLines (lines : List Line) : List Action :=
  (readLines lines).1.map fun f => tell (.formulaRead f)

/-- What is done with a known argument and the outcome of its search, given the time that the
search took. -/
def ofOutcome (o : Options) (verbosity : Level) (seconds : String) (budget : Nat)
    (a : Argument) (tree : Tree) (report : Report) : List Action :=
  let drawing := String.ofList (tree.draw o.style)
  [tell (.premisesCounted a.premises.length), tell (.conclusionKnown a.conclusion)] ++
    (a.judgeEvents verbosity o.limit budget report).map tell ++
    [print (report.text seconds)] ++
    (match o.statsFile with
      | some file => [save file (report.json seconds ++ "\n")]
      | none => []) ++
    if o.showTree then
      [print "\n",
        match o.treeFile with
        | some file => save file drawing
        | none => print drawing]
    else []

end Action

def secondsText (nanoseconds : Nat) : String :=
  let fraction := (Nat.toDigits 10 (1000000000 + nanoseconds % 1000000000)).drop 1
  let digits := (fraction.reverse.dropWhile (· = '0')).reverse
  let whole := toString (nanoseconds / 1000000000)
  if digits.isEmpty then whole else whole ++ "." ++ String.ofList digits

structure Traces where
  output : String
  log : String
  directory : Directory

namespace Traces

/-- Carry out actions until one of them fails. -/
def perform (verbosity : Level) (s : Traces) : List Action → Traces × Option Failure
  | [] => (s, none)
  | .print text :: rest => perform verbosity { s with output := s.output ++ text } rest
  | .tell event :: rest =>
    perform verbosity { s with log := s.log ++ event.line verbosity } rest
  | .save path text :: rest =>
    match s.directory.write path text.toUTF8.toList with
    | .ok directory => perform verbosity { s with directory } rest
    | .error fault => (s, some (.file fault))

end Traces

def Failure.lines (f : Failure) : String :=
  f.kind ++ "\n" ++ f.message ++ "\n"

structure Ending where
  status : Nat
  traces : Traces

namespace Ending

def ofTraces : Traces × Option Failure → Ending
  | (s, none) => ⟨0, s⟩
  | (s, some failure) => ⟨1, { s with log := s.log ++ failure.lines }⟩

end Ending

def Options.readArgument (o : Options) (directory : Directory) (input : List UInt8) :
    List Action × Except Failure Argument :=
  match o.argumentFile with
  | some file =>
    match directory.read file with
    | .ok content =>
      (.tell (.openingFile file) :: Action.ofLines (linesOf content),
        Argument.ofLines (linesOf content))
    | .error fault => ([.tell (.openingFile file)], .error (.file fault))
  | none =>
    let (remarks, result) := Dialogue.ofLines (linesOf input)
    (.print Dialogue.greeting :: remarks.flatMap Action.ofRemark, result)

def Options.run (o : Options) (verbosity : Level) (seconds : String) (budget : Nat)
    (directory : Directory) (input : List UInt8) : Option Ending := do
  let s : Traces := ⟨"", "", directory⟩
  let (actions, result) := o.readArgument directory input
  match result with
  | .error failure => return .ofTraces ((s.perform verbosity actions).1, some failure)
  | .ok a =>
    let (tree, report) ← a.judge o.limit budget
    let more := Action.ofOutcome o verbosity seconds budget a tree report
    return .ofTraces (s.perform verbosity (actions ++ more))

/-- A run in a directory, with an input and a verbosity. A wrong command line ends it with status
two. There is no answer if the budget of steps is not enough. -/
def runProgram (words : List String) (verbosity : Level) (seconds : String) (budget : Nat)
    (directory : Directory) (input : List UInt8) : Option Ending :=
  match Command.read words with
  | none => some ⟨2, ⟨"", Command.usage, directory⟩⟩
  | some .help => some ⟨0, ⟨Command.usage, "", directory⟩⟩
  | some .version => some ⟨0, ⟨Command.versionText, "", directory⟩⟩
  | some (.prove o) => o.run verbosity seconds budget directory input

end TruthTrees
