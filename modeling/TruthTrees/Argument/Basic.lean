import TruthTrees.Text.Reading

/-!
# Arguments

An argument goes from premises to a conclusion. Reading one can fail because of the file that it
is read from, because there is no conclusion, or because a line is not a formula.
-/

namespace TruthTrees

structure Argument where
  premises : List Formula
  conclusion : Formula
  deriving DecidableEq

inductive FileFault where
  | notFound
  | notDirectory
  | isDirectory
  | nameTooLong
  | invalidUtf8
  | other (text : String)
  deriving DecidableEq

def FileFault.message : FileFault → String
  | notFound => "No such file or directory (os error 2)"
  | notDirectory => "Not a directory (os error 20)"
  | isDirectory => "Is a directory (os error 21)"
  | nameTooLong => "File name too long (os error 36)"
  | invalidUtf8 => "stream did not contain valid UTF-8"
  | other text => text

inductive Failure where
  | file (fault : FileFault)
  | noConclusion
  | malformed (fault : Fault)
  deriving DecidableEq

namespace Failure

def kind : Failure → String
  | file _ => "OsError"
  | noConclusion => "InputError"
  | malformed _ => "SyntaxError"

def message : Failure → String
  | file fault => fault.message
  | noConclusion => "no conclusion given"
  | malformed fault => fault.message

end Failure

/-- The last formula is the conclusion, the others are the premises. -/
def Argument.ofFormulae (fs : List Formula) : Except Failure Argument :=
  match fs.getLast? with
  | some conclusion => .ok ⟨fs.dropLast, conclusion⟩
  | none => .error .noConclusion

end TruthTrees
