import TruthTrees.Argument.Lines

/-!
# Arguments in a dialogue

Premises are asked for until a blank line is given, and then the conclusion. A line that is not a
formula is asked for again. The end of the input also ends the premises.
-/

namespace TruthTrees

/-- The question that is asked next, with the premises given so far. -/
inductive Dialogue where
  | premise (premises : List Formula)
  | conclusion (premises : List Formula)
  deriving DecidableEq

namespace Dialogue

def start : Dialogue :=
  premise []

def greeting : String :=
  "Please enter each premise followed by Enter.\nEnter a blank premise when done.\n"

def prompt : Dialogue → String
  | premise premises => s!"Premise {premises.length + 1}: "
  | conclusion _ => "Conclusion: "

/-- What is said to a line that is not a formula. -/
def complaint : Dialogue → String
  | premise _ => "Poorly formed premise! Please re-enter.\n"
  | conclusion _ => "Poorly formed conclusion! Please re-enter.\n"

inductive Reaction where
  | ask (next : Dialogue)
  | askAgain (fault : Fault)
  | finish (result : Except Failure Argument)

def reactTo (text : List Char) : Dialogue → Reaction
  | premise premises =>
    if isBlankText text then .ask (.conclusion premises)
    else
      match Formula.read text with
      | .ok f => .ask (.premise (premises ++ [f]))
      | .error fault => .askAgain fault
  | conclusion premises =>
    match Formula.read text with
    | .ok f => .finish (.ok ⟨premises, f⟩)
    | .error fault => .askAgain fault

def reactToEnd : Dialogue → Reaction
  | premise premises => .ask (.conclusion premises)
  | conclusion _ => .finish (.error .noConclusion)

def react (d : Dialogue) : Option Line → Reaction
  | none => d.reactToEnd
  | some line =>
    match line.decode? with
    | some text => d.reactTo text
    | none => .finish (.error (.file .invalidUtf8))

inductive Remark where
  | prompt (question : Dialogue)
  | complaint (question : Dialogue) (fault : Fault)
  deriving DecidableEq

def Remark.text : Remark → String
  | prompt question => question.prompt
  | complaint question _ => question.complaint

/-- The remarks and the outcome of a dialogue with the given answers. -/
def run (d : Dialogue) : List (Option Line) → List Remark × Except Failure Argument
  | [] => ([.prompt d], .error .noConclusion)
  | answer :: answers =>
    match d.react answer with
    | .ask next =>
      let (remarks, result) := next.run answers
      (.prompt d :: remarks, result)
    | .askAgain fault =>
      let (remarks, result) := d.run answers
      (.prompt d :: .complaint d fault :: remarks, result)
    | .finish result => ([.prompt d], result)

/-- The dialogue in which all lines of an input are used as answers. Two questions are left at
most when the input ends. -/
def ofLines (lines : List Line) : List Remark × Except Failure Argument :=
  start.run (lines.map some ++ [none, none])

def transcript (remarks : List Remark) : String :=
  greeting ++ String.join (remarks.map Remark.text)

end Dialogue

end TruthTrees
