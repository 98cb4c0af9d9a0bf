import TruthTrees.Argument.Basic

/-!
# Arguments in files

A file holds one formula per line, and the last one is the conclusion. Blank lines are passed
over. The first line that is not a formula, or no text at all, ends the reading.
-/

namespace TruthTrees

/-- A line of a file, without the newline that ends it. -/
abbrev Line := List UInt8

/-- The lines of a file. A newline at the very end does not begin another line. -/
def linesOf : List UInt8 → List Line
  | [] => []
  | b :: bs =>
    if b = 10 then [] :: linesOf bs
    else
      match linesOf bs with
      | [] => [[b]]
      | line :: lines => (b :: line) :: lines

def Line.decode? (line : Line) : Option (List Char) :=
  (String.fromUTF8? ⟨line.toArray⟩).map String.toList

/-- The formulae up to the first line that cannot be read, and what is wrong with that line. -/
def readLines : List Line → List Formula × Option Failure
  | [] => ([], none)
  | line :: lines =>
    match line.decode? with
    | none => ([], some (.file .invalidUtf8))
    | some text =>
      if isBlankText text then readLines lines
      else
        match Formula.read text with
        | .error fault => ([], some (.malformed fault))
        | .ok f => (f :: (readLines lines).1, (readLines lines).2)

def Argument.ofLines (lines : List Line) : Except Failure Argument :=
  match readLines lines with
  | (_, some failure) => .error failure
  | (fs, none) => Argument.ofFormulae fs

end TruthTrees
