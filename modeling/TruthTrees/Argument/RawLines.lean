import TruthTrees.Argument.Lines

/-!
# Lines with their ends

A stream gives each line together with the newline that ends it. In a dialogue a line is read as it
is given; a line of a file is read without the newline and without a carriage return before it.
-/

namespace TruthTrees

/-- The lines of an input, each with the newline that ends it. -/
def rawLines : List UInt8 → List Line
  | [] => []
  | b :: bs =>
    if b = 10 then [b] :: rawLines bs
    else
      match rawLines bs with
      | [] => [[b]]
      | line :: lines => (b :: line) :: lines

/-- Take away the newline at the end of a line, and a carriage return before it. -/
def Line.chomp (line : Line) : Line :=
  if line.getLast? = some 10 then
    if line.dropLast.getLast? = some 13 then line.dropLast.dropLast else line.dropLast
  else line

end TruthTrees
