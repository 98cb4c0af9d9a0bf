import TruthTrees.Text.Fault
import TruthTrees.Text.Polish

/-!
# Bracketed notation

Connectives stand between the formulae that they join. Where brackets are missing, a connective of
lower rank binds tighter and connectives of equal rank group to the left.

Formulae are written with every bracket. They are put into Polish notation by one pass from right
to left. An operator waits until the formulae that it is applied to are complete, and a pair of
brackets has waiting operators of its own.
-/

namespace TruthTrees

def Formula.bracketed : Formula → List Char
  | .atom p ts => (Token.atom p ts).spelling
  | .neg f => Negation.pretty :: f.bracketed
  | .quant q v f => q.pretty :: v.spelling ++ ' ' :: f.bracketed
  | .bin b l r => '(' :: l.bracketed ++ ' ' :: b.pretty :: ' ' :: r.bracketed ++ [')']

/-- The state of the pass from right to left. -/
structure Conversion where
  /-- What is in Polish notation already. -/
  output : List Token
  /-- The operators that wait inside the innermost open pair of brackets, last met first. -/
  waiting : List Token
  /-- The operators that wait outside of it, one list for every pair of brackets around. -/
  outer : List (List Token)

namespace Conversion

def start : Conversion :=
  ⟨[], [], []⟩

/-- Is a waiting operator complete when the operator `t` is met? It is if it binds tighter, and
unary operators follow each other at once. -/
def completes (t operator : Token) : Bool :=
  operator.rank < t.rank || (operator.isUnary && t.isUnary)

/-- Take the next lexeme to the left. There is no state after an opening bracket without
partner. -/
def next? (lexeme : Lexeme) (s : Conversion) : Option Conversion :=
  match lexeme with
  | .closing => some ⟨s.output, [], s.waiting :: s.outer⟩
  | .opening =>
    match s.outer with
    | [] => none
    | waiting :: outer => some ⟨s.waiting.reverse ++ s.output, waiting, outer⟩
  | .token (.atom p ts) => some ⟨.atom p ts :: s.output, s.waiting, s.outer⟩
  | .token t =>
    some ⟨(s.waiting.takeWhile (completes t)).reverse ++ s.output,
      t :: s.waiting.dropWhile (completes t), s.outer⟩

/-- The tokens at the left end, where every bracket must have met its partner. -/
def finish? (s : Conversion) : Option (List Token) :=
  match s.outer with
  | [] => some (s.waiting.reverse ++ s.output)
  | _ :: _ => none

end Conversion

/-- Put lexemes into Polish notation, unless a bracket has no partner. Whether the result writes a
formula is not looked at. -/
def toPolish? (lexemes : List Lexeme) : Option (List Token) :=
  (lexemes.foldr (fun lexeme s => s.bind (Conversion.next? lexeme))
    (some Conversion.start)).bind Conversion.finish?

end TruthTrees
