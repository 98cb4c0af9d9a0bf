import TruthTrees.Text.Bracketed

/-!
# Styles of writing

A tree can be shown with its formulae in either notation.
-/

namespace TruthTrees

inductive Style where
  | polish
  | bracketed
  deriving DecidableEq

def Formula.write : Style → Formula → List Char
  | .polish, f => f.polish
  | .bracketed, f => f.bracketed

end TruthTrees
