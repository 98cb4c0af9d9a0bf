import TruthTrees.Text.Sign

/-!
# Tokens

The signs of which a formula is written, without brackets: a quantifier comes with its variable
and a predicate with its terms.
-/

namespace TruthTrees

inductive Token where
  | neg
  | bin (connective : Connective)
  | quant (quantifier : Quantifier) (var : Term)
  | atom (predicate : Char) (args : List Term)
  deriving DecidableEq

namespace Token

def arity : Token → Nat
  | neg => 1
  | bin _ => 2
  | quant _ _ => 1
  | atom _ _ => 0

def isUnary : Token → Bool
  | neg => true
  | quant _ _ => true
  | _ => false

def rank : Token → Nat
  | neg => 1
  | bin b => b.rank
  | quant _ _ => 2
  | atom _ _ => 0

def spelling : Token → List Char
  | neg => [Negation.plain]
  | bin b => [b.plain]
  | quant q v => q.plain :: v.spelling
  | atom p ts => p :: ts.flatMap Term.spelling

end Token

def spellTokens (ts : List Token) : List Char :=
  ts.flatMap Token.spelling

end TruthTrees
