import TruthTrees.Language.Term

/-!
# Formulae

Formulae of first-order logic without equality and function symbols. A predicate takes a list of
terms of any length, and the predicates of one letter but different lengths are different.
-/

namespace TruthTrees

inductive Connective where
  | conj
  | disj
  | impl
  | iff
  deriving DecidableEq

inductive Quantifier where
  | universal
  | existential
  deriving DecidableEq

namespace Quantifier

/-- The quantifier that a negation turns this one into. -/
def dual : Quantifier → Quantifier
  | universal => existential
  | existential => universal

end Quantifier

inductive Formula where
  | atom (predicate : Char) (args : List Term)
  | neg (body : Formula)
  | bin (connective : Connective) (left right : Formula)
  | quant (quantifier : Quantifier) (var : Term) (body : Formula)
  deriving DecidableEq

namespace Formula

/-- The parts that the outermost sign joins; an atom is its own part. -/
def operands : Formula → List Formula
  | atom p ts => [atom p ts]
  | neg f => [f]
  | bin _ l r => [l, r]
  | quant _ _ f => [f]

def isLiteral : Formula → Bool
  | atom _ _ => true
  | neg (atom _ _) => true
  | _ => false

def contradicts (f g : Formula) : Bool :=
  f.isLiteral && g.isLiteral && (f = neg g || g = neg f)

theorem contradicts_comm (f g : Formula) : f.contradicts g = g.contradicts f := by
  simp only [contradicts, Bool.and_comm f.isLiteral, Bool.or_comm]

def size : Formula → Nat
  | atom _ _ => 1
  | neg f => f.size + 1
  | bin _ l r => l.size + r.size + 1
  | quant _ _ f => f.size + 1

end Formula

end TruthTrees
