import TruthTrees.Search.Rule

/-!
# Preferences

The search always applies a rule that satisfies the first preference which any rule satisfies.
-/

namespace TruthTrees

inductive Preference where
  | contradiction
  | quantifierNegation
  | nonBranching
  | existential
  | universal
  | branching
  | wildcard
  deriving DecidableEq

namespace Tree

/-- The open leaves below `id` at which an expansion would add nodes. -/
def growingLeaves (t : Tree) (id : NodeId) (e : Expansion) : List NodeId :=
  (t.leavesBelow id).filter fun leaf => !t.isRedundant leaf e

/-- Would every branch of the expansion be closed at once below the leaf? -/
def closesAt (t : Tree) (e : Expansion) (leaf : NodeId) : Bool :=
  e.branches.all fun b => t.wouldClose leaf (.ofFormulae b)

/-- Would the rule for the formula close every branch that it adds, and add at least one? -/
def closesEveryBranch (t : Tree) (id : NodeId) (f : Formula) : Bool :=
  match t.ruleFor? id f with
  | none => false
  | some a =>
    let leaves := t.growingLeaves id a.expansion
    !leaves.isEmpty && leaves.all (t.closesAt a.expansion)

end Tree

namespace Preference

def all : List Preference :=
  [contradiction, quantifierNegation, nonBranching, existential, universal, branching, wildcard]

def name : Preference → String
  | contradiction => "contradiction"
  | quantifierNegation => "quantifier negation"
  | nonBranching => "non-branching"
  | existential => "existential"
  | universal => "universal"
  | branching => "branching"
  | wildcard => "wildcard"

def holds (t : Tree) (id : NodeId) (f : Formula) : Preference → Bool
  | contradiction => t.closesEveryBranch id f
  | quantifierNegation => f.ruleKind = .quantifierNegation
  | nonBranching => f.ruleKind = .linear
  | existential => f.ruleKind = .existential
  | universal => f.ruleKind = .universal
  | branching => f.ruleKind = .split
  | wildcard => !f.isLiteral

end Preference

end TruthTrees
