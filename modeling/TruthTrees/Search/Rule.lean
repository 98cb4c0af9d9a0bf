import TruthTrees.Language.Substitution
import TruthTrees.Tree.Branch

/-!
# Rules

The outermost signs of a formula decide by which rule it is decomposed. The sentential rules only
look at the formula. The rule for a universal formula takes instances for all constants of the
branches below it, and the rule for an existential formula takes a constant that none of them
has.
-/

namespace TruthTrees

inductive RuleKind where
  /-- A literal, to which no rule applies. -/
  | literal
  /-- The negation of a quantified formula. -/
  | quantifierNegation
  /-- A sentential rule with one branch. -/
  | linear
  /-- A sentential rule with two branches. -/
  | split
  | existential
  | universal
  deriving DecidableEq

def RuleKind.ofNegated : Formula → RuleKind
  | .atom _ _ => literal
  | .neg _ => linear
  | .bin .disj _ _ => linear
  | .bin .impl _ _ => linear
  | .bin .conj _ _ => split
  | .bin .iff _ _ => split
  | .quant _ _ _ => quantifierNegation

def Formula.ruleKind : Formula → RuleKind
  | .atom _ _ => .literal
  | .bin .conj _ _ => .linear
  | .bin _ _ _ => .split
  | .quant .universal _ _ => .universal
  | .quant .existential _ _ => .existential
  | .neg f => .ofNegated f

/-- What a rule does: the branches that it adds, and whether its formula is done with then. -/
structure Application where
  expansion : Expansion
  ticks : Bool
  deriving DecidableEq

namespace Application

def linear (branch : List Formula) : Application :=
  ⟨.linear branch, true⟩

def split (left right : List Formula) : Application :=
  ⟨.split left right, true⟩

end Application

namespace Tree

/-- The constants of all open branches through `id`. -/
def visible (t : Tree) (id : NodeId) : List Term :=
  distinct (t.constantsAt id ++ (t.leavesBelow id).flatMap t.constantsAt)

/-- The instances of a universal formula for the constants of the open branches through `id`, or
for a single new constant if there are none. -/
def instances (t : Tree) (id : NodeId) (v : Term) (body : Formula) : List Formula :=
  match distinct
      ((t.leavesBelow id).flatMap fun leaf => (t.constantsAt leaf).map (body.substitute v)) with
  | [] => [body.substitute v (Term.fresh [])]
  | fs => fs

def ruleForNegated? : Formula → Option Application
  | .atom _ _ => none
  | .neg f => some (.linear [f])
  | .bin .disj l r => some (.linear [.neg l, .neg r])
  | .bin .conj l r => some (.split [.neg l] [.neg r])
  | .bin .impl l r => some (.linear [l, .neg r])
  | .bin .iff l r => some (.split [l, .neg r] [.neg l, r])
  | .quant q v f => some (.linear [.quant q.dual v (.neg f)])

/-- The rule for a formula at the node `id`. There is none for a literal. -/
def ruleFor? (t : Tree) (id : NodeId) : Formula → Option Application
  | .atom _ _ => none
  | .bin .disj l r => some (.split [l] [r])
  | .bin .conj l r => some (.linear [l, r])
  | .bin .impl l r => some (.split [.neg l] [r])
  | .bin .iff l r => some (.split [l, r] [.neg l, .neg r])
  | .quant .universal v f => some ⟨.linear (t.instances id v f), false⟩
  | .quant .existential v f => some (.linear [f.substitute v (Term.fresh (t.visible id))])
  | .neg f => ruleForNegated? f

end Tree

end TruthTrees
