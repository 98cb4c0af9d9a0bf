import TruthTrees.Tree.Walk

/-!
# Branches

What is found on the branch that ends at a node: the node itself and its ancestors.
-/

namespace TruthTrees

/-- What a rule adds below a leaf: one branch, or two alternative ones. -/
inductive Expansion where
  | linear (branch : List Formula)
  | split (left right : List Formula)
  deriving DecidableEq

namespace Expansion

def sides : Expansion → List (Side × List Formula)
  | linear b => [(.left, b)]
  | split l r => [(.left, l), (.right, r)]

def branches (e : Expansion) : List (List Formula) :=
  e.sides.map Prod.snd

end Expansion

namespace Tree

/-- The constants of the node and its open ancestors. -/
def constantsAt (t : Tree) (id : NodeId) : List Term :=
  distinct ((t.openAncestors id).flatMap fun a => (t.entry a).constants)

/-- Does the formula stand in the node or in one of its open ancestors? -/
def branchContains (t : Tree) (id : NodeId) (f : Formula) : Bool :=
  (t.openAncestors id).any fun a => (t.entry a).contains f

/-- Does the node contradict itself or one of its ancestors? -/
def contradictsBranch (t : Tree) (id : NodeId) : Bool :=
  (t.ancestors id).any fun a => (t.entry id).contradicts (t.entry a).toNode

/-- Would the node contradict itself or its branch if it were attached below `leaf`? -/
def wouldClose (t : Tree) (leaf : NodeId) (n : Node) : Bool :=
  n.contradicts n || (t.ancestors leaf).any fun a => n.contradicts (t.entry a).toNode

/-- An expansion is redundant at a leaf if one of its branches adds nothing there. -/
def isRedundant (t : Tree) (leaf : NodeId) (e : Expansion) : Bool :=
  e.branches.any fun b => b.all (t.branchContains leaf)

end Tree

end TruthTrees
