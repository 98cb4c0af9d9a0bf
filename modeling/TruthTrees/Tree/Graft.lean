import TruthTrees.Tree.Branch

/-!
# Grafting

An expansion is carried out at every open leaf below a node, except where it is redundant. A new
node is closed at once if it contradicts its branch.
-/

namespace TruthTrees

namespace Tree

def hang (leaf : NodeId) (t : Tree) (branch : Side × List Formula) : Tree :=
  let hung := t.attach leaf branch.1 (.ofFormulae branch.2)
  if hung.contradictsBranch t.nextId then hung.close t.nextId else hung

def hangAll (t : Tree) (e : Expansion) (leaf : NodeId) : Tree :=
  e.sides.foldl (hang leaf) t

/-- Carry out an expansion at the leaves of a list, and tell whether any node was added. -/
def graftAt (t : Tree) (e : Expansion) : List NodeId → Tree × Bool
  | [] => (t, false)
  | leaf :: leaves =>
    if t.isRedundant leaf e then t.graftAt e leaves
    else (((t.hangAll e leaf).graftAt e leaves).1, true)

/-- Carry out an expansion at the open leaves below `id`, and tell whether any node was added. -/
def graft (t : Tree) (id : NodeId) (e : Expansion) : Tree × Bool :=
  t.graftAt e (t.leavesBelow id)

end Tree

end TruthTrees
