import TruthTrees.Tree.Basic

/-!
# Walks through a tree

Downwards, nodes are listed in depth-first order, the left child before the right one. Upwards,
they are listed from a node to the root. A walk never meets a node twice, so the number of nodes
bounds its length.
-/

namespace TruthTrees

namespace Tree

/-- At most `depth` levels of the nodes at and below `id`, leaving out the nodes for which `skip`
holds together with all that is below them. -/
def levelsBelow (t : Tree) (skip : Entry → Bool) : Nat → NodeId → List NodeId
  | 0, _ => []
  | depth + 1, id =>
    if skip (t.entry id) then []
    else id :: (t.entry id).children.flatMap (t.levelsBelow skip depth)

/-- The nodes at and below `id`, from the top down and from left to right. -/
def descendants (t : Tree) (skip : Entry → Bool) (id : NodeId) : List NodeId :=
  t.levelsBelow skip t.nextId id

/-- At most `height` nodes on the way from `id` to the root. -/
def levelsAbove (t : Tree) : Nat → NodeId → List NodeId
  | 0, _ => []
  | height + 1, id =>
    id :: match (t.entry id).parent with
      | some parent => t.levelsAbove height parent
      | none => []

def ancestors (t : Tree) (id : NodeId) : List NodeId :=
  t.levelsAbove t.nextId id

def isClosed (t : Tree) (id : NodeId) : Bool :=
  (t.entry id).closed

/-- The node and its ancestors, up to the first closed one. -/
def openAncestors (t : Tree) (id : NodeId) : List NodeId :=
  (t.ancestors id).takeWhile fun a => !t.isClosed a

def nodes (t : Tree) : List NodeId :=
  t.descendants (fun _ => false) root

def size (t : Tree) : Nat :=
  t.nodes.length

/-- The nodes that are reached from the root without passing a closed one. -/
def openNodes (t : Tree) : List NodeId :=
  t.descendants (fun e => e.closed) root

def leavesBelow (t : Tree) (id : NodeId) : List NodeId :=
  (t.descendants (fun e => e.closed) id).filter fun leaf => (t.entry leaf).isLeaf

def closesBelow (t : Tree) (id : NodeId) : Bool :=
  (t.leavesBelow id).isEmpty

def closes (t : Tree) : Bool :=
  t.closesBelow root

end Tree

end TruthTrees
