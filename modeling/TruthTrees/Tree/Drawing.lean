import TruthTrees.Tree.Walk

/-!
# Drawings

A tree is drawn with one line per node, from the top down and from left to right. The line is
indented by the depth of its node.
-/

namespace TruthTrees

namespace Tree

/-- At most `levels` levels of the nodes at and below `id`, each with its depth. -/
def outlineBelow (t : Tree) : Nat → Nat → NodeId → List (Nat × NodeId)
  | 0, _, _ => []
  | levels + 1, depth, id =>
    (depth, id) :: (t.entry id).children.flatMap (t.outlineBelow levels (depth + 1))

def outline (t : Tree) : List (Nat × NodeId) :=
  t.outlineBelow t.nextId 0 root

def indent : List Char :=
  ['|', ' ', ' ', ' ']

def line (style : Style) (depth : Nat) (n : Node) : List Char :=
  (List.replicate depth indent).flatten ++ n.write style ++ ['\n']

def draw (style : Style) (t : Tree) : List Char :=
  t.outline.flatMap fun (depth, id) => line style depth (t.entry id).toNode

theorem map_snd_outlineBelow (t : Tree) (levels depth : Nat) (id : NodeId) :
    (t.outlineBelow levels depth id).map Prod.snd =
      t.levelsBelow (fun _ => false) levels id := by
  induction levels generalizing depth id with
  | zero => rfl
  | succ levels ih => simp [outlineBelow, levelsBelow, List.map_flatMap, ih]

theorem map_snd_outline (t : Tree) : t.outline.map Prod.snd = t.nodes :=
  map_snd_outlineBelow t t.nextId 0 root

end Tree

instance : ToString Tree where
  toString t := String.ofList (t.draw .polish)

end TruthTrees
