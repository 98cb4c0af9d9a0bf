import TruthTrees.Tree.Drawing

/-!
# Walks with an agenda

A walk downwards can do without recursion if it keeps an agenda of what is still to be visited. It
takes the item on top and puts what is below it in its place, beginning with the last, so that the
first is on top then.
-/

namespace TruthTrees

namespace Agenda

variable {α : Type}

/-- Put items on top of an agenda one by one, the last of them first. -/
def push (items agenda : List α) : List α :=
  items.reverse.foldl (fun agenda x => x :: agenda) agenda

/-- Visit what is on an agenda until nothing is left, and list what was visited. An item for which
`below` has no answer is dropped. There is no result if `budget` looks at the agenda are not
enough. -/
def run? (below : α → Option (List α)) : (budget : Nat) → (agenda : List α) → Option (List α)
  | _, [] => some []
  | 0, _ :: _ => none
  | budget + 1, x :: agenda =>
    match below x with
    | none => run? below budget agenda
    | some items => (run? below budget (push items agenda)).map (x :: ·)

theorem push_eq_append (items agenda : List α) : push items agenda = items ++ agenda := by
  simp [push]

end Agenda

namespace Tree

/-- The nodes at and below `id`, leaving out those for which `skip` holds together with all that is
below them, by a walk with an agenda. -/
def walkDown? (t : Tree) (skip : Entry → Bool) (budget : Nat) (id : NodeId) :
    Option (List NodeId) :=
  Agenda.run? (fun id => if skip (t.entry id) then none else some (t.entry id).children) budget [id]

/-- All nodes of the tree, each with its depth, by a walk with an agenda. -/
def walkOutline? (t : Tree) (budget : Nat) : Option (List (Nat × NodeId)) :=
  Agenda.run? (fun (depth, id) => some ((t.entry id).children.map fun c => (depth + 1, c))) budget
    [(0, root)]

end Tree

end TruthTrees
