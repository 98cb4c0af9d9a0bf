import TruthTrees.Tree.Graft

/-!
# Trees that can be built

The trees that come from a single node by adding and removing children, grafting, closing and
ticking, always at nodes that are there.
-/

namespace TruthTrees

namespace Tree

inductive Built : Tree → Prop where
  | single (formulae : List Formula) : Built (ofFormulae formulae)
  | addChild {t u : Tree} {parent id : NodeId} {child : Entry} (h : Built t)
      (hp : parent < t.nextId) (hu : t.addChild parent child = .ok (u, id)) : Built u
  | removeChild {t u : Tree} {parent child : NodeId} (h : Built t) (hp : parent < t.nextId)
      (hc : child < t.nextId) (hu : t.removeChild? parent child = some u) : Built u
  | graft {t : Tree} {id : NodeId} (e : Expansion) (h : Built t) (hid : id < t.nextId) :
      Built (t.graft id e).1
  | close {t : Tree} {id : NodeId} (h : Built t) (hid : id < t.nextId) : Built (t.close id)
  | tick {t : Tree} {id : NodeId} (f : Formula) (h : Built t) (hid : id < t.nextId) :
      Built (t.tick id f)

end Tree

end TruthTrees
