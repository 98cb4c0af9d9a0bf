import TruthTrees.Session.Event

/-!
# Narration

The events of a search, told from the states that it goes through. The search itself does not know
that it is being watched.
-/

namespace TruthTrees

namespace Tree

def closedSince (before after : Tree) : List NodeId :=
  (List.range' before.nextId (after.nextId - before.nextId)).filter after.isClosed

def graftEvents (t : Tree) (e : Expansion) : List NodeId → List Event
  | [] => []
  | leaf :: leaves =>
    if t.isRedundant leaf e then .redundantAt leaf :: t.graftEvents e leaves
    else
      let grown := t.hangAll e leaf
      (closedSince t grown).map .closed ++ grown.graftEvents e leaves

/-- What happens while the preference for contradictions is looked at: the first leaf that stays
open is named. -/
def speculationEvents (t : Tree) (id : NodeId) (f : Formula) : List Event :=
  match t.ruleFor? id f with
  | none => []
  | some a =>
    match (t.growingLeaves id a.expansion).find? fun leaf => !t.closesAt a.expansion leaf with
    | some leaf => [.leavesOpen f id leaf]
    | none => []

def carryOutEvents (t : Tree) (p : Preference) (id : NodeId) (f : Formula) (a : Application) :
    List Event :=
  let ticked := if a.ticks then t.tick id f else t
  ticked.graftEvents a.expansion (ticked.leavesBelow id) ++
    [if (t.carryOut id f a).2 then .applied p f id else .appliedInVain p f id]

end Tree

namespace Prover

def attemptEvents (s : Prover) (p : Preference) (id : NodeId) (f : Formula) : List Event :=
  if (s.tree.entry id).isTicked f then []
  else
    (if p = .contradiction then s.tree.speculationEvents id f else []) ++
      if p.holds s.tree id f then
        match s.tree.ruleFor? id f with
        | none => []
        | some a => s.tree.carryOutEvents p id f a
      else []

def attemptAllEvents (s : Prover) (p : Preference) : List (NodeId × Formula) → List Event
  | [] => []
  | (id, f) :: rest =>
    s.attemptEvents p id f ++
      match s.attempt p id f with
      | (_, true) => []
      | (s, false) => s.attemptAllEvents p rest

def stepEventsBy (s : Prover) : List Preference → List Event
  | [] => []
  | p :: ps =>
    s.attemptAllEvents p s.tree.openFormulae ++
      match s.attemptAll p s.tree.openFormulae with
      | (_, true) => []
      | (s, false) => s.stepEventsBy ps

def stepEvents (s : Prover) : List Event :=
  s.stepEventsBy Preference.all

def searchEvents (limit : Option Nat) : (budget : Nat) → Prover → List Event
  | 0, _ => []
  | budget + 1, s =>
    if s.atLimit limit then []
    else
      s.stepEvents ++
        match s.step with
        | (_, none) => []
        | (s, some _) => searchEvents limit budget s

end Prover

namespace Argument

def startEvents (a : Argument) : List Event :=
  let t := Prover.rootTree a.premises a.conclusion
  .rootMade (t.entry Tree.root).toNode ::
    if t.contradictsBranch Tree.root then [.rootContradictory] else []

def reportEvents (r : Report) : List Event :=
  (if r.verdict = .unknown then [.limitReached] else []) ++ [.judged r.verdict r.stats.steps]

/-- What happens during a search that ends with the given report. The steps are only followed if
they are shown. -/
def judgeEvents (verbosity : Level) (limit : Option Nat) (budget : Nat) (a : Argument)
    (r : Report) : List Event :=
  a.startEvents ++
    (if verbosity.shows .debug then a.prover.searchEvents limit budget else []) ++
    reportEvents r

end Argument

end TruthTrees
