import TruthTrees.Search.Preference
import TruthTrees.Tree.Graft

/-!
# The prover

The root holds the premises and the negated conclusion. A step goes through the preferences and,
for each of them, through the open nodes from the top down and their formulae without a tick. It
applies the first rule that satisfies the preference and adds a node. The search is over when a
step finds no such rule, which need not happen once there are quantifiers.
-/

namespace TruthTrees

structure Stats where
  /-- The preferences by which nodes were added, the last one first. -/
  applied : List Preference := []
  /-- The number of rules that were applied without adding a node. -/
  redundant : Nat := 0
  /-- The number of times that the preference for contradictions was looked at. -/
  speculations : Nat := 0
  deriving DecidableEq

namespace Stats

def count (s : Stats) (p : Preference) : Nat :=
  s.applied.count p

/-- The number of steps by preference, the strongest first. -/
def counts (s : Stats) : List Nat :=
  Preference.all.map s.count

def steps (s : Stats) : Nat :=
  s.applied.length

/-- Count a look at the preference, if it is the one for contradictions. -/
def look (s : Stats) (p : Preference) : Stats :=
  if p = .contradiction then { s with speculations := s.speculations + 1 } else s

def addRedundant (s : Stats) : Stats :=
  { s with redundant := s.redundant + 1 }

def addStep (s : Stats) (p : Preference) : Stats :=
  { s with applied := p :: s.applied }

end Stats

namespace Tree

def openFormulae (t : Tree) : List (NodeId × Formula) :=
  t.openNodes.flatMap fun id => (t.entry id).formulae.map fun f => (id, f)

/-- Apply a rule at the node `id`, and tell whether any node was added. -/
def carryOut (t : Tree) (id : NodeId) (f : Formula) (a : Application) : Tree × Bool :=
  (if a.ticks then t.tick id f else t).graft id a.expansion

end Tree

structure Prover where
  tree : Tree
  stats : Stats := {}
  deriving DecidableEq

namespace Prover

def rootTree (premises : List Formula) (conclusion : Formula) : Tree :=
  .ofFormulae (premises ++ [.neg conclusion])

def start (premises : List Formula) (conclusion : Formula) : Prover :=
  let t := rootTree premises conclusion
  { tree := if t.contradictsBranch Tree.root then t.close Tree.root else t }

/-- Apply the rule for a formula if it has no tick and satisfies the preference, and tell whether
any node was added. -/
def attempt (s : Prover) (p : Preference) (id : NodeId) (f : Formula) : Prover × Bool :=
  if (s.tree.entry id).isTicked f then (s, false)
  else
    let stats := s.stats.look p
    if p.holds s.tree id f then
      match s.tree.ruleFor? id f with
      | none => (⟨s.tree, stats⟩, false)
      | some a =>
        match s.tree.carryOut id f a with
        | (t, true) => (⟨t, stats⟩, true)
        | (t, false) => (⟨t, stats.addRedundant⟩, false)
    else (⟨s.tree, stats⟩, false)

/-- Go through formulae until one of them adds a node. -/
def attemptAll (s : Prover) (p : Preference) : List (NodeId × Formula) → Prover × Bool
  | [] => (s, false)
  | (id, f) :: rest =>
    match s.attempt p id f with
    | (s, true) => (s, true)
    | (s, false) => s.attemptAll p rest

/-- Go through preferences until one of them adds a node, and tell which. -/
def stepBy (s : Prover) : List Preference → Prover × Option Preference
  | [] => (s, none)
  | p :: ps =>
    match s.attemptAll p s.tree.openFormulae with
    | (s, true) => (⟨s.tree, s.stats.addStep p⟩, some p)
    | (s, false) => s.stepBy ps

/-- Apply one rule that adds nodes, and tell by which preference; there is none when no rule
does. -/
def step (s : Prover) : Prover × Option Preference :=
  s.stepBy Preference.all

def after : Nat → Prover → Prover
  | 0, s => s
  | n + 1, s => (after n s).step.1

def atLimit (limit : Option Nat) (s : Prover) : Bool :=
  limit.any fun n => n ≤ s.tree.size

/-- Take steps until there are no more or the tree is at the limit, and tell whether there are no
more. There is no answer if `budget` looks at the tree are not enough. -/
def search (limit : Option Nat) : (budget : Nat) → Prover → Option (Prover × Bool)
  | 0, _ => none
  | budget + 1, s =>
    if s.atLimit limit then some (s, false)
    else
      match s.step with
      | (s, none) => some (s, true)
      | (s, some _) => search limit budget s

def run (budget : Nat) (s : Prover) : Option Prover :=
  (search none budget s).map Prod.fst

end Prover

end TruthTrees
