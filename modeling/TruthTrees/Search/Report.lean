import TruthTrees.Argument.Basic
import TruthTrees.Search.Prover

/-!
# Reports

The summary of a search. An argument is valid if every branch of its tree closes. It is invalid if
a branch is open and no rule adds anything, and unknown if the search stopped before that.
-/

namespace TruthTrees

inductive Verdict where
  | valid
  | invalid
  | unknown
  deriving DecidableEq

def Verdict.name : Verdict → String
  | valid => "valid"
  | invalid => "invalid"
  | unknown => "unknown"

/-- The verdict on a tree, given whether its search came to an end. -/
def Tree.verdict (t : Tree) (complete : Bool) : Verdict :=
  if t.closes then .valid else if complete then .invalid else .unknown

structure Report where
  size : Nat
  verdict : Verdict
  stats : Stats
  deriving DecidableEq

namespace Report

def ofSearch (s : Prover) (complete : Bool) : Report :=
  ⟨s.tree.size, s.tree.verdict complete, s.stats⟩

def text (r : Report) (seconds : String) : String :=
  s!"Tree build time: {seconds} seconds\n" ++
    s!"Tree size      : {r.size}\n" ++
    s!"Argument type  : {r.verdict.name}\n"

def json (r : Report) (seconds : String) : String :=
  let counts := ",".intercalate (r.stats.counts.map toString)
  "\x7b\"seconds\":" ++ seconds ++ ",\"size\":" ++ toString r.size ++
    ",\"verdict\":\"" ++ r.verdict.name ++ "\",\"stats\":\x7b\"applications\":[" ++ counts ++
    "],\"redundant\":" ++ toString r.stats.redundant ++
    ",\"speculations\":" ++ toString r.stats.speculations ++ "\x7d\x7d"

end Report

namespace Argument

def prover (a : Argument) : Prover :=
  .start a.premises a.conclusion

/-- Search for the tree of an argument, up to a limit on its nodes. There is no answer if the
budget of steps is not enough. -/
def judge (limit : Option Nat) (budget : Nat) (a : Argument) : Option (Tree × Report) :=
  (a.prover.search limit budget).map fun (s, complete) => (s.tree, .ofSearch s complete)

end Argument

end TruthTrees
