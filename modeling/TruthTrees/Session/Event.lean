import TruthTrees.Argument.Lines
import TruthTrees.Search.Report
import TruthTrees.Text.Quoted

/-!
# Events

What a run tells in its log. Every event has a level and comes from one part of the program; an
event is shown if the verbosity of the run reaches its level.
-/

namespace TruthTrees

/-- The verbosities of a log; each shows all that the one before it shows. -/
inductive Level where
  | off
  | error
  | warn
  | info
  | debug
  | trace
  deriving DecidableEq

namespace Level

def rank : Level → Nat
  | off => 0
  | error => 1
  | warn => 2
  | info => 3
  | debug => 4
  | trace => 5

def shows (verbosity level : Level) : Bool :=
  level.rank ≤ verbosity.rank

/-- The label of a level, five characters wide. -/
def label : Level → String
  | off => "OFF  "
  | error => "ERROR"
  | warn => "WARN "
  | info => "INFO "
  | debug => "DEBUG"
  | trace => "TRACE"

def ofName? : String → Option Level
  | "off" => some off
  | "error" => some error
  | "warn" => some warn
  | "info" => some info
  | "debug" => some debug
  | "trace" => some trace
  | _ => none

end Level

inductive Event where
  /-- A file is about to be read. -/
  | openingFile (name : String)
  | formulaRead (formula : Formula)
  /-- A line of a dialogue is not a formula. -/
  | lineRejected (fault : Fault)
  | premisesCounted (count : Nat)
  | conclusionKnown (conclusion : Formula)
  | rootMade (root : Node)
  | rootContradictory
  /-- A rule would leave a branch open at a leaf. -/
  | leavesOpen (formula : Formula) (node leaf : NodeId)
  | redundantAt (leaf : NodeId)
  | closed (node : NodeId)
  | applied (preference : Preference) (formula : Formula) (node : NodeId)
  | appliedInVain (preference : Preference) (formula : Formula) (node : NodeId)
  | limitReached
  | judged (verdict : Verdict) (steps : Nat)

namespace Event

def level : Event → Level
  | openingFile _ | formulaRead _ | lineRejected _ | premisesCounted _ | conclusionKnown _
  | rootMade _ | rootContradictory | judged _ _ => .info
  | leavesOpen _ _ _ | redundantAt _ | closed _ | appliedInVain _ _ _ => .trace
  | applied _ _ _ => .debug
  | limitReached => .warn

def source : Event → String
  | openingFile _ | formulaRead _ | lineRejected _ => "tabprove::parse"
  | premisesCounted _ | conclusionKnown _ => "tabprove"
  | limitReached | judged _ _ => "tabprove::report"
  | rootMade _ | rootContradictory | applied _ _ _ | appliedInVain _ _ _ => "tableau::generator"
  | leavesOpen _ _ _ => "tableau::heuristic"
  | redundantAt _ | closed _ => "tableau::tree"

def message : Event → String
  | openingFile name => "loading " ++ quoted name
  | formulaRead f => s!"loading formula: {f}"
  | lineRejected fault => fault.message
  | premisesCounted count => s!"premises: {count}"
  | conclusionKnown f => s!"conclusion: {f}"
  | rootMade n => s!"root: {n}"
  | rootContradictory => "root contradicts itself"
  | leavesOpen f id leaf => s!"{f} at #{id} leaves #{leaf} open"
  | redundantAt leaf => s!"redundant at #{leaf}"
  | closed id => s!"close #{id}"
  | applied p f id => s!"{p.name}: {f} at #{id}"
  | appliedInVain p f id => s!"{p.name}: {f} at #{id} is redundant"
  | limitReached => "node limit reached with open branches"
  | judged verdict steps => s!"{verdict.name} after {steps} steps"

/-- The line that the event adds to a log of the given verbosity, if any. -/
def line (verbosity : Level) (e : Event) : String :=
  if verbosity.shows e.level then
    "[" ++ e.level.label ++ " " ++ e.source ++ "] " ++ e.message ++ "\n"
  else ""

end Event

end TruthTrees
