import TruthTrees.Language.FreeTerms
import TruthTrees.Text.Style

/-!
# Nodes

A node holds a list of formulae that never changes. A formula is ticked once its rule has been
applied, and the node is closed once it contradicts its branch.
-/

namespace TruthTrees

structure Node where
  formulae : List Formula
  /-- The formulae whose rule has been applied. Equal formulae of a node share their tick. -/
  ticked : List Formula := []
  closed : Bool := false
  deriving DecidableEq, Inhabited

namespace Node

def ofFormulae (formulae : List Formula) : Node :=
  { formulae }

/-- The same formulae, open and without ticks. -/
def renew (n : Node) : Node :=
  ofFormulae n.formulae

def contains (n : Node) (f : Formula) : Bool :=
  f ∈ n.formulae

def isTicked (n : Node) (f : Formula) : Bool :=
  f ∈ n.ticked

/-- Tick a formula; one that is not in the node gets no tick. -/
def tick (n : Node) (f : Formula) : Node :=
  if f ∈ n.formulae then { n with ticked := n.ticked.insert f } else n

def untick (n : Node) (f : Formula) : Node :=
  { n with ticked := n.ticked.filter (· ≠ f) }

def close (n : Node) : Node :=
  { n with closed := true }

def contradicts (n other : Node) : Bool :=
  n.formulae.any fun f => other.formulae.any f.contradicts

def constants (n : Node) : List Term :=
  distinct (n.formulae.flatMap Formula.constants)

/-- The formulae with commas between them, and a cross if the node is closed. -/
def write (style : Style) (n : Node) : List Char :=
  [',', ' '].intercalate (n.formulae.map (Formula.write style)) ++
    if n.closed then [' ', '[', 'X', ']'] else []

theorem isTicked_tick {n : Node} {f g : Formula} :
    (n.tick f).isTicked g ↔ (g = f ∧ f ∈ n.formulae) ∨ n.isTicked g := by
  unfold tick isTicked
  split <;> simp_all

end Node

instance : ToString Node where
  toString n := String.ofList (n.write .polish)

end TruthTrees
