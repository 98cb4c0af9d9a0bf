import TruthTrees.Language.Formula

/-!
# Signs

Every connective and quantifier has a plain sign, used in Polish notation, and a pretty one, used
in bracketed notation. Both are understood in either notation.
-/

namespace TruthTrees

namespace Connective

def plain : Connective → Char
  | conj => '&'
  | disj => '+'
  | impl => '>'
  | iff => ':'

def pretty : Connective → Char
  | conj => '∧'
  | disj => '∨'
  | impl => '→'
  | iff => '↔'

/-- Connectives of lower rank bind tighter. -/
def rank : Connective → Nat
  | conj => 3
  | disj => 4
  | impl => 5
  | iff => 6

theorem rank_order : conj.rank < disj.rank ∧ disj.rank < impl.rank ∧ impl.rank < iff.rank := by
  decide

theorem rank_inj {a b : Connective} (h : a.rank = b.rank) : a = b := by
  have horder := rank_order
  cases a <;> cases b <;> first | rfl | omega

/-- The ranks below are those of negation and quantifiers. -/
theorem two_lt_rank (b : Connective) : 2 < b.rank := by
  cases b <;> decide

theorem rank_pos (b : Connective) : 0 < b.rank :=
  Nat.zero_lt_of_lt b.two_lt_rank

def ofSign? (c : Char) : Option Connective :=
  [conj, disj, impl, iff].find? fun b => c = b.plain || c = b.pretty

end Connective

namespace Quantifier

def plain : Quantifier → Char
  | universal => '@'
  | existential => '#'

def pretty : Quantifier → Char
  | universal => '∀'
  | existential => '∃'

def ofSign? (c : Char) : Option Quantifier :=
  [universal, existential].find? fun q => c = q.plain || c = q.pretty

end Quantifier

namespace Negation

def plain : Char := '~'

def pretty : Char := '¬'

def isSign (c : Char) : Bool :=
  c = plain || c = pretty

end Negation

end TruthTrees
