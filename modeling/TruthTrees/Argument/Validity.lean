import TruthTrees.Argument.Basic
import TruthTrees.Language.Truth

/-!
# Validity

An argument is valid if its conclusion is true wherever its premises are.
-/

namespace TruthTrees

universe u

namespace Argument

def IsCountermodel (a : Argument) {D : Type u} (I : Interpretation D) : Prop :=
  (∀ p ∈ a.premises, p.Holds I) ∧ ¬a.conclusion.Holds I

def Valid (a : Argument) : Prop :=
  ∀ (D : Type u) (I : Interpretation D),
    (∀ p ∈ a.premises, p.Holds I) → a.conclusion.Holds I

theorem valid_iff_no_countermodel (a : Argument) :
    Valid.{u} a ↔ ∀ (D : Type u) (I : Interpretation D), ¬a.IsCountermodel I := by
  simp [Valid, IsCountermodel]

end Argument

end TruthTrees
