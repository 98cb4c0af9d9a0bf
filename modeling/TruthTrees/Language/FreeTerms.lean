import TruthTrees.Language.Distinct
import TruthTrees.Language.Formula

/-!
# Free terms

The constants of a formula are the terms that occur in it outside the range of a quantifier over
them.
-/

namespace TruthTrees

namespace Formula

def freeOccurrences : Formula → List Term
  | atom _ ts => ts
  | neg f => f.freeOccurrences
  | bin _ l r => l.freeOccurrences ++ r.freeOccurrences
  | quant _ v f => f.freeOccurrences.filter (· ≠ v)

/-- The free terms in the order of their first free occurrence. -/
def constants (f : Formula) : List Term :=
  distinct f.freeOccurrences

/-- All occurrences of terms, bound or free, and the variables of the quantifiers. -/
def occurrences : Formula → List Term
  | atom _ ts => ts
  | neg f => f.occurrences
  | bin _ l r => l.occurrences ++ r.occurrences
  | quant _ v f => v :: f.occurrences

@[simp] theorem mem_constants {f : Formula} {t : Term} :
    t ∈ f.constants ↔ t ∈ f.freeOccurrences :=
  mem_distinct

theorem nodup_constants (f : Formula) : f.constants.Nodup :=
  nodup_distinct f.freeOccurrences

theorem mem_occurrences_of_free {f : Formula} {t : Term} (h : t ∈ f.freeOccurrences) :
    t ∈ f.occurrences := by
  induction f with
  | atom p ts => exact h
  | neg f ih => exact ih h
  | bin c l r ihl ihr =>
    simp only [freeOccurrences, List.mem_append] at h
    simp only [occurrences, List.mem_append]
    exact h.imp ihl ihr
  | quant q v f ih =>
    simp only [freeOccurrences, List.mem_filter] at h
    exact List.mem_cons_of_mem v (ih h.1)

end Formula

end TruthTrees
