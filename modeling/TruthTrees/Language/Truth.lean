import TruthTrees.Language.FreeTerms

/-!
# Truth

An interpretation gives every term a value in its domain and every predicate a relation over
lists of values. The truth of a formula depends only on the values of its free terms.
-/

namespace TruthTrees

universe u

structure Interpretation (D : Type u) where
  value : Term → D
  relation : Char → List D → Prop

namespace Interpretation

variable {D : Type u}

def assign (I : Interpretation D) (v : Term) (d : D) : Interpretation D :=
  { I with value := fun t => if t = v then d else I.value t }

@[simp] theorem relation_assign (I : Interpretation D) (v : Term) (d : D) :
    (I.assign v d).relation = I.relation := by
  simp [assign]

@[simp] theorem value_assign_self (I : Interpretation D) (v : Term) (d : D) :
    (I.assign v d).value v = d := by
  simp [assign]

theorem value_assign_of_ne (I : Interpretation D) {t v : Term} (h : t ≠ v) (d : D) :
    (I.assign v d).value t = I.value t := by
  simp [assign, h]

end Interpretation

def Connective.Joins : Connective → Prop → Prop → Prop
  | conj, p, q => p ∧ q
  | disj, p, q => p ∨ q
  | impl, p, q => p → q
  | iff, p, q => p ↔ q

def Quantifier.Ranges {D : Type u} : Quantifier → (D → Prop) → Prop
  | universal, p => ∀ d, p d
  | existential, p => ∃ d, p d

namespace Formula

variable {D : Type u}

def Holds : Formula → Interpretation D → Prop
  | atom p ts, I => I.relation p (ts.map I.value)
  | neg f, I => ¬f.Holds I
  | bin b l r, I => b.Joins (l.Holds I) (r.Holds I)
  | quant q v f, I => q.Ranges fun d => f.Holds (I.assign v d)

theorem holds_congr (f : Formula) {I J : Interpretation D} (hr : I.relation = J.relation)
    (hv : ∀ t ∈ f.freeOccurrences, I.value t = J.value t) : f.Holds I ↔ f.Holds J := by
  induction f generalizing I J with
  | atom p ts =>
    have h : ts.map I.value = ts.map J.value := List.map_congr_left hv
    simp only [Holds, hr, h]
  | neg f ih => exact not_congr (ih hr hv)
  | bin b l r ihl ihr =>
    have hl := ihl hr fun t ht => hv t (List.mem_append_left _ ht)
    have hr' := ihr hr fun t ht => hv t (List.mem_append_right _ ht)
    simp only [Holds, hl, hr']
  | quant q v f ih =>
    have h : ∀ d, f.Holds (I.assign v d) ↔ f.Holds (J.assign v d) := by
      intro d
      refine ih (by simp [hr]) fun t ht => ?_
      by_cases htv : t = v
      · simp [htv]
      · rw [I.value_assign_of_ne htv, J.value_assign_of_ne htv]
        exact hv t (by simp [freeOccurrences, ht, htv])
    simp only [Holds, h]

end Formula

end TruthTrees
