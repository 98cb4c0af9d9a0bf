import TruthTrees.Language.FreeTerms

/-!
# Substitution

`f.substitute x c` puts the term `c` in place of the free occurrences of `x`. A quantifier over
`c` that has `x` free in its range would catch the new occurrences of `c`. Its variable is
therefore renamed to the first term that does not occur in its range.
-/

namespace TruthTrees

def replaceTerm (x c : Term) (ts : List Term) : List Term :=
  ts.map fun t => if t = x then c else t

namespace Formula

/-- Put `c` in place of the free occurrences of `x`, where no quantifier over `c` is in the
way. -/
def rename (x c : Term) : Formula → Formula
  | atom p ts => atom p (replaceTerm x c ts)
  | neg f => neg (f.rename x c)
  | bin b l r => bin b (l.rename x c) (r.rename x c)
  | quant q v f => if v = x then quant q v f else quant q v (f.rename x c)

/-- The new variable of a quantifier over `c` that has `x` free in its range `f`. -/
def newVariable (x c : Term) (f : Formula) : Term :=
  Term.fresh (f.occurrences ++ [x, c])

/-- Substitute below the nearest quantifier over `c`, whose variable is now `newName`. Where no
such quantifier is around, `newName` is `c` itself. -/
def substituteUnder (x c : Term) (newName : Term) : Formula → Formula
  | atom p ts => atom p (replaceTerm x c (replaceTerm c newName ts))
  | neg f => neg (f.substituteUnder x c newName)
  | bin b l r => bin b (l.substituteUnder x c newName) (r.substituteUnder x c newName)
  | quant q v f =>
    if v = x then
      quant q v (f.rename c newName)
    else if v = c then
      if x ∈ f.constants then
        quant q (newVariable x c f) (f.substituteUnder x c (newVariable x c f))
      else
        quant q v f
    else
      quant q v (f.substituteUnder x c newName)

/-- Put `c` in place of the free occurrences of `x`. -/
def substitute (f : Formula) (x c : Term) : Formula :=
  f.substituteUnder x c c

@[simp] theorem size_rename (x c : Term) (f : Formula) : (f.rename x c).size = f.size := by
  induction f with
  | atom p ts => rfl
  | neg f ih => simp [rename, size, ih]
  | bin b l r ihl ihr => simp [rename, size, ihl, ihr]
  | quant q v f ih =>
    unfold rename
    split <;> simp [size, ih]

theorem size_substituteUnder (x c newName : Term) (f : Formula) :
    (f.substituteUnder x c newName).size = f.size := by
  induction f generalizing newName with
  | atom p ts => rfl
  | neg f ih => simp [substituteUnder, size, ih]
  | bin b l r ihl ihr => simp [substituteUnder, size, ihl, ihr]
  | quant q v f ih =>
    unfold substituteUnder
    split
    · simp [size]
    · split
      · split <;> simp [size, ih]
      · simp [size, ih]

@[simp] theorem size_substitute (f : Formula) (x c : Term) : (f.substitute x c).size = f.size :=
  size_substituteUnder x c c f

end Formula

end TruthTrees
