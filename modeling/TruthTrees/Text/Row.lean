import TruthTrees.Language.Substitution
import TruthTrees.Text.Reading

/-!
# Formulae as rows of tokens

A formula can be kept as the row of its tokens in Polish notation. Nothing in a row marks the end of
a part: it is known only from the number of tokens that were taken for the part. Rows are therefore
worked through by position, and there is no result where a position lies behind the end.
-/

namespace TruthTrees

def Token.terms : Token → List Term
  | atom _ ts => ts
  | quant _ v => [v]
  | _ => []

namespace Row

def before? (n : Nat) (ts : List Token) : Option (List Token) :=
  if n ≤ ts.length then some (ts.take n) else none

def after? (n : Nat) (ts : List Token) : Option (List Token) :=
  if n ≤ ts.length then some (ts.drop n) else none

def first? (ts : List Token) : Option (List Token) :=
  before? (span ts) ts

/-! ### Reading -/

def ofLexemes (ls : List Lexeme) : Except Fault (List Token) :=
  match (unbracketed? ls).filter isPolish with
  | some ts => .ok ts
  | none => do
    let ts ← toPolish ls
    if isPolish ts then return ts else throw (.notOneFormula ts)

/-- Check a row in Polish notation, or put one in bracketed notation without brackets into it. -/
def ofTokens (ts : List Token) : Except Fault (List Token) :=
  ofLexemes (ts.map .token)

def read (text : List Char) : Except Fault (List Token) := do
  ofLexemes (← lexemes text)

/-- The first token with the rows of the formulae that it is applied to. -/
def parts? : List Token → Option (Token × List (List Token))
  | [] => none
  | .atom p ts :: _ => some (.atom p ts, [])
  | .bin b :: ts => do return (.bin b, [← before? (span ts) ts, ← after? (span ts) ts])
  | t :: ts => some (t, [ts])

/-! ### Passes from left to right -/

/-- What a pass does at the tokens of a formula. -/
structure Pass (σ : Type) where
  atom : Char → List Term → σ → σ
  /-- Before the formulae that an operator is applied to. -/
  enter : Token → σ → σ
  /-- Between the two formulae of a connective. -/
  between : Connective → σ → σ
  /-- After the formulae that an operator is applied to. -/
  leave : Token → σ → σ

/-- Pass through the first formula of a row, at most `depth` tokens deep, and tell how many tokens
it has. -/
def Pass.run? {σ : Type} (p : Pass σ) : (depth : Nat) → List Token → σ → Option (σ × Nat)
  | 0, _, _ => none
  | _ + 1, [], _ => none
  | _ + 1, .atom q ts :: _, s => some (p.atom q ts s, 1)
  | depth + 1, .bin b :: ts, s => do
    let (s, l) ← p.run? depth ts (p.enter (.bin b) s)
    let (s, r) ← p.run? depth (← after? l ts) (p.between b s)
    return (p.leave (.bin b) s, l + r + 1)
  | depth + 1, t :: ts, s => do
    let (s, l) ← p.run? depth ts (p.enter t s)
    return (p.leave t s, l + 1)

/-- What a pass for free terms knows at a token. -/
structure Scope where
  /-- The variables of the quantifiers around it, the innermost first. -/
  bound : List Term := []
  /-- The free terms up to it. -/
  found : List Term := []

/-- Collect the free terms. A quantifier binds its variable only while its range is passed. -/
def freeTerms : Pass Scope where
  atom _ ts s := { s with found := appendNew s.found (ts.filter (· ∉ s.bound)) }
  enter
    | .quant _ v, s => { s with bound := v :: s.bound }
    | _, s => s
  between _ s := s
  leave
    | .quant _ _, s => { s with bound := s.bound.tail }
    | _, s => s

def brackets : Pass (List Char) where
  atom p ts text := text ++ (Token.atom p ts).spelling
  enter
    | .neg, text => text ++ [Negation.pretty]
    | .quant q v, text => text ++ q.pretty :: v.spelling ++ [' ']
    | .bin _, text => text ++ ['(']
    | .atom _ _, text => text
  between b text := text ++ [' ', b.pretty, ' ']
  leave
    | .bin _, text => text ++ [')']
    | _, text => text

def constants? (ts : List Token) : Option (List Term) :=
  (freeTerms.run? ts.length ts {}).map fun r => r.1.found

def bracketed? (ts : List Token) : Option (List Char) :=
  (brackets.run? ts.length ts []).map Prod.fst

/-! ### Substitution -/

/-- Put `c` in place of the free occurrences of `x` in the first formula of a row, at most `depth`
tokens deep, and tell how many tokens it has. A quantifier over `c` with `x` free in its range gets
a new variable, which is first put in place of `c` in the range. -/
def substituteFirst? : (depth : Nat) → Term → Term → List Token → Option (List Token × Nat)
  | 0, _, _, _ => none
  | _ + 1, _, _, [] => none
  | _ + 1, x, c, .atom p ts :: _ => some ([.atom p (replaceTerm x c ts)], 1)
  | depth + 1, x, c, .neg :: ts => do
    let (body, l) ← substituteFirst? depth x c ts
    return (.neg :: body, l + 1)
  | depth + 1, x, c, .bin b :: ts => do
    let (left, l) ← substituteFirst? depth x c ts
    let (right, r) ← substituteFirst? depth x c (← after? l ts)
    return (.bin b :: (left ++ right), l + r + 1)
  | depth + 1, x, c, .quant q v :: ts => do
    if v = x then
      return (← first? (.quant q v :: ts), span (.quant q v :: ts))
    else if v = c then
      let range ← after? 1 (← first? (.quant q v :: ts))
      if x ∈ (← constants? range) then
        let new := Term.fresh (range.flatMap Token.terms ++ [x, c])
        let (renamed, _) ← substituteFirst? depth c new range
        let (body, _) ← substituteFirst? depth x c renamed
        return (.quant q new :: body, span (.quant q v :: ts))
      else
        return (← first? (.quant q v :: ts), span (.quant q v :: ts))
    else
      let (body, l) ← substituteFirst? depth x c ts
      return (.quant q v :: body, l + 1)

def substitute? (x c : Term) (ts : List Token) : Option (List Token) :=
  (substituteFirst? ts.length x c ts).map Prod.fst

end Row

end TruthTrees
