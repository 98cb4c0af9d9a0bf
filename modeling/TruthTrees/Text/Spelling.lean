import TruthTrees.Text.Lexeme

/-!
# Spellings

How the lexemes may be spelled in a text without blanks. Signs have two spellings, an index may
have leading zeros, and the terms of a predicate may stand in a row or in a bracketed list.
-/

namespace TruthTrees

/-- A term is spelled with a decimal numeral of its index, which may be empty for zero. -/
def Term.SpelledAs (t : Term) (cs : List Char) : Prop :=
  ∃ digits, cs = t.letterChar :: digits ∧ (∀ d ∈ digits, d.isDigit) ∧
    Nat.ofDigitChars 10 digits 0 = t.index.toNat

inductive SpelledInRow : List Term → List Char → Prop where
  | nil : SpelledInRow [] []
  | cons {t : Term} {ts : List Term} {w cs : List Char} (ht : t.SpelledAs w)
      (hts : SpelledInRow ts cs) : SpelledInRow (t :: ts) (w ++ cs)

/-- Terms of a list, with any number of commas after each of them. -/
inductive SpelledInList : List Term → List Char → Prop where
  | nil : SpelledInList [] []
  | cons {t : Term} {ts : List Term} {w cs : List Char} (commas : Nat) (ht : t.SpelledAs w)
      (hts : SpelledInList ts cs) :
      SpelledInList (t :: ts) (w ++ List.replicate commas ',' ++ cs)

inductive Lexeme.SpelledAs : Lexeme → List Char → Prop where
  | opening : SpelledAs .opening ['(']
  | closing : SpelledAs .closing [')']
  | neg {c : Char} (h : c = Negation.plain ∨ c = Negation.pretty) :
      SpelledAs (.token .neg) [c]
  | bin {b : Connective} {c : Char} (h : c = b.plain ∨ c = b.pretty) :
      SpelledAs (.token (.bin b)) [c]
  | quant {q : Quantifier} {v : Term} {c : Char} {w : List Char}
      (h : c = q.plain ∨ c = q.pretty) (hv : v.SpelledAs w) :
      SpelledAs (.token (.quant q v)) (c :: w)
  | row {p : Char} {ts : List Term} {w : List Char} (hp : p.isUpper) (h : SpelledInRow ts w) :
      SpelledAs (.token (.atom p ts)) (p :: w)
  | list {p : Char} {ts : List Term} {w : List Char} (hp : p.isUpper) (hne : ts ≠ [])
      (h : SpelledInList ts w) :
      SpelledAs (.token (.atom p ts)) (p :: '(' :: w ++ [')'])

inductive SpelledOut : List Lexeme → List Char → Prop where
  | nil : SpelledOut [] []
  | cons {l : Lexeme} {ls : List Lexeme} {w cs : List Char} (hl : l.SpelledAs w)
      (hls : SpelledOut ls cs) : SpelledOut (l :: ls) (w ++ cs)

end TruthTrees
