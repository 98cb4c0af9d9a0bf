import TruthTrees.Text.Bracketed

/-!
# Reading formulae

A text is read as Polish notation if it can be, and as bracketed notation otherwise.
-/

namespace TruthTrees

def lexemes (text : List Char) : Except Fault (List Lexeme) :=
  match Lexeme.scan (withoutBlanks text) with
  | .ok ls => .ok ls
  | .error .unexpected => .error (.unexpected (withoutBlanks text))
  | .error (.indexTooLarge digits) => .error (.indexTooLarge digits)

def toPolish (ls : List Lexeme) : Except Fault (List Token) :=
  match toPolish? ls with
  | some ts => .ok ts
  | none => .error (.unbalanced ls)

namespace Formula

def ofBracketed (ls : List Lexeme) : Except Fault Formula := do
  let ts ← toPolish ls
  match ofTokens? ts with
  | some f => return f
  | none => throw (.notOneFormula ts)

def ofLexemes (ls : List Lexeme) : Except Fault Formula :=
  match (unbracketed? ls).bind ofTokens? with
  | some f => .ok f
  | none => ofBracketed ls

/-- Build a formula from tokens in Polish notation or in bracketed notation without brackets. -/
def ofTokens (ts : List Token) : Except Fault Formula :=
  ofLexemes (ts.map .token)

/-- Read a formula in Polish or in bracketed notation. -/
def read (text : List Char) : Except Fault Formula := do
  ofLexemes (← lexemes text)

end Formula

end TruthTrees
