import TruthTrees.Text.Blank
import TruthTrees.Text.Token

/-!
# Lexemes

The surface signs of a formula are its tokens and the round brackets. Blanks are dropped before
anything else is looked at. A predicate is a capital letter. It takes the run of terms that
follows it, as in `Rab`, or a bracketed list of terms, as in `R(a, b)`.
-/

namespace TruthTrees

inductive Lexeme where
  | token (token : Token)
  | opening
  | closing
  deriving DecidableEq

inductive ScanFault where
  | unexpected
  | indexTooLarge (digits : List Char)
  deriving DecidableEq

namespace Lexeme

def spelling : Lexeme → List Char
  | token t => t.spelling
  | opening => ['(']
  | closing => [')']

def token? : Lexeme → Option Token
  | token t => some t
  | _ => none

def isTermChar (c : Char) : Bool :=
  c.isLower || c.isDigit

def isListChar (c : Char) : Bool :=
  isTermChar c || c = ','

def startsWithLetter (cs : List Char) : Bool :=
  cs.head?.any Char.isLower

/-- The run of terms at the start of a text. -/
def run (cs : List Char) : List Char :=
  if startsWithLetter cs then cs.takeWhile isTermChar else []

/-- The inside of the bracketed list of terms at the start of a text. -/
def listed? : List Char → Option (List Char)
  | '(' :: cs =>
    let inside := cs.takeWhile isListChar
    if startsWithLetter inside && (cs.drop inside.length).head? = some ')' then some inside
    else none
  | _ => none

def termAt (letter : Fin 26) (cs : List Char) : Except ScanFault Term :=
  let digits := cs.takeWhile Char.isDigit
  match Term.index? digits with
  | some index => .ok ⟨letter, index⟩
  | none => .error (.indexTooLarge digits)

/-- The terms of a run or of a list. A digit belongs to the letter before it, so that no digit
may follow a comma. -/
def terms (afterComma : Bool) : List Char → Except ScanFault (List Term)
  | [] => .ok []
  | c :: cs =>
    match Term.letter? c with
    | some letter => do
      let t ← termAt letter cs
      let ts ← terms false cs
      return t :: ts
    | none =>
      if c = ',' then terms true cs
      else if afterComma then .error .unexpected
      else terms false cs

/-- The quantifier at the start of a text, with the number of characters that its variable
takes. -/
def quantified (q : Quantifier) : List Char → Except ScanFault (Lexeme × Nat)
  | [] => .error .unexpected
  | c :: cs =>
    match Term.letter? c with
    | some letter => do
      let v ← termAt letter cs
      return (token (.quant q v), (cs.takeWhile Char.isDigit).length + 1)
    | none => .error .unexpected

/-- The predicate at the start of a text, with the number of characters that its terms take. -/
def applied (p : Char) (cs : List Char) : Except ScanFault (Lexeme × Nat) :=
  match listed? cs with
  | some inside => do
    let ts ← terms false inside
    return (token (.atom p ts), inside.length + 2)
  | none => do
    let ts ← terms false (run cs)
    return (token (.atom p ts), (run cs).length)

/-- The lexeme that starts with the character `c`, and how many of the characters `cs` after it
belong to it. -/
def first (c : Char) (cs : List Char) : Except ScanFault (Lexeme × Nat) :=
  if Negation.isSign c then .ok (token .neg, 0)
  else if let some b := Connective.ofSign? c then .ok (token (.bin b), 0)
  else if let some q := Quantifier.ofSign? c then quantified q cs
  else if c.isUpper then applied c cs
  else if c = '(' then .ok (opening, 0)
  else if c = ')' then .ok (closing, 0)
  else .error .unexpected

/-- The lexemes of a text without blanks, of which `skip` characters are done with already. -/
def scanFrom : Nat → List Char → Except ScanFault (List Lexeme)
  | _, [] => .ok []
  | skip + 1, _ :: cs => scanFrom skip cs
  | 0, c :: cs => do
    let (lexeme, more) ← first c cs
    let rest ← scanFrom more cs
    return lexeme :: rest

def scan (cs : List Char) : Except ScanFault (List Lexeme) :=
  scanFrom 0 cs

theorem scanFrom_eq_scan_drop (skip : Nat) (cs : List Char) :
    scanFrom skip cs = scan (cs.drop skip) := by
  induction cs generalizing skip with
  | nil => cases skip <;> simp [scan, scanFrom]
  | cons c cs ih =>
    cases skip with
    | zero => rfl
    | succ skip => simp [scanFrom, ih]

end Lexeme

def spellLexemes (lexemes : List Lexeme) : List Char :=
  lexemes.flatMap Lexeme.spelling

def unbracketed? (lexemes : List Lexeme) : Option (List Token) :=
  lexemes.mapM Lexeme.token?

end TruthTrees
