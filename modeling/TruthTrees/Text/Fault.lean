import TruthTrees.Text.Lexeme

/-!
# Faults of formation

The ways in which a text fails to be a formula. The message names what was left when reading
stopped.
-/

namespace TruthTrees

inductive Fault where
  /-- A character has no place where it stands; `text` is the whole text without blanks. -/
  | unexpected (text : List Char)
  /-- The number after a term is not an index. -/
  | indexTooLarge (digits : List Char)
  /-- A bracket has no partner. -/
  | unbalanced (lexemes : List Lexeme)
  /-- The tokens, put into Polish notation, do not write exactly one formula. -/
  | notOneFormula (tokens : List Token)
  deriving DecidableEq

namespace Fault

def subject : Fault → List Char
  | unexpected text => text
  | indexTooLarge digits => digits
  | unbalanced lexemes => spellLexemes lexemes
  | notOneFormula tokens => spellTokens tokens

def message (f : Fault) : String :=
  String.ofList f.subject ++ " is not a well formed formula"

end Fault

end TruthTrees
