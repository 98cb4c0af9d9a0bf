import TruthTrees.Text.Extender
import TruthTrees.Text.Ignorable
import TruthTrees.Text.Unprintable

/-!
# Quoted text

Text between double quotes, on one line and with every character visible.
-/

namespace TruthTrees

def shortEscape? : Char → Option Char
  | '"' => some '"'
  | '\\' => some '\\'
  | '\n' => some 'n'
  | '\r' => some 'r'
  | '\t' => some 't'
  | '\x00' => some '0'
  | _ => none

/-- The voiced and semi-voiced sound marks of halfwidth katakana. They extend graphemes, but take up
a column of their own. -/
def soundMarkRanges : CodeRanges :=
  [(0xFF9E, 0xFF9F)]

/-- Can the character be seen, apart from the one before it? -/
def standsAlone (c : Char) : Bool :=
  !isUnprintable c && !isIgnorable c && (!isExtender c || soundMarkRanges.covers c)

/-- The spelling of a character in a quoted text. What has no short escape and cannot be seen for
itself is given by its code point. -/
def quotedChar (c : Char) : List Char :=
  match shortEscape? c with
  | some e => ['\\', e]
  | none =>
    if standsAlone c then [c]
    else ['\\', 'u', '\x7b'] ++ Nat.toDigits 16 c.toNat ++ ['\x7d']

def quoted (text : String) : String :=
  String.ofList ('"' :: text.toList.flatMap quotedChar ++ ['"'])

end TruthTrees
