import TruthTrees.Text.CodeRanges

/-!
# Blank characters

The characters with the Unicode property `White_Space`. They carry no meaning in a formula.
-/

namespace TruthTrees

def blankRanges : CodeRanges :=
  [(0x09, 0x0D), (0x20, 0x20), (0x85, 0x85), (0xA0, 0xA0), (0x1680, 0x1680), (0x2000, 0x200A),
    (0x2028, 0x2029), (0x202F, 0x202F), (0x205F, 0x205F), (0x3000, 0x3000)]

def isBlank (c : Char) : Bool :=
  blankRanges.covers c

def isBlankText (cs : List Char) : Bool :=
  cs.all isBlank

def withoutBlanks (cs : List Char) : List Char :=
  cs.filter fun c => !isBlank c

end TruthTrees
