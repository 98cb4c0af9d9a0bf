/-!
# Terms

A term is a letter from `a` to `z` with an index. The same terms serve as constants and as
variables; only a quantifier makes the difference. When a rule needs a new constant it takes the
first term of the enumeration `a, …, z, a1, …, z1, a2, …` that is not visible yet.
-/

namespace TruthTrees

structure Term where
  letter : Fin 26
  index : UInt32
  deriving DecidableEq

namespace Term

/-- Terms are ordered by letter, then by index. -/
instance : LE Term where
  le s t := s.letter < t.letter ∨ (s.letter = t.letter ∧ s.index ≤ t.index)

instance (s t : Term) : Decidable (s ≤ t) :=
  inferInstanceAs (Decidable (s.letter < t.letter ∨ (s.letter = t.letter ∧ s.index ≤ t.index)))

def sort (ts : List Term) : List Term :=
  ts.mergeSort fun s t => decide (s ≤ t)

/-- The enumeration of all terms in which new constants are looked for. -/
def candidate (n : Nat) : Term :=
  ⟨⟨n % 26, Nat.mod_lt n (by decide)⟩, UInt32.ofNat (n / 26)⟩

/-- The term that stands in when every candidate is taken. -/
def last : Term :=
  ⟨0, 0xFFFFFFFF⟩

/-- The first candidate that is not visible. Of more candidates than there are visible terms,
one is always left. -/
def fresh (visible : List Term) : Term :=
  (((List.range (visible.length + 1)).map candidate).find? (· ∉ visible)).getD last

def letterChar (t : Term) : Char :=
  Char.ofNat (97 + t.letter)

def spelling (t : Term) : List Char :=
  t.letterChar :: if t.index = 0 then [] else Nat.toDigits 10 t.index.toNat

instance : ToString Term where
  toString t := String.ofList t.spelling

def letter? (c : Char) : Option (Fin 26) :=
  if h : 97 ≤ c.toNat ∧ c.toNat < 123 then some ⟨c.toNat - 97, by omega⟩ else none

/-- The index that a run of digits stands for; no digits stand for zero. Only numbers below
`2 ^ 32` are indices. -/
def index? (digits : List Char) : Option UInt32 :=
  let n := Nat.ofDigitChars 10 digits 0
  if n < UInt32.size then some (UInt32.ofNat n) else none

def ofChars? : List Char → Option Term
  | [] => none
  | c :: digits =>
    if digits.all Char.isDigit then do return ⟨← letter? c, ← index? digits⟩ else none

theorem letter?_letterChar (t : Term) : letter? t.letterChar = some t.letter := by
  have h : ∀ l : Fin 26, letter? (Char.ofNat (97 + l)) = some l := by decide
  exact h t.letter

theorem index?_toDigits (i : UInt32) : index? (Nat.toDigits 10 i.toNat) = some i := by
  have h : i.toNat < UInt32.size := i.toNat_lt_size
  simp only [index?, Nat.ofDigitChars_ten_toDigits]
  rw [if_pos h, UInt32.ofNat_toNat]

@[simp] theorem ofChars?_spelling (t : Term) : ofChars? t.spelling = some t := by
  by_cases h : t.index = 0
  · have ht : (⟨t.letter, 0⟩ : Term) = t := by rw [← h]
    simp [spelling, ofChars?, h, letter?_letterChar, index?, ht]
  · have hd : (Nat.toDigits 10 t.index.toNat).all Char.isDigit := by
      simp only [List.all_eq_true]
      intro c hc
      exact Nat.isDigit_of_mem_toDigits (by decide) (by decide) hc
    simp [spelling, ofChars?, h, letter?_letterChar, hd, index?_toDigits]

end Term

end TruthTrees
