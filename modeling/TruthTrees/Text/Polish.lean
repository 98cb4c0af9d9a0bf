import TruthTrees.Text.Token

/-!
# Polish notation

Every sign stands before the formulae that it is applied to, so that no brackets are needed. The
writing of a formula is read back from right to left with a stack, and recognised from left to
right by counting the formulae that are still to come.
-/

namespace TruthTrees

namespace Formula

def tokens : Formula → List Token
  | atom p ts => [.atom p ts]
  | neg f => .neg :: f.tokens
  | bin b l r => .bin b :: (l.tokens ++ r.tokens)
  | quant q v f => .quant q v :: f.tokens

@[simp] theorem length_tokens (f : Formula) : f.tokens.length = f.size := by
  induction f with
  | atom p ts => rfl
  | neg f ih => simp [tokens, size, ih]
  | bin b l r ihl ihr => simp [tokens, size, ihl, ihr]
  | quant q v f ih => simp [tokens, size, ih]

/-- The sign that is applied last, if there is one. -/
def majorToken? : Formula → Option Token
  | atom _ _ => none
  | neg _ => some .neg
  | bin b _ _ => some (.bin b)
  | quant q v _ => some (.quant q v)

def polish (f : Formula) : List Char :=
  spellTokens f.tokens

instance : ToString Formula where
  toString f := String.ofList f.polish

end Formula

/-- Apply a token to the formulae on top of a stack. -/
def Token.applyTo? : Token → List Formula → Option (List Formula)
  | .atom p ts, fs => some (.atom p ts :: fs)
  | .neg, f :: fs => some (.neg f :: fs)
  | .quant q v, f :: fs => some (.quant q v f :: fs)
  | .bin b, l :: r :: fs => some (.bin b l r :: fs)
  | _, _ => none

def formulae? : List Token → Option (List Formula)
  | [] => some []
  | t :: ts => (formulae? ts).bind t.applyTo?

def Formula.ofTokens? (ts : List Token) : Option Formula :=
  match formulae? ts with
  | some [f] => some f
  | _ => none

/-- Do the tokens write `n` formulae, and nothing else? -/
def writesFormulae : Nat → List Token → Bool
  | n, [] => n == 0
  | 0, _ :: _ => false
  | n + 1, t :: ts => writesFormulae (n + t.arity) ts

/-- Do the tokens write one formula, and nothing else? -/
def isPolish (ts : List Token) : Bool :=
  writesFormulae 1 ts

/-- The number of tokens of the first `n` formulae, or of all there are. -/
def spanOf : Nat → List Token → Nat
  | 0, _ => 0
  | _ + 1, [] => 0
  | n + 1, t :: ts => spanOf (n + t.arity) ts + 1

def span (ts : List Token) : Nat :=
  spanOf 1 ts

theorem formulae?_tokens_append (f : Formula) (ts : List Token) :
    formulae? (f.tokens ++ ts) = (formulae? ts).map (f :: ·) := by
  induction f generalizing ts with
  | atom p as => cases h : formulae? ts <;> simp [Formula.tokens, formulae?, Token.applyTo?, h]
  | neg f ih => cases h : formulae? ts <;> simp [Formula.tokens, formulae?, Token.applyTo?, ih, h]
  | bin b l r ihl ihr =>
    cases h : formulae? ts <;>
      simp [Formula.tokens, formulae?, Token.applyTo?, ihl, ihr, h]
  | quant q v f ih =>
    cases h : formulae? ts <;> simp [Formula.tokens, formulae?, Token.applyTo?, ih, h]

@[simp] theorem Formula.ofTokens?_tokens (f : Formula) : Formula.ofTokens? f.tokens = some f := by
  have h := formulae?_tokens_append f []
  simp only [List.append_nil] at h
  simp [Formula.ofTokens?, h, formulae?]

theorem Token.length_applyTo? {t : Token} {fs gs : List Formula} (h : t.applyTo? fs = some gs) :
    fs.length + 1 = gs.length + t.arity := by
  unfold Token.applyTo? at h
  split at h <;> simp_all [Token.arity] <;> subst h <;> simp

theorem Token.exists_applyTo? {t : Token} {fs : List Formula} (h : t.arity ≤ fs.length) :
    ∃ gs, t.applyTo? fs = some gs := by
  match t, fs with
  | .atom p ts, fs => exact ⟨_, rfl⟩
  | .neg, f :: fs => exact ⟨_, rfl⟩
  | .quant q v, f :: fs => exact ⟨_, rfl⟩
  | .bin b, l :: r :: fs => exact ⟨_, rfl⟩
  | .neg, [] => simp [Token.arity] at h
  | .quant q v, [] => simp [Token.arity] at h
  | .bin b, [] => simp [Token.arity] at h
  | .bin b, [f] => simp [Token.arity] at h

/-- Counting from the left agrees with reading from the right. -/
theorem writesFormulae_iff {n : Nat} {ts : List Token} :
    writesFormulae n ts ↔ ∃ fs, formulae? ts = some fs ∧ fs.length = n := by
  induction ts generalizing n with
  | nil => cases n <;> simp [writesFormulae, formulae?]
  | cons t ts ih =>
    cases n with
    | zero =>
      simp only [writesFormulae, formulae?, Bool.false_eq_true, false_iff]
      rintro ⟨gs, hgs, hlen⟩
      obtain ⟨fs, -, hfs⟩ := Option.bind_eq_some_iff.1 hgs
      unfold Token.applyTo? at hfs
      split at hfs <;> simp_all
    | succ n =>
      simp only [writesFormulae, ih, formulae?]
      constructor
      · rintro ⟨fs, hfs, hlen⟩
        have harity : t.arity ≤ fs.length := by omega
        obtain ⟨gs, hgs⟩ := Token.exists_applyTo? harity
        have := Token.length_applyTo? hgs
        exact ⟨gs, by simp [hfs, hgs], by omega⟩
      · rintro ⟨gs, hgs, hlen⟩
        obtain ⟨fs, hfs, hfg⟩ := Option.bind_eq_some_iff.1 hgs
        have := Token.length_applyTo? hfg
        exact ⟨fs, hfs, by omega⟩

theorem isPolish_iff_isSome {ts : List Token} : isPolish ts ↔ (Formula.ofTokens? ts).isSome := by
  rw [isPolish, writesFormulae_iff]
  unfold Formula.ofTokens?
  constructor
  · rintro ⟨fs, hfs, hlen⟩
    obtain ⟨f, rfl⟩ := List.length_eq_one_iff.1 hlen
    simp [hfs]
  · intro h
    split at h
    · next f hf => exact ⟨[f], hf, rfl⟩
    · simp at h

end TruthTrees
