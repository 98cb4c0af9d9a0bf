import TruthTrees.Text.Lexeme

/-!
# The grammar of bracketed notation

Brackets may be left out where rank and grouping to the left make up for them, and they may be
put around every formula.
-/

namespace TruthTrees

/-- The lexemes write the formula, and `rank` is the highest rank of a connective outside all
brackets; it is zero if there is none. -/
inductive Derives : (rank : Nat) → List Lexeme → Formula → Prop where
  | atom (p : Char) (ts : List Term) : Derives 0 [.token (.atom p ts)] (.atom p ts)
  | neg {ls : List Lexeme} {f : Formula} (h : Derives 0 ls f) :
      Derives 0 (.token .neg :: ls) (.neg f)
  | quant (q : Quantifier) (v : Term) {ls : List Lexeme} {f : Formula} (h : Derives 0 ls f) :
      Derives 0 (.token (.quant q v) :: ls) (.quant q v f)
  | brackets {rank : Nat} {ls : List Lexeme} {f : Formula} (h : Derives rank ls f) :
      Derives 0 (.opening :: ls ++ [.closing]) f
  | bin (b : Connective) {m n : Nat} {ls rs : List Lexeme} {l r : Formula}
      (hl : Derives m ls l) (hm : m ≤ b.rank) (hr : Derives n rs r) (hn : n < b.rank) :
      Derives b.rank (ls ++ .token (.bin b) :: rs) (.bin b l r)

def InGrammar (ls : List Lexeme) (f : Formula) : Prop :=
  ∃ rank, Derives rank ls f

/-! ### Levels -/

/-- No connective outside all brackets binds looser than `b`. -/
def DerivesWithin (b : Connective) (ls : List Lexeme) (f : Formula) : Prop :=
  ∃ rank ≤ b.rank, Derives rank ls f

/-- All connectives outside all brackets bind tighter than `b`. -/
def DerivesBelow (b : Connective) (ls : List Lexeme) (f : Formula) : Prop :=
  ∃ rank < b.rank, Derives rank ls f

/-- A writing on either side of a connective. -/
def JoinedBy (b : Connective) (left right : List Lexeme → Formula → Prop) (ls : List Lexeme)
    (f : Formula) : Prop :=
  ∃ ls₁ ls₂ l r, ls = ls₁ ++ .token (.bin b) :: ls₂ ∧ f = .bin b l r ∧ left ls₁ l ∧ right ls₂ r

theorem Derives.rank_cases {rank : Nat} {ls : List Lexeme} {f : Formula} (h : Derives rank ls f) :
    rank = 0 ∨ ∃ b : Connective, rank = b.rank := by
  cases h with
  | atom p ts => exact .inl rfl
  | neg h => exact .inl rfl
  | quant q v h => exact .inl rfl
  | brackets h => exact .inl rfl
  | bin b hl hm hr hn => exact .inr ⟨b, rfl⟩

theorem derivesWithin_iff {b : Connective} {ls : List Lexeme} {f : Formula} :
    DerivesWithin b ls f ↔
      DerivesBelow b ls f ∨ JoinedBy b (DerivesWithin b) (DerivesBelow b) ls f := by
  constructor
  · rintro ⟨rank, hrank, h⟩
    rcases Nat.lt_or_eq_of_le hrank with hlt | heq
    · exact .inl ⟨rank, hlt, h⟩
    · cases h with
      | bin c hl hm hr hn =>
        cases Connective.rank_inj heq
        exact .inr ⟨_, _, _, _, rfl, rfl, ⟨_, hm, hl⟩, ⟨_, hn, hr⟩⟩
      | _ => exact absurd heq (Nat.ne_of_lt b.rank_pos)
  · rintro (⟨rank, hrank, h⟩ | ⟨ls₁, ls₂, l, r, rfl, rfl, ⟨m, hm, hl⟩, ⟨n, hn, hr⟩⟩)
    · exact ⟨rank, Nat.le_of_lt hrank, h⟩
    · exact ⟨b.rank, Nat.le_refl _, .bin b hl hm hr hn⟩

theorem derivesBelow_conj : DerivesBelow .conj = Derives 0 := by
  funext ls f
  apply propext
  constructor
  · rintro ⟨rank, hrank, h⟩
    rcases h.rank_cases with rfl | ⟨b, rfl⟩
    · exact h
    · have horder := Connective.rank_order
      cases b <;> omega
  · intro h
    exact ⟨0, Connective.conj.rank_pos, h⟩

theorem derivesBelow_eq {a b : Connective}
    (h : ∀ c : Connective, c.rank < b.rank ↔ c.rank ≤ a.rank) :
    DerivesBelow b = DerivesWithin a := by
  funext ls f
  apply propext
  constructor
  · rintro ⟨rank, hrank, hd⟩
    rcases hd.rank_cases with rfl | ⟨c, rfl⟩
    · exact ⟨0, Nat.zero_le _, hd⟩
    · exact ⟨_, (h c).mp hrank, hd⟩
  · rintro ⟨rank, hrank, hd⟩
    exact ⟨rank, Nat.lt_of_le_of_lt hrank ((h a).mpr (Nat.le_refl _)), hd⟩

/-- The grammar level by level: conjunctions bind tightest, then disjunctions, conditionals and
biconditionals, and a connective takes its own level on the left only. -/
theorem grammar_levels (ls : List Lexeme) (f : Formula) :
    (DerivesWithin .conj ls f ↔
      Derives 0 ls f ∨ JoinedBy .conj (DerivesWithin .conj) (Derives 0) ls f) ∧
    (DerivesWithin .disj ls f ↔
      DerivesWithin .conj ls f ∨ JoinedBy .disj (DerivesWithin .disj) (DerivesWithin .conj) ls f) ∧
    (DerivesWithin .impl ls f ↔
      DerivesWithin .disj ls f ∨ JoinedBy .impl (DerivesWithin .impl) (DerivesWithin .disj) ls f) ∧
    (DerivesWithin .iff ls f ↔
      DerivesWithin .impl ls f ∨ JoinedBy .iff (DerivesWithin .iff) (DerivesWithin .impl) ls f) ∧
    (InGrammar ls f ↔ DerivesWithin .iff ls f) := by
  have horder := Connective.rank_order
  have hdisj : DerivesBelow .disj = DerivesWithin .conj :=
    derivesBelow_eq fun c => by cases c <;> omega
  have himpl : DerivesBelow .impl = DerivesWithin .disj :=
    derivesBelow_eq fun c => by cases c <;> omega
  have hiff : DerivesBelow .iff = DerivesWithin .impl :=
    derivesBelow_eq fun c => by cases c <;> omega
  refine ⟨?_, ?_, ?_, ?_, ?_⟩
  · rw [derivesWithin_iff, derivesBelow_conj]
  · rw [derivesWithin_iff, hdisj]
  · rw [derivesWithin_iff, himpl]
  · rw [derivesWithin_iff, hiff]
  · constructor
    · rintro ⟨rank, h⟩
      refine ⟨rank, ?_, h⟩
      rcases h.rank_cases with rfl | ⟨b, rfl⟩
      · exact Nat.zero_le _
      · cases b <;> omega
    · rintro ⟨rank, -, h⟩
      exact ⟨rank, h⟩

def Formula.bracketedLexemes : Formula → List Lexeme
  | .atom p ts => [.token (.atom p ts)]
  | .neg f => .token .neg :: f.bracketedLexemes
  | .quant q v f => .token (.quant q v) :: f.bracketedLexemes
  | .bin b l r =>
    .opening :: (l.bracketedLexemes ++ .token (.bin b) :: r.bracketedLexemes) ++ [.closing]

theorem Formula.derives_bracketedLexemes (f : Formula) : Derives 0 f.bracketedLexemes f := by
  induction f with
  | atom p ts => exact .atom p ts
  | neg f ih => exact .neg ih
  | quant q v f ih => exact .quant q v ih
  | bin b l r ihl ihr =>
    exact .brackets (.bin b ihl (Nat.zero_le _) ihr b.rank_pos)

end TruthTrees
