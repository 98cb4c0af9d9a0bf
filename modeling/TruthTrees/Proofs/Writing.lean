import TruthTrees.Proofs.Conversion
import TruthTrees.Proofs.Scanning

/-!
# Reading what was written

A formula is read back from its writing in either notation. The writings are spelled in the sense of
the scanner, with plain signs and no blanks in Polish notation and with pretty signs and some blanks
in bracketed notation, so that the scanner finds the lexemes of the formula.
-/

namespace TruthTrees

/-! ### Blanks -/

theorem isBlank_eq_false {c : Char} (h : 32 < c.toNat) (h' : c.toNat < 133) :
    isBlank c = false := by
  have hgap : ∀ r ∈ blankRanges, r.2 ≤ 32 ∨ 133 ≤ r.1 := by decide
  rw [← Bool.not_eq_true, isBlank, CodeRanges.covers_iff]
  rintro ⟨r, hr, hfirst, hlast⟩
  have := hgap r hr
  omega

theorem isBlank_of_isTermChar {c : Char} (h : Lexeme.isTermChar c) : isBlank c = false := by
  rw [Lexeme.isTermChar, Bool.or_eq_true, isLower_iff, isDigit_iff] at h
  exact isBlank_eq_false (by omega) (by omega)

theorem isBlank_of_isUpper {c : Char} (h : c.isUpper) : isBlank c = false := by
  rw [isUpper_iff] at h
  exact isBlank_eq_false (by omega) (by omega)

theorem withoutBlanks_eq_self {cs : List Char} (h : ∀ c ∈ cs, isBlank c = false) :
    withoutBlanks cs = cs := by
  rw [withoutBlanks, List.filter_eq_self]
  intro c hc
  simp [h c hc]

theorem withoutBlanks_append (cs ds : List Char) :
    withoutBlanks (cs ++ ds) = withoutBlanks cs ++ withoutBlanks ds :=
  List.filter_append ..

theorem withoutBlanks_cons {c : Char} (h : isBlank c = false) (cs : List Char) :
    withoutBlanks (c :: cs) = c :: withoutBlanks cs := by
  simp [withoutBlanks, h]

theorem withoutBlanks_space (cs : List Char) : withoutBlanks (' ' :: cs) = withoutBlanks cs := rfl

/-! ### Spellings that are written -/

theorem SpelledOut.append {ls rs : List Lexeme} {cs ds : List Char} (h : SpelledOut ls cs)
    (h' : SpelledOut rs ds) : SpelledOut (ls ++ rs) (cs ++ ds) := by
  induction h with
  | nil => exact h'
  | cons hl _ ih =>
    rw [List.append_assoc]
    exact .cons hl ih

theorem Term.spelledAs_spelling (t : Term) : t.SpelledAs t.spelling := by
  refine ⟨_, rfl, ?_, ?_⟩
  · intro d hd
    split at hd
    · cases hd
    · exact Nat.isDigit_of_mem_toDigits (by decide) (by decide) hd
  · split
    · next h => simp [h]
    · exact Nat.ofDigitChars_ten_toDigits

theorem withoutBlanks_spelling (t : Term) : withoutBlanks t.spelling = t.spelling :=
  withoutBlanks_eq_self fun c hc => isBlank_of_isTermChar (t.spelledAs_spelling.isTermChar c hc)

theorem spelledInRow_flatMap (ts : List Term) : SpelledInRow ts (ts.flatMap Term.spelling) := by
  induction ts with
  | nil => exact .nil
  | cons t ts ih => exact .cons t.spelledAs_spelling ih

theorem withoutBlanks_atom {p : Char} (hp : p.isUpper) (ts : List Term) :
    withoutBlanks (Token.atom p ts).spelling = (Token.atom p ts).spelling := by
  refine withoutBlanks_eq_self fun c hc => ?_
  rcases List.mem_cons.mp hc with rfl | hc
  · exact isBlank_of_isUpper hp
  · exact isBlank_of_isTermChar ((spelledInRow_flatMap ts).isTermChar c hc)

def Capitalized (ts : List Token) : Prop :=
  ∀ p args, .atom p args ∈ ts → p.isUpper

theorem Capitalized.mono {ss ts : List Token} (h : Capitalized ts) (hsub : ss ⊆ ts) :
    Capitalized ss :=
  fun p args ha => h p args (hsub ha)

theorem Token.spelledAs_spelling {t : Token} (h : Capitalized [t]) :
    (Lexeme.token t).SpelledAs t.spelling := by
  cases t with
  | neg => exact .neg (.inl rfl)
  | bin b => exact .bin (.inl rfl)
  | quant q v => exact .quant (.inl rfl) v.spelledAs_spelling
  | atom p ts => exact .row (h p ts (List.mem_singleton_self _)) (spelledInRow_flatMap ts)

theorem withoutBlanks_token {t : Token} (h : Capitalized [t]) :
    withoutBlanks t.spelling = t.spelling := by
  cases t with
  | neg => rfl
  | bin b => cases b <;> rfl
  | quant q v =>
    have hq : isBlank q.plain = false := by cases q <;> rfl
    rw [Token.spelling, withoutBlanks_cons hq, withoutBlanks_spelling]
  | atom p ts => exact withoutBlanks_atom (h p ts (List.mem_singleton_self _)) ts

theorem spelledOut_spellTokens {ts : List Token} (h : Capitalized ts) :
    SpelledOut (ts.map .token) (withoutBlanks (spellTokens ts)) := by
  induction ts with
  | nil => exact .nil
  | cons t ts ih =>
    have ht : Capitalized [t] := h.mono (by simp)
    have hts : Capitalized ts := h.mono (List.subset_cons_self t ts)
    rw [spellTokens, List.flatMap_cons, withoutBlanks_append, withoutBlanks_token ht]
    exact .cons (Token.spelledAs_spelling ht) (ih hts)

theorem spelledOut_bracketed {f : Formula} (h : Capitalized f.tokens) :
    SpelledOut f.bracketedLexemes (withoutBlanks f.bracketed) := by
  induction f with
  | atom p ts =>
    have hspelled := spelledOut_spellTokens h
    rwa [Formula.tokens, spellTokens, List.flatMap_singleton] at hspelled
  | neg f ih =>
    have hf : Capitalized f.tokens := h.mono (List.subset_cons_self _ _)
    exact .cons (.neg (.inr rfl)) (ih hf)
  | quant q v f ih =>
    have hf : Capitalized f.tokens := h.mono (List.subset_cons_self _ _)
    have hq : isBlank q.pretty = false := by cases q <;> rfl
    rw [Formula.bracketed, withoutBlanks_append, withoutBlanks_cons hq, withoutBlanks_spelling,
      withoutBlanks_space]
    exact .cons (.quant (.inr rfl) v.spelledAs_spelling) (ih hf)
  | bin b l r ihl ihr =>
    have hlr : Capitalized (l.tokens ++ r.tokens) := h.mono (List.subset_cons_self _ _)
    have hl : Capitalized l.tokens := hlr.mono (List.subset_append_left _ _)
    have hr : Capitalized r.tokens := hlr.mono (List.subset_append_right _ _)
    have hb : isBlank b.pretty = false := by cases b <;> rfl
    have hopening : isBlank '(' = false := by decide
    have hclosing : withoutBlanks [')'] = [')'] := by decide
    have hjoined : SpelledOut (l.bracketedLexemes ++ .token (.bin b) :: r.bracketedLexemes)
        (withoutBlanks l.bracketed ++ b.pretty :: withoutBlanks r.bracketed) :=
      (ihl hl).append (.cons (.bin (.inr rfl)) (ihr hr))
    have hopened := SpelledOut.cons .opening hjoined
    simp only [Formula.bracketed, withoutBlanks_append, withoutBlanks_cons hopening,
      withoutBlanks_cons hb, withoutBlanks_space, hclosing]
    exact hopened.append (.cons .closing .nil)

namespace Formula

theorem lexemes_polish {f : Formula} (h : Capitalized f.tokens) :
    lexemes f.polish = .ok (f.tokens.map .token) :=
  lexemes_of_spelledOut (spelledOut_spellTokens h)

theorem lexemes_bracketed {f : Formula} (h : Capitalized f.tokens) :
    lexemes f.bracketed = .ok f.bracketedLexemes :=
  lexemes_of_spelledOut (spelledOut_bracketed h)

/-- A formula whose predicates are capital letters is read back from both of its writings. -/
theorem read_writings {f : Formula} (h : Capitalized f.tokens) :
    read f.polish = .ok f ∧ read f.bracketed = .ok f := by
  constructor
  · exact read_eq_ok.mpr ⟨_, lexemes_polish h, ofLexemes_tokens f⟩
  · have hread : ofLexemes f.bracketedLexemes = .ok f :=
      ofLexemes_of_derives f.derives_bracketedLexemes
    exact read_eq_ok.mpr ⟨_, lexemes_bracketed h, hread⟩

/-- The formula `~@x(Rb12x > ~~#yFy)`. -/
def nested : Formula :=
  let b12 := { Term.candidate 1 with index := 12 }
  let x := Term.candidate 23
  let y := Term.candidate 24
  .neg (.quant .universal x (.bin .impl (.atom 'R' [b12, x])
    (.neg (.neg (.quant .existential y (.atom 'F' [y]))))))

theorem read_nested :
    nested.polish = "~@x>Rb12x~~#yFy".toList ∧ read "~@x>Rb12x~~#yFy".toList = .ok nested ∧
      nested.bracketed = "¬∀x (Rb12x → ¬¬∃y Fy)".toList ∧
      read "¬∀x (Rb12x → ¬¬∃y Fy)".toList = .ok nested := by
  have h : Capitalized nested.tokens := by
    intro p args ha
    have hp : p = 'R' ∨ p = 'F' := by
      simp only [nested, tokens, List.cons_append, List.nil_append, List.mem_cons, reduceCtorEq,
        Token.atom.injEq, List.not_mem_nil, false_or, or_false] at ha
      exact ha.imp And.left And.left
    rcases hp with rfl | rfl <;> decide
  have hpolish : nested.polish = "~@x>Rb12x~~#yFy".toList := by decide
  have hbracketed : nested.bracketed = "¬∀x (Rb12x → ¬¬∃y Fy)".toList := by decide
  obtain ⟨hread, hread'⟩ := read_writings h
  rw [hpolish] at hread
  rw [hbracketed] at hread'
  exact ⟨hpolish, hread, hbracketed, hread'⟩

end Formula

end TruthTrees
