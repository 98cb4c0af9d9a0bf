import Mathlib.Logic.ExistsUnique
import TruthTrees.Proofs.Placement
import TruthTrees.Proofs.Substitution
import TruthTrees.Text.Row

/-!
# Rows are formulae

A row of tokens in Polish notation writes exactly one formula, and no formula is the beginning of
another. The number of tokens of a part is therefore found by counting, whatever stands behind it,
and no work on the row of a formula comes to a position behind its end.
-/

namespace TruthTrees

theorem appendNew_append {α : Type _} [DecidableEq α] (xs ys zs : List α) :
    appendNew xs (ys ++ zs) = appendNew (appendNew xs ys) zs := by
  induction ys generalizing xs with
  | nil => rfl
  | cons y ys ih => exact ih _

/-! ### Counting -/

theorem spanOf_tokens_append (f : Formula) (n : Nat) (rest : List Token) :
    spanOf (n + 1) (f.tokens ++ rest) = f.size + spanOf n rest := by
  induction f generalizing n rest with
  | atom p ts => simp [Formula.tokens, spanOf, Token.arity, Formula.size, Nat.add_comm]
  | neg f ih =>
    simp only [Formula.tokens, List.cons_append, spanOf, Token.arity, Formula.size, ih]
    omega
  | bin b l r ihl ihr =>
    simp only [Formula.tokens, List.cons_append, List.append_assoc, spanOf, Token.arity,
      Formula.size, ihl, ihr]
    omega
  | quant q v f ih =>
    simp only [Formula.tokens, List.cons_append, spanOf, Token.arity, Formula.size, ih]
    omega

theorem span_tokens_append (f : Formula) (rest : List Token) :
    span (f.tokens ++ rest) = f.size := by
  cases rest <;> exact spanOf_tokens_append f 0 _

theorem isPolish_tokens (f : Formula) : isPolish f.tokens := by
  simp [isPolish_iff_isSome]

theorem isPolish_iff_exists {ts : List Token} : isPolish ts ↔ ∃ f : Formula, ts = f.tokens := by
  simp only [isPolish_iff_isSome, Option.isSome_iff_exists, Formula.ofTokens?_eq_some]

theorem exists_tokens_or_refused (ts : List Token) :
    (∃ f : Formula, ts = f.tokens) ∨ (isPolish ts = false ∧ Formula.ofTokens? ts = none) := by
  cases h : Formula.ofTokens? ts with
  | some f => exact .inl ⟨f, Formula.ofTokens?_eq_some.mp h⟩
  | none =>
    refine .inr ⟨?_, rfl⟩
    rw [← Bool.not_eq_true, isPolish_iff_isSome, h]
    simp

theorem Formula.exists_succ_of_size_le {f : Formula} {n : Nat} (h : f.size ≤ n) :
    ∃ m, n = m + 1 := by
  cases n with
  | zero => cases f <;> cases h
  | succ m => exact ⟨m, rfl⟩

namespace Row

theorem before?_tokens_append (f : Formula) (rest : List Token) :
    before? f.size (f.tokens ++ rest) = some f.tokens := by
  simp [before?, ← Formula.length_tokens]

theorem after?_tokens_append (f : Formula) (rest : List Token) :
    after? f.size (f.tokens ++ rest) = some rest := by
  simp [after?, ← Formula.length_tokens]

theorem first?_tokens_append (f : Formula) (rest : List Token) :
    first? (f.tokens ++ rest) = some f.tokens := by
  rw [first?, span_tokens_append, before?_tokens_append]

/-! ### Reading -/

/-- Checking a row is the same as reading the formula and writing it again. -/
theorem filter_isPolish (ts : Option (List Token)) :
    ts.filter isPolish = (ts.bind Formula.ofTokens?).map Formula.tokens := by
  cases ts with
  | none => rfl
  | some ts =>
    rcases exists_tokens_or_refused ts with ⟨f, rfl⟩ | ⟨hpolish, hread⟩
    · simp [isPolish_tokens]
    · simp [hpolish, hread]

theorem ofLexemes_eq (ls : List Lexeme) :
    ofLexemes ls = (Formula.ofLexemes ls).map Formula.tokens := by
  unfold ofLexemes Formula.ofLexemes
  rw [filter_isPolish]
  cases (unbracketed? ls).bind Formula.ofTokens? with
  | some f => rfl
  | none =>
    unfold Formula.ofBracketed
    cases toPolish ls with
    | error fault => rfl
    | ok ts =>
      rcases exists_tokens_or_refused ts with ⟨f, rfl⟩ | ⟨hpolish, hread⟩
      · simp [bind, Except.bind, pure, Except.pure, Except.map, isPolish_tokens]
      · simp [bind, Except.bind, throw, throwThe, MonadExceptOf.throw, Except.map, hpolish, hread]

theorem ofTokens_eq (ts : List Token) : ofTokens ts = (Formula.ofTokens ts).map Formula.tokens :=
  ofLexemes_eq _

theorem read_eq (text : List Char) : read text = (Formula.read text).map Formula.tokens := by
  unfold read Formula.read
  cases lexemes text with
  | error fault => rfl
  | ok ls => exact ofLexemes_eq ls

/-! ### Parts -/

theorem parts?_tokens (f : Formula) :
    ∃ t us, parts? f.tokens = some (t, us) ∧ t :: us.flatten = f.tokens ∧ us.length = t.arity ∧
      (∀ u ∈ us, isPolish u) ∧ f.majorToken? = (if us = [] then none else some t) ∧
      f.operands.map Formula.tokens = if us = [] then [f.tokens] else us := by
  cases f with
  | atom p ts => exact ⟨_, _, rfl, rfl, rfl, by simp, rfl, rfl⟩
  | neg f =>
    refine ⟨.neg, [f.tokens], rfl, ?_, rfl, ?_, rfl, rfl⟩
    · simp [Formula.tokens]
    · simp [isPolish_tokens]
  | quant q v f =>
    refine ⟨.quant q v, [f.tokens], rfl, ?_, rfl, ?_, rfl, rfl⟩
    · simp [Formula.tokens]
    · simp [isPolish_tokens]
  | bin b l r =>
    refine ⟨.bin b, [l.tokens, r.tokens], ?_, ?_, rfl, ?_, rfl, rfl⟩
    · simp [Formula.tokens, parts?, span_tokens_append, before?_tokens_append,
        after?_tokens_append]
    · simp [Formula.tokens]
    · simp [isPolish_tokens]

/-! ### Passes -/

namespace Pass

variable {σ : Type}

/-- The work of a pass, done on the formula. -/
def on (p : Pass σ) : Formula → σ → σ
  | .atom q ts, s => p.atom q ts s
  | .neg f, s => p.leave .neg (p.on f (p.enter .neg s))
  | .bin b l r, s => p.leave (.bin b) (p.on r (p.between b (p.on l (p.enter (.bin b) s))))
  | .quant q v f, s => p.leave (.quant q v) (p.on f (p.enter (.quant q v) s))

/-- A pass takes the tokens of the first formula, whatever stands behind them. -/
theorem run?_tokens_append (p : Pass σ) {f : Formula} {depth : Nat} (h : f.size ≤ depth)
    (rest : List Token) (s : σ) :
    p.run? depth (f.tokens ++ rest) s = some (p.on f s, f.size) := by
  induction f generalizing depth rest s with
  | atom q ts =>
    obtain ⟨depth, rfl⟩ := Formula.exists_succ_of_size_le h
    rfl
  | neg f ih =>
    obtain ⟨depth, rfl⟩ := Formula.exists_succ_of_size_le h
    have hf := ih (Nat.le_of_succ_le_succ h) rest (p.enter .neg s)
    simp [Formula.tokens, run?, hf, on, Formula.size]
  | bin b l r ihl ihr =>
    obtain ⟨depth, rfl⟩ := Formula.exists_succ_of_size_le h
    simp only [Formula.size] at h
    have hl : l.size ≤ depth := by omega
    have hr : r.size ≤ depth := by omega
    simp [Formula.tokens, run?, ihl hl, ihr hr, after?_tokens_append, on, Formula.size]
  | quant q v f ih =>
    obtain ⟨depth, rfl⟩ := Formula.exists_succ_of_size_le h
    have hf := ih (Nat.le_of_succ_le_succ h) rest (p.enter (.quant q v) s)
    simp [Formula.tokens, run?, hf, on, Formula.size]

theorem run?_tokens (p : Pass σ) (f : Formula) (s : σ) :
    p.run? f.size f.tokens s = some (p.on f s, f.size) := by
  have h := p.run?_tokens_append (Nat.le_refl f.size) [] s
  rwa [List.append_nil] at h

end Pass

theorem freeTerms_on (f : Formula) (s : Scope) :
    freeTerms.on f s =
      { s with found := appendNew s.found (f.freeOccurrences.filter (· ∉ s.bound)) } := by
  induction f generalizing s with
  | atom p ts => rfl
  | neg f ih => exact ih s
  | bin b l r ihl ihr =>
    simp only [Pass.on, ihl, ihr]
    simp [freeTerms, Formula.freeOccurrences, appendNew_append]
  | quant q v f ih =>
    simp only [Pass.on, ih]
    simp [freeTerms, Formula.freeOccurrences, Bool.and_comm]

theorem brackets_on (f : Formula) (text : List Char) :
    brackets.on f text = text ++ f.bracketed := by
  induction f generalizing text with
  | atom p ts => rfl
  | neg f ih =>
    simp only [Pass.on, ih]
    simp [brackets, Formula.bracketed]
  | bin b l r ihl ihr =>
    simp only [Pass.on, ihl, ihr]
    simp [brackets, Formula.bracketed]
  | quant q v f ih =>
    simp only [Pass.on, ih]
    simp [brackets, Formula.bracketed]

theorem constants?_tokens (f : Formula) : constants? f.tokens = some f.constants := by
  have hall : f.freeOccurrences.filter (· ∉ ({} : Scope).bound) = f.freeOccurrences :=
    List.filter_eq_self.mpr fun _ _ => rfl
  simp only [constants?, Formula.length_tokens, Pass.run?_tokens, freeTerms_on, hall,
    Option.map_some]
  rfl

theorem bracketed?_tokens (f : Formula) : bracketed? f.tokens = some f.bracketed := by
  simp only [bracketed?, Formula.length_tokens, Pass.run?_tokens, brackets_on, Option.map_some,
    List.nil_append]

/-! ### Substitution -/

theorem flatMap_terms_tokens (f : Formula) : f.tokens.flatMap Token.terms = f.occurrences := by
  induction f with
  | atom p ts => simp [Formula.tokens, Token.terms, Formula.occurrences]
  | neg f ih => simpa [Formula.tokens, Token.terms, Formula.occurrences] using ih
  | bin b l r ihl ihr => simp [Formula.tokens, Token.terms, Formula.occurrences, ihl, ihr]
  | quant q v f ih => simp [Formula.tokens, Token.terms, Formula.occurrences, ih]

theorem first?_quant (q : Quantifier) (v : Term) (f : Formula) (rest : List Token) :
    first? (.quant q v :: (f.tokens ++ rest)) = some (.quant q v :: f.tokens) ∧
      span (.quant q v :: (f.tokens ++ rest)) = f.size + 1 ∧
      after? 1 (.quant q v :: f.tokens) = some f.tokens :=
  ⟨first?_tokens_append (.quant q v f) rest, span_tokens_append (.quant q v f) rest,
    by simp [after?]⟩

section Substitution

variable {x c : Term} {depth : Nat} {rest : List Token}

theorem substituteFirst?_neg {f g : Formula} {l : Nat}
    (h : substituteFirst? depth x c (f.tokens ++ rest) = some (g.tokens, l)) :
    substituteFirst? (depth + 1) x c ((Formula.neg f).tokens ++ rest) =
      some ((Formula.neg g).tokens, l + 1) := by
  simp [Formula.tokens, substituteFirst?, h]

theorem substituteFirst?_bin {b : Connective} {l r l' r' : Formula}
    (hl : substituteFirst? depth x c (l.tokens ++ (r.tokens ++ rest)) = some (l'.tokens, l.size))
    (hr : substituteFirst? depth x c (r.tokens ++ rest) = some (r'.tokens, r.size)) :
    substituteFirst? (depth + 1) x c ((Formula.bin b l r).tokens ++ rest) =
      some ((Formula.bin b l' r').tokens, (Formula.bin b l r).size) := by
  simp [Formula.tokens, substituteFirst?, hl, hr, after?_tokens_append, Formula.size]

variable {q : Quantifier} {v : Term} {f : Formula}

theorem substituteFirst?_quant {g : Formula} {l : Nat} (hvx : v ≠ x) (hvc : v ≠ c)
    (h : substituteFirst? depth x c (f.tokens ++ rest) = some (g.tokens, l)) :
    substituteFirst? (depth + 1) x c ((Formula.quant q v f).tokens ++ rest) =
      some ((Formula.quant q v g).tokens, l + 1) := by
  simp [Formula.tokens, substituteFirst?, h, hvx, hvc]

theorem substituteFirst?_quant_kept (h : v = x ∨ (v = c ∧ x ∉ f.constants)) :
    substituteFirst? (depth + 1) x c ((Formula.quant q v f).tokens ++ rest) =
      some ((Formula.quant q v f).tokens, f.size + 1) := by
  obtain ⟨hfirst, hspan, hrange⟩ := first?_quant q v f rest
  rcases h with rfl | ⟨rfl, hx⟩
  · simp [Formula.tokens, substituteFirst?, hfirst, hspan]
  · simp [Formula.tokens, substituteFirst?, hfirst, hspan, hrange, constants?_tokens,
      Formula.mem_constants.not.mp hx]

theorem substituteFirst?_quant_renamed {g g' : Formula} {l l' : Nat} (hcx : c ≠ x)
    (hx : x ∈ f.constants)
    (h : substituteFirst? depth c (Formula.newVariable x c f) f.tokens = some (g.tokens, l))
    (h' : substituteFirst? depth x c g.tokens = some (g'.tokens, l')) :
    substituteFirst? (depth + 1) x c ((Formula.quant q c f).tokens ++ rest) =
      some ((Formula.quant q (Formula.newVariable x c f) g').tokens, f.size + 1) := by
  obtain ⟨hfirst, hspan, hrange⟩ := first?_quant q c f rest
  simp only [Formula.newVariable] at h ⊢
  simp [Formula.tokens, substituteFirst?, hcx, hfirst, hspan, hrange, constants?_tokens,
    Formula.mem_constants.mp hx, flatMap_terms_tokens, h, h']

end Substitution

/-- Substitution finds all tokens of the first formula in the row, and the result is a formula of
the same size, even if there are no terms left for new variables. -/
theorem exists_substituteFirst? {f : Formula} {depth : Nat} (h : f.size ≤ depth) (x c : Term)
    (rest : List Token) :
    ∃ g : Formula, g.size = f.size ∧
      substituteFirst? depth x c (f.tokens ++ rest) = some (g.tokens, f.size) := by
  induction depth generalizing f x c rest with
  | zero => cases f <;> cases h
  | succ depth ih =>
    cases f with
    | atom p ts => exact ⟨.atom p (replaceTerm x c ts), rfl, rfl⟩
    | neg f =>
      obtain ⟨g, hsize, hg⟩ := ih (Nat.le_of_succ_le_succ h) x c rest
      exact ⟨.neg g, by simp [Formula.size, hsize], substituteFirst?_neg hg⟩
    | bin b l r =>
      simp only [Formula.size] at h
      obtain ⟨l', hsizel, hl⟩ := ih (f := l) (by omega) x c (r.tokens ++ rest)
      obtain ⟨r', hsizer, hr⟩ := ih (f := r) (by omega) x c rest
      exact ⟨.bin b l' r', by simp [Formula.size, hsizel, hsizer], substituteFirst?_bin hl hr⟩
    | quant q v f =>
      have hf : f.size ≤ depth := Nat.le_of_succ_le_succ h
      by_cases hkept : v = x ∨ (v = c ∧ x ∉ f.constants)
      · exact ⟨.quant q v f, rfl, substituteFirst?_quant_kept hkept⟩
      · simp only [not_or, not_and, not_not] at hkept
        obtain ⟨hvx, hx⟩ := hkept
        by_cases hvc : v = c
        · subst hvc
          -- the range keeps its size when its variable is renamed, so the bound still holds
          obtain ⟨g, hsize, hg⟩ := ih hf v (Formula.newVariable x v f) []
          obtain ⟨g', hsize', hg'⟩ := ih (hsize ▸ hf) x v []
          rw [List.append_nil] at hg hg'
          exact ⟨.quant q (Formula.newVariable x v f) g', by simp [Formula.size, hsize, hsize'],
            substituteFirst?_quant_renamed hvx (hx rfl) hg hg'⟩
        · obtain ⟨g, hsize, hg⟩ := ih hf x c rest
          exact ⟨.quant q v g, by simp [Formula.size, hsize], substituteFirst?_quant hvx hvc hg⟩

/-- A term that does not occur in the formula can be put in without new variables. -/
theorem substituteFirst?_eq_rename {f : Formula} {depth : Nat} (h : f.size ≤ depth) {x c : Term}
    (hc : c = x ∨ c ∉ f.occurrences) (rest : List Token) :
    substituteFirst? depth x c (f.tokens ++ rest) = some ((f.rename x c).tokens, f.size) := by
  induction f generalizing depth rest with
  | atom p ts =>
    obtain ⟨depth, rfl⟩ := Formula.exists_succ_of_size_le h
    rfl
  | neg f ih =>
    obtain ⟨depth, rfl⟩ := Formula.exists_succ_of_size_le h
    exact substituteFirst?_neg (ih (Nat.le_of_succ_le_succ h) hc rest)
  | bin b l r ihl ihr =>
    obtain ⟨depth, rfl⟩ := Formula.exists_succ_of_size_le h
    simp only [Formula.size] at h
    simp only [Formula.occurrences, List.mem_append, not_or] at hc
    exact substituteFirst?_bin (ihl (by omega) (hc.imp_right And.left) _)
      (ihr (by omega) (hc.imp_right And.right) rest)
  | quant q v f ih =>
    obtain ⟨depth, rfl⟩ := Formula.exists_succ_of_size_le h
    simp only [Formula.occurrences, List.mem_cons, not_or] at hc
    unfold Formula.rename
    split_ifs with hvx
    · exact substituteFirst?_quant_kept (.inl hvx)
    · have hvc : v ≠ c := by
        rcases hc with rfl | hc
        · exact hvx
        · exact Ne.symm hc.1
      exact substituteFirst?_quant hvx hvc
        (ih (Nat.le_of_succ_le_succ h) (hc.imp_right And.right) rest)

theorem substituteFirst?_rename {f : Formula} {depth : Nat} (h : f.size ≤ depth)
    {x c newName : Term} (hxc : x ≠ c) (hn : f.CanRename x c newName) (hroom : f.Roomy x c)
    (rest : List Token) :
    substituteFirst? depth x c ((f.rename c newName).tokens ++ rest) =
      some ((f.substituteUnder x c newName).tokens, f.size) := by
  induction f generalizing depth newName rest with
  | atom p ts =>
    obtain ⟨depth, rfl⟩ := Formula.exists_succ_of_size_le h
    rfl
  | neg f ih =>
    obtain ⟨depth, rfl⟩ := Formula.exists_succ_of_size_le h
    exact substituteFirst?_neg (ih (Nat.le_of_succ_le_succ h) hn hroom rest)
  | bin b l r ihl ihr =>
    obtain ⟨depth, rfl⟩ := Formula.exists_succ_of_size_le h
    simp only [Formula.size] at h
    have hlsize : l.size ≤ depth := by omega
    have hrsize : r.size ≤ depth := by omega
    have hl := ihl hlsize (hn.of_subset (List.subset_append_left _ _)) hroom.left
      ((r.rename c newName).tokens ++ rest)
    have hr := ihr hrsize (hn.of_subset (List.subset_append_right _ _)) hroom.right rest
    rw [← Formula.size_rename c newName l] at hl
    rw [← Formula.size_rename c newName r] at hr
    have hbin := substituteFirst?_bin (b := b) hl hr
    rwa [Formula.size, Formula.size_rename, Formula.size_rename] at hbin
  | quant q v f ih =>
    obtain ⟨depth, rfl⟩ := Formula.exists_succ_of_size_le h
    have hf : f.size ≤ depth := Nat.le_of_succ_le_succ h
    have hsub : f.occurrences ⊆ (Formula.quant q v f).occurrences := List.subset_cons_self _ _
    unfold Formula.rename Formula.substituteUnder
    by_cases hvc : v = c
    · subst hvc
      rw [if_pos rfl, if_neg (Ne.symm hxc), if_pos rfl]
      split_ifs with hx
      · obtain ⟨hnew, hnewx, hnewc⟩ := hroom.body.newVariable_spec
        have hrenamed := substituteFirst?_eq_rename hf (x := v) (.inr hnew) []
        have hbody := ih hf (.inr ⟨hnew, hnewx, hnewc⟩) hroom.body []
        rw [List.append_nil] at hrenamed hbody
        exact substituteFirst?_quant_renamed (Ne.symm hxc) hx hrenamed hbody
      · exact substituteFirst?_quant_kept (.inr ⟨rfl, hx⟩)
    · rw [if_neg hvc, if_neg hvc]
      split_ifs with hvx
      · rw [← Formula.size_rename c newName (.quant q v f), Formula.rename, if_neg hvc]
        exact substituteFirst?_quant_kept (.inl hvx)
      · exact substituteFirst?_quant hvx hvc (ih hf (hn.of_subset hsub) hroom.body rest)

theorem substituteFirst?_tokens {f : Formula} {x c : Term} (hroom : f.Roomy x c) :
    substituteFirst? f.size x c f.tokens = some ((f.substitute x c).tokens, f.size) := by
  by_cases hxc : x = c
  · subst hxc
    have hself := substituteFirst?_eq_rename (Nat.le_refl f.size) (x := x) (.inl rfl) []
    rw [f.substitute_self]
    rwa [List.append_nil, Formula.rename_self] at hself
  · have hrename := substituteFirst?_rename (Nat.le_refl f.size) hxc (.inl rfl) hroom []
    rwa [List.append_nil, Formula.rename_self] at hrename

/-- Substitution in a row of a formula gives a row of a formula, and the right one as long as there
is a term left for new variables. -/
theorem exists_substitute? (f : Formula) (x c : Term) :
    ∃ us, substitute? x c f.tokens = some us ∧ isPolish us ∧
      (f.Roomy x c → us = (f.substitute x c).tokens) := by
  obtain ⟨g, -, hg⟩ := exists_substituteFirst? (Nat.le_refl f.size) x c []
  rw [List.append_nil] at hg
  refine ⟨g.tokens, by simp [substitute?, hg], isPolish_tokens g, ?_⟩
  intro hroom
  rw [substituteFirst?_tokens hroom] at hg
  exact (Prod.mk.inj (Option.some.inj hg)).1.symm

/-! ### All work on rows -/

/-- The rows in Polish notation are the writings of the formulae, each of exactly one, and the first
formula of a row is found whatever stands behind it. Rows are read, negated, quantified, taken apart
and substituted in as formulae are: the work always has a result, so that no position lies behind
the end of a row, and the result is again a row in Polish notation. -/
theorem rows_are_formulae :
    (∀ ts, isPolish ts ↔ ∃! f : Formula, f.tokens = ts) ∧
    (∀ (f : Formula) (rest : List Token), span (f.tokens ++ rest) = f.tokens.length) ∧
    (∀ text, read text = (Formula.read text).map Formula.tokens ∧
      ∀ ts, read text = .ok ts → isPolish ts) ∧
    (∀ us, ofTokens us = (Formula.ofTokens us).map Formula.tokens ∧
      ∀ ts, ofTokens us = .ok ts → isPolish ts) ∧
    ∀ f : Formula,
      isPolish (.neg :: f.tokens) ∧ (∀ q v, isPolish (.quant q v :: f.tokens)) ∧
      (∃ t us, parts? f.tokens = some (t, us) ∧ t :: us.flatten = f.tokens ∧
        us.length = t.arity ∧ (∀ u ∈ us, isPolish u) ∧
        f.majorToken? = (if us = [] then none else some t) ∧
        f.operands.map Formula.tokens = if us = [] then [f.tokens] else us) ∧
      constants? f.tokens = some f.constants ∧
      bracketed? f.tokens = some f.bracketed ∧
      ∀ x c, ∃ us, substitute? x c f.tokens = some us ∧ isPolish us ∧
        (f.Roomy x c → us = (f.substitute x c).tokens) := by
  have hmap : ∀ {r : Except Fault Formula} {ts}, r.map Formula.tokens = .ok ts → isPolish ts := by
    intro r ts h
    cases r with
    | error fault => cases h
    | ok f =>
      cases h
      exact isPolish_tokens f
  refine ⟨?_, ?_, ?_, ?_, ?_⟩
  · intro ts
    rw [isPolish_iff_exists]
    constructor
    · rintro ⟨f, rfl⟩
      exact ⟨f, rfl, fun g hg => Formula.tokens_injective hg⟩
    · rintro ⟨f, hf, -⟩
      exact ⟨f, hf.symm⟩
  · intro f rest
    rw [span_tokens_append, Formula.length_tokens]
  · intro text
    exact ⟨read_eq text, fun ts hts => hmap (read_eq text ▸ hts)⟩
  · intro us
    exact ⟨ofTokens_eq us, fun ts hts => hmap (ofTokens_eq us ▸ hts)⟩
  · intro f
    exact ⟨isPolish_tokens (.neg f), fun q v => isPolish_tokens (.quant q v f), parts?_tokens f,
      constants?_tokens f, bracketed?_tokens f, exists_substitute? f⟩

/-- The row of `#y(Rxy & @y~Rxy)`, from reading it to putting `y` in place of `x`. -/
theorem rows_are_formulae_shadowed :
    let x := Term.candidate 23
    let y := Term.candidate 24
    let row := Formula.shadowed.tokens
    read "#y(Rxy & @y~Rxy)".toList = .ok row ∧ isPolish row ∧ span (row ++ row) = 6 ∧
      (∃ us, parts? row = some (.quant .existential y, us) ∧ ∀ u ∈ us, isPolish u) ∧
      constants? row = some [x] ∧ bracketed? row = some "∃y (Rxy ∧ ∀y ¬Rxy)".toList ∧
      Formula.shadowed.Roomy x y ∧
      substitute? x y row = some (Formula.shadowed.substitute x y).tokens := by
  intro x y row
  obtain ⟨-, hspan, hread, -, hrow⟩ := rows_are_formulae
  obtain ⟨-, -, ⟨t, us, hparts, hcut, -, hus, -⟩, hconstants, hbracketed, hsubstitute⟩ :=
    hrow Formula.shadowed
  have htext : read "#y(Rxy & @y~Rxy)".toList = .ok row := by
    rw [(hread _).1]
    rfl
  have ht : t = .quant .existential y := (List.cons.inj hcut).1
  have hroom : Formula.shadowed.Roomy x y := by
    unfold Formula.Roomy
    decide +kernel
  obtain ⟨vs, hvs, -, heq⟩ := hsubstitute x y
  refine ⟨htext, (hread _).2 row htext, ?_, ⟨us, ht ▸ hparts, hus⟩, ?_, ?_, hroom, ?_⟩
  · rw [hspan]
    rfl
  · rw [hconstants]
    rfl
  · rw [hbracketed]
    rfl
  · rw [hvs, heq hroom]

end Row

end TruthTrees
