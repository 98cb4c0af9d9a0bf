import TruthTrees.Text.Grammar
import TruthTrees.Text.Reading

/-!
# From bracketed to Polish notation

The pass from right to left turns a phrase of the grammar into the tokens of its formula, some of
which still wait. The operators that wait belong to the phrase: they are unary or of no higher rank
than the phrase. A phrase never completes an operator that waits to its right, because in a
derivation that one is a connective which binds no tighter than the phrase.
-/

namespace TruthTrees

namespace Token

/-- Operators that may wait when a phrase of the given rank has been passed. -/
def WaitsIn (rank : Nat) (t : Token) : Prop :=
  t.isUnary ∨ ∃ b, t = bin b ∧ b.rank ≤ rank

def isAtom : Token → Bool
  | atom _ _ => true
  | _ => false

theorem arity_ne_zero_of_isUnary {t : Token} (h : t.isUnary) : t.arity ≠ 0 := by
  cases t with
  | neg => decide
  | quant q v => exact Nat.one_ne_zero
  | bin b => cases h
  | atom p ts => cases h

theorem rank_le_two_of_isUnary {t : Token} (h : t.isUnary) : t.rank ≤ 2 := by
  cases t with
  | neg => decide
  | quant q v => exact Nat.le_refl 2
  | bin b => cases h
  | atom p ts => cases h

theorem WaitsIn.isUnary {t : Token} (h : t.WaitsIn 0) : t.isUnary := by
  rcases h with h | ⟨b, -, hb⟩
  · exact h
  · exact absurd b.two_lt_rank (by omega)

theorem WaitsIn.mono {t : Token} {m n : Nat} (h : t.WaitsIn m) (hmn : m ≤ n) : t.WaitsIn n :=
  h.imp_right fun ⟨b, hb, hrank⟩ => ⟨b, hb, Nat.le_trans hrank hmn⟩

end Token

namespace Conversion

theorem completes_of_isUnary {t v : Token} (ht : t.isUnary) (hv : v.isUnary) : completes t v := by
  simp [completes, ht, hv]

theorem completes_bin_of_waitsIn {b : Connective} {n : Nat} (hn : n < b.rank) {v : Token}
    (hv : v.WaitsIn n) : completes (.bin b) v := by
  have hlt : v.rank < (Token.bin b).rank := by
    rcases hv with hv | ⟨c, rfl, hc⟩
    · exact Nat.lt_of_le_of_lt (Token.rank_le_two_of_isUnary hv) b.two_lt_rank
    · exact Nat.lt_of_le_of_lt hc hn
  simp [completes, hlt]

theorem completes_bin_eq_false {t : Token} {b : Connective} (h : t.rank ≤ b.rank) :
    completes t (.bin b) = false := by
  simp only [completes, Token.rank, Token.isUnary, Bool.false_and, Bool.or_false]
  exact decide_eq_false (Nat.not_lt_of_le h)

/-- The state of the pass after the lexemes, if it was `s` before them. -/
def run? (ls : List Lexeme) (s : Conversion) : Option Conversion :=
  ls.foldr (fun lexeme s => s.bind (next? lexeme)) (some s)

@[simp] theorem run?_cons (l : Lexeme) (ls : List Lexeme) (s : Conversion) :
    run? (l :: ls) s = (run? ls s).bind (next? l) := rfl

theorem run?_append (ls rs : List Lexeme) (s : Conversion) :
    run? (ls ++ rs) s = (run? rs s).bind (run? ls) := by
  induction ls with
  | nil => exact (Option.bind_fun_some _).symm
  | cons l ls ih =>
    simp only [List.cons_append, run?_cons, ih, Option.bind_assoc]
    rfl

theorem toPolish?_eq (ls : List Lexeme) : toPolish? ls = (run? ls start).bind finish? := rfl

/-- The tokens that the pass has met, in no particular order. -/
def tokens (s : Conversion) : List Token :=
  s.output ++ s.waiting ++ s.outer.flatten

/-- What the pass does with a lexeme. An operator completes some of those that wait, and a bracket
begins or ends a list of them. -/
theorem next?_cases {l : Lexeme} {s s' : Conversion} (h : next? l s = some s') :
    (l = .closing ∧ s' = ⟨s.output, [], s.waiting :: s.outer⟩) ∨
    (∃ waiting outer, l = .opening ∧ s.outer = waiting :: outer ∧
      s' = ⟨s.waiting.reverse ++ s.output, waiting, outer⟩) ∨
    (∃ t : Token, l = .token t ∧ t.isAtom = true ∧ s' = ⟨t :: s.output, s.waiting, s.outer⟩) ∨
    ∃ t : Token, l = .token t ∧ t.isAtom = false ∧
      s' = ⟨(s.waiting.takeWhile (completes t)).reverse ++ s.output,
        t :: s.waiting.dropWhile (completes t), s.outer⟩ := by
  cases l with
  | closing =>
    cases h
    exact .inl ⟨rfl, rfl⟩
  | opening =>
    unfold next? at h
    dsimp only at h
    split at h
    · cases h
    · next waiting outer houter =>
      cases h
      exact .inr (.inl ⟨waiting, outer, rfl, houter, rfl⟩)
  | token t =>
    cases t with
    | atom p args =>
      cases h
      exact .inr (.inr (.inl ⟨_, rfl, rfl, rfl⟩))
    | neg =>
      cases h
      exact .inr (.inr (.inr ⟨_, rfl, rfl, rfl⟩))
    | bin b =>
      cases h
      exact .inr (.inr (.inr ⟨_, rfl, rfl, rfl⟩))
    | quant q v =>
      cases h
      exact .inr (.inr (.inr ⟨_, rfl, rfl, rfl⟩))

theorem perm_next? {l : Lexeme} {s s' : Conversion} (h : next? l s = some s') :
    s'.tokens.Perm (l.token?.toList ++ s.tokens) := by
  rw [List.perm_iff_count]
  intro a
  rcases next?_cases h with ⟨rfl, rfl⟩ | ⟨waiting, outer, rfl, houter, rfl⟩ | ⟨t, rfl, -, rfl⟩ |
    ⟨t, rfl, -, rfl⟩
  · simp [tokens, Lexeme.token?]
  · simp only [tokens, houter, Lexeme.token?, Option.toList_none, List.nil_append,
      List.flatten_cons, List.count_append, List.count_reverse]
    omega
  · rfl
  · -- some of the waiting operators move, in reverse order, to the output
    have hsplit : (s.waiting.takeWhile (completes t)).count a +
        (s.waiting.dropWhile (completes t)).count a = s.waiting.count a := by
      rw [← List.count_append, List.takeWhile_append_dropWhile]
    simp only [tokens, Lexeme.token?, Option.toList_some, List.singleton_append, List.count_append,
      List.count_reverse, List.count_cons]
    omega

theorem perm_run? {ls : List Lexeme} {s s' : Conversion} (h : run? ls s = some s') :
    s'.tokens.Perm (ls.filterMap Lexeme.token? ++ s.tokens) := by
  induction ls generalizing s' with
  | nil =>
    cases h
    exact .refl _
  | cons l ls ih =>
    obtain ⟨r, hr, hs'⟩ := Option.bind_eq_some_iff.mp h
    have hl := (perm_next? hs').trans ((ih hr).append_left l.token?.toList)
    cases l <;> exact hl

theorem perm_of_toPolish? {ls : List Lexeme} {ts : List Token} (h : toPolish? ls = some ts) :
    ts.Perm (ls.filterMap Lexeme.token?) := by
  obtain ⟨s, hs, hts⟩ := Option.bind_eq_some_iff.mp h
  have hperm := perm_run? hs
  unfold finish? at hts
  split at hts
  · next houter =>
    cases hts
    simp only [tokens, start, houter, List.flatten_nil, List.append_nil] at hperm
    exact (List.perm_append_comm.trans ((List.reverse_perm _).append_left _)).trans hperm
  · cases hts

/-- An operator completes the waiting ones up to the first that it does not complete. -/
theorem next?_operator {t : Token} (ht : t.arity ≠ 0) (out : List Token) {vs ws : List Token}
    (outer : List (List Token)) (hvs : ∀ v ∈ vs, completes t v)
    (hws : ∀ w ∈ ws.head?, completes t w = false) :
    next? (.token t) ⟨out, vs ++ ws, outer⟩ = some ⟨vs.reverse ++ out, t :: ws, outer⟩ := by
  have htake : ws.takeWhile (completes t) = [] ∧ ws.dropWhile (completes t) = ws := by
    cases ws with
    | nil => exact ⟨rfl, rfl⟩
    | cons w ws =>
      have hw : completes t w = false := hws w rfl
      simp [hw]
  cases t with
  | atom p ts => exact absurd rfl ht
  | neg => simp [next?, List.takeWhile_append_of_pos hvs, List.dropWhile_append_of_pos hvs, htake]
  | bin b => simp [next?, List.takeWhile_append_of_pos hvs, List.dropWhile_append_of_pos hvs, htake]
  | quant q v =>
    simp [next?, List.takeWhile_append_of_pos hvs, List.dropWhile_append_of_pos hvs, htake]

/-- A phrase of the given rank may stand to the left: the operator that has waited for the shortest
time is a connective that binds no tighter. -/
def Admits (rank : Nat) (s : Conversion) : Prop :=
  ∀ w ∈ s.waiting.head?, ∃ b, w = .bin b ∧ rank ≤ b.rank

theorem Admits.mono {m n : Nat} {s : Conversion} (h : s.Admits n) (hmn : m ≤ n) : s.Admits m := by
  intro w hw
  obtain ⟨b, hb, hrank⟩ := h w hw
  exact ⟨b, hb, Nat.le_trans hmn hrank⟩

/-- The lexemes put the tokens in front of the output, except for some operators that wait. -/
def Writes (rank : Nat) (ls : List Lexeme) (ts : List Token) (s : Conversion) : Prop :=
  ∃ out vs, run? ls s = some ⟨out, vs ++ s.waiting, s.outer⟩ ∧
    vs.reverse ++ out = ts ++ s.output ∧ ∀ v ∈ vs, v.WaitsIn rank

/-! ### One sign of a phrase -/

theorem writes_unary {t : Token} (ht : t.isUnary) {ls : List Lexeme} {ts : List Token}
    {s : Conversion} (hs : s.Admits 0) (h : Writes 0 ls ts s) :
    Writes 0 (.token t :: ls) (t :: ts) s := by
  obtain ⟨out, vs, hrun, hout, hvs⟩ := h
  have hstop : ∀ w ∈ s.waiting.head?, completes t w = false := by
    intro w hw
    obtain ⟨b, rfl, -⟩ := hs w hw
    have hle := Token.rank_le_two_of_isUnary ht
    exact completes_bin_eq_false (Nat.le_trans hle (Nat.le_of_lt b.two_lt_rank))
  have hnext := next?_operator (Token.arity_ne_zero_of_isUnary ht) out s.outer
    (fun v hv => completes_of_isUnary ht (hvs v hv).isUnary) hstop
  refine ⟨vs.reverse ++ out, [t], ?_, ?_, ?_⟩
  · rw [run?_cons, hrun, Option.bind_some, hnext]
    rfl
  · simp [hout]
  · intro v hv
    rw [List.mem_singleton.mp hv]
    exact .inl ht

/-- A pair of brackets lets nothing wait that stands between them. -/
theorem writes_brackets {rank : Nat} {ls : List Lexeme} {ts : List Token} {s : Conversion}
    (h : Writes rank ls ts ⟨s.output, [], s.waiting :: s.outer⟩) :
    Writes 0 (.opening :: ls ++ [.closing]) ts s := by
  obtain ⟨out, vs, hrun, hout, -⟩ := h
  refine ⟨ts ++ s.output, [], ?_, rfl, ?_⟩
  · have hclosing : run? [.closing] s = some ⟨s.output, [], s.waiting :: s.outer⟩ := rfl
    rw [run?_append, hclosing, Option.bind_some, run?_cons, hrun, Option.bind_some]
    simp only [next?, List.append_nil, List.nil_append]
    rw [hout]
  · intro v hv
    cases hv

/-- A connective completes what waits of the phrase to its right, and then waits itself for the
phrase to its left. -/
theorem writes_bin {b : Connective} {m n : Nat} (hm : m ≤ b.rank) (hn : n < b.rank)
    {ls rs : List Lexeme} {lts rts : List Token} {s : Conversion} (hs : s.Admits b.rank)
    (hr : Writes n rs rts s)
    (hl : Writes m ls lts ⟨rts ++ s.output, .bin b :: s.waiting, s.outer⟩) :
    Writes b.rank (ls ++ .token (.bin b) :: rs) (.bin b :: (lts ++ rts)) s := by
  obtain ⟨rout, us, hrrun, hrout, hus⟩ := hr
  obtain ⟨lout, vs, hlrun, hlout, hvs⟩ := hl
  have hstop : ∀ w ∈ s.waiting.head?, completes (.bin b) w = false := by
    intro w hw
    obtain ⟨c, rfl, hc⟩ := hs w hw
    exact completes_bin_eq_false hc
  have hnext := next?_operator (t := .bin b) (Nat.succ_ne_zero 1) rout s.outer
    (fun v hv => completes_bin_of_waitsIn hn (hus v hv)) hstop
  rw [hrout] at hnext
  refine ⟨lout, vs ++ [.bin b], ?_, ?_, ?_⟩
  · rw [run?_append, run?_cons, hrrun, Option.bind_some, hnext, Option.bind_some, hlrun]
    simp
  · rw [List.reverse_append, List.append_assoc, hlout]
    simp
  · intro v hv
    rcases List.mem_append.mp hv with hv | hv
    · exact (hvs v hv).mono hm
    · rw [List.mem_singleton.mp hv]
      exact .inr ⟨b, rfl, Nat.le_refl _⟩

/-! ### Whole phrases -/

theorem writes_of_derives {rank : Nat} {ls : List Lexeme} {f : Formula} (h : Derives rank ls f)
    {s : Conversion} (hs : s.Admits rank) : Writes rank ls f.tokens s := by
  induction h generalizing s with
  | atom p ts =>
    refine ⟨.atom p ts :: s.output, [], rfl, rfl, ?_⟩
    intro v hv
    cases hv
  | neg _ ih => exact writes_unary rfl hs (ih hs)
  | quant q v _ ih => exact writes_unary rfl hs (ih hs)
  | brackets _ ih =>
    refine writes_brackets (ih ?_)
    intro w hw
    cases hw
  | bin b _ hm _ hn ihl ihr =>
    refine writes_bin hm hn hs (ihr (hs.mono (Nat.le_of_lt hn))) (ihl ?_)
    intro w hw
    cases hw
    exact ⟨b, rfl, hm⟩

end Conversion

theorem toPolish?_of_derives {rank : Nat} {ls : List Lexeme} {f : Formula}
    (h : Derives rank ls f) : toPolish? ls = some f.tokens := by
  have hstart : Conversion.start.Admits rank := by
    intro w hw
    cases hw
  obtain ⟨out, vs, hrun, hout, -⟩ := Conversion.writes_of_derives h hstart
  rw [Conversion.toPolish?_eq, hrun, Option.bind_some]
  simp only [Conversion.start, List.append_nil] at hout ⊢
  simp only [Conversion.finish?, hout]

/-! ### Reading phrases -/

theorem unbracketed?_eq_some {ls : List Lexeme} {ts : List Token} :
    unbracketed? ls = some ts ↔ ls = ts.map .token := by
  unfold unbracketed?
  induction ls generalizing ts with
  | nil => cases ts <;> simp
  | cons l ls ih =>
    cases l with
    | token t =>
      simp only [List.mapM_cons, Lexeme.token?, Option.bind_eq_bind, Option.bind_some,
        Option.pure_def, Option.bind_eq_some_iff, Option.some.injEq, ih]
      constructor
      · rintro ⟨us, rfl, rfl⟩
        rfl
      · intro h
        obtain ⟨_, us, rfl, ⟨⟩, hus⟩ := List.map_eq_cons_iff.mp h.symm
        exact ⟨us, hus.symm, rfl⟩
    | opening => cases ts <;> simp [Lexeme.token?]
    | closing => cases ts <;> simp [Lexeme.token?]

/-- A phrase without brackets at the start of a row of Polish notation is the whole row, and is not
put together by a connective: the count of missing formulae is down to zero at its first atom. -/
theorem Derives.rank_eq_zero_of_writesFormulae {rank : Nat} {ls : List Lexeme} {f : Formula}
    (h : Derives rank ls f) {ts rest : List Token} (hts : ls = ts.map .token)
    (hp : writesFormulae 1 (ts ++ rest)) : rank = 0 ∧ rest = [] := by
  induction h generalizing ts rest with
  | atom p as =>
    obtain ⟨_, us, rfl, ⟨⟩, hus⟩ := List.map_eq_cons_iff.mp hts.symm
    obtain rfl := List.map_eq_nil_iff.mp hus
    cases rest with
    | nil => exact ⟨rfl, rfl⟩
    | cons t rest => cases hp
  | neg _ ih =>
    obtain ⟨_, us, rfl, ⟨⟩, hus⟩ := List.map_eq_cons_iff.mp hts.symm
    exact ih hus.symm hp
  | quant q v _ ih =>
    obtain ⟨_, us, rfl, ⟨⟩, hus⟩ := List.map_eq_cons_iff.mp hts.symm
    exact ih hus.symm hp
  | brackets _ _ => cases ts <;> cases hts
  | bin b _ _ _ _ ihl _ =>
    obtain ⟨us, vs, rfl, hus, hvs⟩ := List.append_eq_map_iff.mp hts
    obtain ⟨_, vs, rfl, ⟨⟩, -⟩ := List.map_eq_cons_iff.mp hvs
    rw [List.append_assoc] at hp
    cases (ihl hus.symm hp).2

theorem Derives.eq_tokens {ls : List Lexeme} {f : Formula} (h : Derives 0 ls f) {ts : List Token}
    (hts : ls = ts.map .token) : ts = f.tokens ∧ ∀ b, .bin b ∉ ts := by
  generalize hrank : 0 = rank at h
  induction h generalizing ts with
  | atom p as =>
    obtain ⟨_, us, rfl, ⟨⟩, hus⟩ := List.map_eq_cons_iff.mp hts.symm
    obtain rfl := List.map_eq_nil_iff.mp hus
    exact ⟨rfl, by simp⟩
  | neg _ ih =>
    obtain ⟨_, us, rfl, ⟨⟩, hus⟩ := List.map_eq_cons_iff.mp hts.symm
    obtain ⟨rfl, hnone⟩ := ih hus.symm rfl
    exact ⟨rfl, by simpa using hnone⟩
  | quant q v _ ih =>
    obtain ⟨_, us, rfl, ⟨⟩, hus⟩ := List.map_eq_cons_iff.mp hts.symm
    obtain ⟨rfl, hnone⟩ := ih hus.symm rfl
    exact ⟨rfl, by simpa using hnone⟩
  | brackets _ _ => cases ts <;> cases hts
  | bin b _ _ _ _ _ _ => exact absurd b.two_lt_rank (by omega)

theorem Derives.eq_tokens_of_isPolish {rank : Nat} {ls : List Lexeme} {f : Formula}
    (h : Derives rank ls f) {ts : List Token} (hts : unbracketed? ls = some ts)
    (hp : isPolish ts) : ts = f.tokens ∧ ∀ b, .bin b ∉ ts := by
  have hls := unbracketed?_eq_some.mp hts
  have hrow : writesFormulae 1 (ts ++ []) := by
    rw [List.append_nil]
    exact hp
  obtain ⟨rfl, -⟩ := h.rank_eq_zero_of_writesFormulae hls hrow
  exact h.eq_tokens hls

namespace Formula

theorem ofLexemes_tokens (f : Formula) : ofLexemes (f.tokens.map .token) = .ok f := by
  have hts : unbracketed? (f.tokens.map .token) = some f.tokens := unbracketed?_eq_some.mpr rfl
  simp [ofLexemes, hts]

theorem read_eq_ok {text : List Char} {f : Formula} :
    read text = .ok f ↔ ∃ ls, lexemes text = .ok ls ∧ ofLexemes ls = .ok f := by
  unfold read
  cases hls : lexemes text with
  | error fault => simp [bind, Except.bind]
  | ok ls => simp [bind, Except.bind]

theorem ofLexemes_of_derives {rank : Nat} {ls : List Lexeme} {f : Formula}
    (h : Derives rank ls f) : ofLexemes ls = .ok f := by
  unfold ofLexemes
  cases hread : (unbracketed? ls).bind ofTokens? with
  | none =>
    simp [ofBracketed, toPolish, toPolish?_of_derives h, bind, Except.bind, pure, Except.pure]
  | some g =>
    obtain ⟨ts, hts, hg⟩ := Option.bind_eq_some_iff.mp hread
    have hp : isPolish ts := isPolish_iff_isSome.mpr (by simp [hg])
    rw [(h.eq_tokens_of_isPolish hts hp).1, ofTokens?_tokens] at hg
    cases hg
    rfl

/-- Rank and grouping to the left are respected: every writing of a formula in the grammar, with
brackets left out or added as the grammar allows, is put into its Polish notation and read as that
formula. A writing with a connective is never taken for Polish notation. -/
theorem ofLexemes_of_inGrammar {ls : List Lexeme} {f : Formula} (h : InGrammar ls f) :
    ofLexemes ls = .ok f ∧ toPolish? ls = some f.tokens ∧
      ∀ b ts, .token (.bin b) ∈ ls → unbracketed? ls = some ts → isPolish ts = false := by
  obtain ⟨rank, h⟩ := h
  refine ⟨ofLexemes_of_derives h, toPolish?_of_derives h, ?_⟩
  intro b ts hb hts
  rw [← Bool.not_eq_true]
  intro hp
  obtain ⟨-, hnone⟩ := h.eq_tokens_of_isPolish hts hp
  rw [unbracketed?_eq_some.mp hts] at hb
  obtain ⟨t, ht, heq⟩ := List.mem_map.mp hb
  cases heq
  exact hnone b ht

/-- The lexemes of `~@xFx & P & Q + S : ~R > P`. -/
def mixedLexemes : List Lexeme :=
  let x := Term.candidate 23
  [.token .neg, .token (.quant .universal x), .token (.atom 'F' [x]), .token (.bin .conj),
    .token (.atom 'P' []), .token (.bin .conj), .token (.atom 'Q' []), .token (.bin .disj),
    .token (.atom 'S' []), .token (.bin .iff), .token .neg, .token (.atom 'R' []),
    .token (.bin .impl), .token (.atom 'P' [])]

def mixed : Formula :=
  let x := Term.candidate 23
  .bin .iff
    (.bin .disj
      (.bin .conj (.bin .conj (.neg (.quant .universal x (.atom 'F' [x]))) (.atom 'P' []))
        (.atom 'Q' []))
      (.atom 'S' []))
    (.bin .impl (.neg (.atom 'R' [])) (.atom 'P' []))

theorem ofLexemes_mixedLexemes :
    InGrammar mixedLexemes mixed ∧ ofLexemes mixedLexemes = .ok mixed ∧
      toPolish? mixedLexemes = some mixed.tokens ∧
      .token (.bin .conj) ∈ mixedLexemes ∧
      ∃ ts, unbracketed? mixedLexemes = some ts ∧ isPolish ts = false := by
  have hconj : Derives 3 _ _ :=
    .bin .conj (.bin .conj (.neg (.quant .universal (Term.candidate 23)
      (.atom 'F' [Term.candidate 23]))) (by decide) (.atom 'P' []) (by decide)) (by decide)
      (.atom 'Q' []) (by decide)
  have hleft : Derives 4 _ _ := .bin .disj hconj (by decide) (.atom 'S' []) (by decide)
  have hright : Derives 5 _ _ :=
    .bin .impl (.neg (.atom 'R' [])) (by decide) (.atom 'P' []) (by decide)
  have h : InGrammar mixedLexemes mixed := ⟨6, .bin .iff hleft (by decide) hright (by decide)⟩
  obtain ⟨hread, hpolish, htest⟩ := ofLexemes_of_inGrammar h
  have hb : .token (.bin .conj) ∈ mixedLexemes := by decide
  exact ⟨h, hread, hpolish, hb, _, rfl, htest .conj _ hb rfl⟩

end Formula

end TruthTrees
