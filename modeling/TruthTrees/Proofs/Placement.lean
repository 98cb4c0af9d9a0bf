import TruthTrees.Proofs.Conversion

/-!
# Signs in their places

A row of lexemes is a phrase of the grammar if its brackets match and every lexeme stands where one
of its kind may stand: a formula begins at the start, after an operator and after an opening
bracket, and after it there is a connective, a closing bracket or the end. The pass to Polish
notation looks at the brackets but not at the places. It reads `P~` as `~P` and `PQ&` as `P&Q`,
although these are no phrases in either notation.
-/

namespace TruthTrees

/-! ### Polish notation is read back -/

theorem Token.applyTo?_eq_some {t : Token} {fs gs : List Formula} (h : t.applyTo? fs = some gs) :
    gs.flatMap Formula.tokens = t :: fs.flatMap Formula.tokens := by
  unfold Token.applyTo? at h
  split at h <;> cases h <;> simp [Formula.tokens]

theorem formulae?_eq_some {ts : List Token} {fs : List Formula} (h : formulae? ts = some fs) :
    ts = fs.flatMap Formula.tokens := by
  induction ts generalizing fs with
  | nil =>
    cases h
    rfl
  | cons t ts ih =>
    obtain ⟨gs, hgs, hfs⟩ := Option.bind_eq_some_iff.mp h
    rw [Token.applyTo?_eq_some hfs, ← ih hgs]

namespace Formula

theorem tokens_injective {f g : Formula} (h : f.tokens = g.tokens) : f = g := by
  have hg := ofTokens?_tokens g
  rw [← h, ofTokens?_tokens] at hg
  exact Option.some.inj hg

theorem ofTokens?_eq_some {ts : List Token} {f : Formula} :
    ofTokens? ts = some f ↔ ts = f.tokens := by
  constructor
  · intro h
    unfold ofTokens? at h
    split at h
    · next g hg =>
      cases h
      simpa using formulae?_eq_some hg
    · cases h
  · rintro rfl
    exact ofTokens?_tokens f

end Formula

/-! ### Places -/

namespace Lexeme

def begins : Lexeme → Bool
  | token (.bin _) => false
  | closing => false
  | _ => true

def ends : Lexeme → Bool
  | token (.atom _ _) => true
  | closing => true
  | _ => false

end Lexeme

/-- Do the lexemes stand in their places? Where a formula has just ended, none begins, and where
none has ended, one begins. -/
def inPlace : (ended : Bool) → List Lexeme → Bool
  | ended, [] => ended
  | ended, l :: ls => l.begins != ended && inPlace l.ends ls

theorem Derives.inPlace_append {rank : Nat} {ls : List Lexeme} {f : Formula}
    (h : Derives rank ls f) (rest : List Lexeme) :
    inPlace false (ls ++ rest) = inPlace true rest := by
  induction h generalizing rest with
  | atom p ts => rfl
  | neg _ ih => exact ih rest
  | quant q v _ ih => exact ih rest
  | brackets _ ih =>
    rw [List.append_assoc]
    exact ih (.closing :: rest)
  | bin b _ _ _ _ ihl ihr =>
    rw [List.append_assoc, ihl]
    exact ihr rest

theorem Derives.inPlace {rank : Nat} {ls : List Lexeme} {f : Formula} (h : Derives rank ls f) :
    inPlace false ls := by
  have hend := h.inPlace_append []
  rw [List.append_nil] at hend
  exact hend

/-! ### Rows of formulae with connectives between them -/

/-- A connective and a formula without outer connective can be put behind every phrase: they go to
the last connective that binds no tighter. -/
theorem Derives.exists_append {k : Nat} {ls : List Lexeme} {l : Formula} (h : Derives k ls l)
    (b : Connective) {rs : List Lexeme} {r : Formula} (hr : Derives 0 rs r) :
    ∃ f, Derives (max k b.rank) (ls ++ .token (.bin b) :: rs) f := by
  have hloose : ∀ {k ls l}, Derives k ls l → k ≤ b.rank →
      ∃ f, Derives (max k b.rank) (ls ++ .token (.bin b) :: rs) f := by
    intro k ls l h hk
    rw [Nat.max_eq_right hk]
    exact ⟨_, .bin b h hk hr (Nat.lt_trans Nat.two_pos b.two_lt_rank)⟩
  induction h with
  | atom p ts => exact hloose (.atom p ts) (Nat.zero_le _)
  | neg h _ => exact hloose (.neg h) (Nat.zero_le _)
  | quant q v h _ => exact hloose (.quant q v h) (Nat.zero_le _)
  | brackets h _ => exact hloose (.brackets h) (Nat.zero_le _)
  | bin c hl hm hright hn _ ihright =>
    rcases Nat.lt_or_ge b.rank c.rank with hbc | hcb
    · obtain ⟨f, hf⟩ := ihright
      rw [Nat.max_eq_left (Nat.le_of_lt hbc), List.append_assoc]
      exact ⟨_, .bin c hl hm hf (Nat.max_lt.mpr ⟨hn, hbc⟩)⟩
    · exact hloose (.bin c hl hm hright hn) hcb

/-- Connectives with a formula after each of them. -/
inductive Continuation : List Lexeme → Prop where
  | nil : Continuation []
  | cons (b : Connective) {ls rs : List Lexeme} {f : Formula} (h : Derives 0 ls f)
      (hrs : Continuation rs) : Continuation (.token (.bin b) :: (ls ++ rs))

theorem Continuation.exists_derives {rs : List Lexeme} (h : Continuation rs) {k : Nat}
    {ls : List Lexeme} {l : Formula} (hl : Derives k ls l) :
    ∃ rank f, Derives rank (ls ++ rs) f := by
  induction h generalizing k ls l with
  | nil =>
    rw [List.append_nil]
    exact ⟨k, l, hl⟩
  | @cons b ms rs f hm _ ih =>
    obtain ⟨g, hg⟩ := hl.exists_append b hm
    obtain ⟨rank, f, hf⟩ := ih hg
    refine ⟨rank, f, ?_⟩
    rw [List.append_assoc, List.cons_append] at hf
    exact hf

/-- What may come after a formula inside a number of pairs of brackets. -/
inductive Follows : (depth : Nat) → List Lexeme → Prop where
  | outside {ls : List Lexeme} (h : Continuation ls) : Follows 0 ls
  | closing {depth : Nat} {ls rs : List Lexeme} (h : Continuation ls) (hrs : Follows depth rs) :
      Follows (depth + 1) (ls ++ .closing :: rs)

theorem Follows.cons {depth : Nat} {rest : List Lexeme} (h : Follows depth rest) (b : Connective)
    {ls : List Lexeme} {f : Formula} (hf : Derives 0 ls f) :
    Follows depth (.token (.bin b) :: (ls ++ rest)) := by
  cases h with
  | outside h => exact .outside (.cons b hf h)
  | @closing depth ms rs h hrs =>
    have hmore := Follows.closing (.cons b hf h) hrs
    rw [List.cons_append, List.append_assoc] at hmore
    exact hmore

/-! ### Lexemes in place are phrases -/

theorem Conversion.outer_next? {t : Token} {s s' : Conversion}
    (h : next? (.token t) s = some s') : s'.outer = s.outer := by
  cases t <;> cases h <;> rfl

/-- Going from right to left, lexemes in place are what may come after a formula, or a formula with
such lexemes after it. The pass keeps one list of waiting operators for every pair of brackets that
is still to be opened. -/
theorem follows_of_inPlace {ls : List Lexeme} {s : Conversion}
    (hrun : Conversion.run? ls .start = some s) :
    (inPlace true ls → Follows s.outer.length ls) ∧
    (inPlace false ls → ∃ ms rest f, ls = ms ++ rest ∧ Derives 0 ms f ∧
      Follows s.outer.length rest) := by
  induction ls generalizing s with
  | nil =>
    cases hrun
    exact ⟨fun _ => .outside .nil, fun h => absurd h Bool.false_ne_true⟩
  | cons l ls ih =>
    obtain ⟨s', hs', hnext⟩ := Option.bind_eq_some_iff.mp hrun
    obtain ⟨ihended, ihbegin⟩ := ih hs'
    cases l with
    | closing =>
      cases hnext
      refine ⟨fun h => .closing .nil (ihended h), fun h => absurd h Bool.false_ne_true⟩
    | opening =>
      refine ⟨fun h => absurd h Bool.false_ne_true, fun h => ?_⟩
      obtain ⟨ms, rest, f, rfl, hms, hrest⟩ := ihbegin h
      unfold Conversion.next? at hnext
      cases houter : s'.outer with
      | nil =>
        rw [houter] at hnext
        cases hnext
      | cons waiting outer =>
        rw [houter] at hnext hrest
        cases hnext
        cases hrest with
        | @closing _ ns rs hns hrs =>
          obtain ⟨rank, g, hg⟩ := hns.exists_derives hms
          exact ⟨_, rs, g, by simp, .brackets hg, hrs⟩
    | token t =>
      rw [Conversion.outer_next? hnext]
      cases t with
      | atom p ts =>
        refine ⟨fun h => absurd h Bool.false_ne_true, fun h => ?_⟩
        exact ⟨[_], ls, _, rfl, .atom p ts, ihended h⟩
      | bin b =>
        refine ⟨fun h => ?_, fun h => absurd h Bool.false_ne_true⟩
        obtain ⟨ms, rest, f, rfl, hms, hrest⟩ := ihbegin h
        exact hrest.cons b hms
      | neg =>
        refine ⟨fun h => absurd h Bool.false_ne_true, fun h => ?_⟩
        obtain ⟨ms, rest, f, rfl, hms, hrest⟩ := ihbegin h
        exact ⟨_, rest, _, rfl, .neg hms, hrest⟩
      | quant q v =>
        refine ⟨fun h => absurd h Bool.false_ne_true, fun h => ?_⟩
        obtain ⟨ms, rest, f, rfl, hms, hrest⟩ := ihbegin h
        exact ⟨_, rest, _, rfl, .quant q v hms, hrest⟩

theorem exists_derives_of_inPlace {ls : List Lexeme} {ts : List Token} (hplace : inPlace false ls)
    (hts : toPolish? ls = some ts) : ∃ rank f, Derives rank ls f := by
  obtain ⟨s, hrun, hfinish⟩ := Option.bind_eq_some_iff.mp hts
  obtain ⟨ms, rest, f, rfl, hms, hrest⟩ := (follows_of_inPlace hrun).2 hplace
  unfold Conversion.finish? at hfinish
  split at hfinish
  · next houter =>
    rw [houter] at hrest
    cases hrest with
    | outside h => exact h.exists_derives hms
  · cases hfinish

theorem inGrammar_iff {ls : List Lexeme} {f : Formula} :
    InGrammar ls f ↔ inPlace false ls ∧ toPolish? ls = some f.tokens := by
  constructor
  · rintro ⟨rank, h⟩
    exact ⟨h.inPlace, toPolish?_of_derives h⟩
  · rintro ⟨hplace, hts⟩
    obtain ⟨rank, g, hg⟩ := exists_derives_of_inPlace hplace hts
    rw [toPolish?_of_derives hg] at hts
    rw [← Formula.tokens_injective (Option.some.inj hts)]
    exact ⟨rank, hg⟩

/-! ### What the reader accepts -/

namespace Formula

theorem ofLexemes_cases {ls : List Lexeme} {f : Formula} (h : ofLexemes ls = .ok f) :
    ls = f.tokens.map .token ∨
      ((unbracketed? ls).any isPolish = false ∧ toPolish? ls = some f.tokens) := by
  unfold ofLexemes at h
  cases hread : (unbracketed? ls).bind ofTokens? with
  | some g =>
    rw [hread] at h
    cases h
    obtain ⟨ts, hts, hf⟩ := Option.bind_eq_some_iff.mp hread
    rw [unbracketed?_eq_some.mp hts, ofTokens?_eq_some.mp hf]
    exact .inl rfl
  | none =>
    rw [hread] at h
    refine .inr ⟨?_, ?_⟩
    · cases hts : unbracketed? ls with
      | none => rfl
      | some ts =>
        rw [hts, Option.bind_some] at hread
        rw [Option.any_some, ← Bool.not_eq_true, isPolish_iff_isSome, hread]
        exact Bool.false_ne_true
    · unfold ofBracketed toPolish at h
      cases hts : toPolish? ls with
      | none =>
        rw [hts] at h
        cases h
      | some ts =>
        simp only [hts, bind, Except.bind] at h
        split at h
        · next g hg =>
          cases h
          rw [ofTokens?_eq_some.mp hg]
        · cases h

/-- The texts that are read as a formula and are a writing of it, in Polish notation or by the
grammar of bracketed notation, are those whose lexemes are in place or write Polish notation. So
a text that is read and that is neither has a lexeme out of its place. -/
theorem read_inPlace_iff (text : List Char) (f : Formula) :
    (∃ ls, lexemes text = .ok ls ∧ (ls = f.tokens.map .token ∨ InGrammar ls f)) ↔
      read text = .ok f ∧
        ∃ ls, lexemes text = .ok ls ∧ ((unbracketed? ls).any isPolish ∨ inPlace false ls) := by
  constructor
  · rintro ⟨ls, hls, rfl | ⟨rank, h⟩⟩
    · refine ⟨read_eq_ok.mpr ⟨_, hls, ofLexemes_tokens f⟩, _, hls, .inl ?_⟩
      rw [unbracketed?_eq_some.mpr rfl, Option.any_some, isPolish_iff_isSome, ofTokens?_tokens]
      rfl
    · exact ⟨read_eq_ok.mpr ⟨ls, hls, ofLexemes_of_derives h⟩, ls, hls, .inr h.inPlace⟩
  · rintro ⟨hread, ls, hls, hplace⟩
    refine ⟨ls, hls, ?_⟩
    obtain ⟨_, hls', hof⟩ := read_eq_ok.mp hread
    cases hls.symm.trans hls'
    rcases ofLexemes_cases hof with hpolish | ⟨hnot, hts⟩
    · exact .inl hpolish
    · rw [hnot] at hplace
      exact .inr (inGrammar_iff.mpr ⟨hplace.resolve_left Bool.false_ne_true, hts⟩)

/-- A sign of negation behind an atom is read as if it stood before it. -/
theorem read_negation_behind :
    read ['P', '~'] = .ok (.neg (.atom 'P' [])) ∧
      ¬∃ ls, lexemes ['P', '~'] = .ok ls ∧
        (ls = (Formula.neg (.atom 'P' [])).tokens.map .token ∨
          InGrammar ls (.neg (.atom 'P' []))) := by
  refine ⟨rfl, ?_⟩
  rintro ⟨ls, hls, h⟩
  have hlexemes : lexemes ['P', '~'] = .ok [.token (.atom 'P' []), .token .neg] := rfl
  cases hlexemes.symm.trans hls
  rcases h with h | ⟨rank, h⟩
  · exact absurd h (by decide)
  · exact absurd h.inPlace (by decide)

end Formula

end TruthTrees
