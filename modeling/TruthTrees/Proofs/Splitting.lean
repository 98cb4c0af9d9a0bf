import Mathlib.Data.List.TakeWhile
import Mathlib.Tactic.SplitIfs
import TruthTrees.Proofs.Scanning

/-!
# Texts that split into lexemes

The scanner finds only lexemes that are spelled where it finds them. Together with the scanning of
what is spelled out, a text splits into a row of lexemes exactly if it spells that row, and every
other text is refused.
-/

namespace TruthTrees

/-! ### Results -/

theorem bind_eq_ok_iff {ε α β : Type} {x : Except ε α} {f : α → Except ε β} {b : β} :
    (x >>= f) = .ok b ↔ ∃ a, x = .ok a ∧ f a = .ok b := by
  cases x <;> simp [bind, Except.bind]

theorem bind_eq_error_iff {ε α β : Type} {x : Except ε α} {f : α → Except ε β} {e : ε} :
    (x >>= f) = .error e ↔ x = .error e ∨ ∃ a, x = .ok a ∧ f a = .error e := by
  cases x <;> simp [bind, Except.bind]

theorem pure_eq_ok_iff {ε α : Type} {a b : α} : (pure a : Except ε α) = .ok b ↔ a = b := by
  simp [pure, Except.pure]

/-! ### Signs and letters -/

theorem Connective.eq_of_ofSign? {c : Char} {b : Connective} (h : ofSign? c = some b) :
    c = b.plain ∨ c = b.pretty := by
  simpa using List.find?_some h

theorem Quantifier.eq_of_ofSign? {c : Char} {q : Quantifier} (h : ofSign? c = some q) :
    c = q.plain ∨ c = q.pretty := by
  simpa using List.find?_some h

namespace Term

theorem letterChar_of_letter? {c : Char} {t : Term} (h : letter? c = some t.letter) :
    t.letterChar = c := by
  unfold letter? at h
  split_ifs at h with hc
  have hletter : t.letter.val = c.toNat - 97 := by
    rw [← Option.some.inj h]
  rw [letterChar, hletter, Nat.add_sub_cancel' hc.1, Char.ofNat_toNat]

theorem isLower_eq_false_of_letter? {c : Char} (h : letter? c = none) : c.isLower = false := by
  unfold letter? at h
  split_ifs at h with hc
  rw [← Bool.not_eq_true, isLower_iff]
  omega

theorem ofDigitChars_of_index? {digits : List Char} {i : UInt32} (h : index? digits = some i) :
    Nat.ofDigitChars 10 digits 0 = i.toNat := by
  unfold index? at h
  dsimp only at h
  split_ifs at h with hlt
  rw [← Option.some.inj h, UInt32.toNat_ofNat_of_lt' hlt]

end Term

/-! ### Terms -/

namespace Lexeme

theorem termAt_eq_ok {letter : Fin 26} {cs : List Char} {t : Term}
    (h : termAt letter cs = .ok t) :
    t.letter = letter ∧
      Nat.ofDigitChars 10 (cs.takeWhile Char.isDigit) 0 = t.index.toNat := by
  unfold termAt at h
  dsimp only at h
  split at h
  · next i hi =>
    cases h
    exact ⟨rfl, Term.ofDigitChars_of_index? hi⟩
  · cases h

/-- Where the terms of a list are found, digits of an earlier term and commas may come first, but no
digits after a comma. -/
theorem terms_eq_ok {afterComma : Bool} {cs : List Char} {ts : List Term}
    (hcs : ∀ c ∈ cs, isListChar c) (h : terms afterComma cs = .ok ts) :
    ∃ digits commas w, cs = digits ++ (List.replicate commas ',' ++ w) ∧
      (∀ d ∈ digits, d.isDigit) ∧ (afterComma → digits = []) ∧ SpelledInList ts w := by
  induction cs generalizing afterComma ts with
  | nil =>
    cases h
    exact ⟨[], 0, [], rfl, by simp, fun _ => rfl, .nil⟩
  | cons c cs ih =>
    obtain ⟨hc, hrest⟩ := List.forall_mem_cons.mp hcs
    unfold terms at h
    split at h
    · next letter hletter =>
      obtain ⟨t, ht, h⟩ := bind_eq_ok_iff.mp h
      obtain ⟨us, hus, h⟩ := bind_eq_ok_iff.mp h
      cases pure_eq_ok_iff.mp h
      obtain ⟨digits, commas, w, rfl, hdigits, -, hw⟩ := ih hrest hus
      obtain ⟨rfl, hindex⟩ := termAt_eq_ok ht
      rw [takeWhile_append_stop hdigits (hw.head_commas commas)] at hindex
      have hspelled : t.SpelledAs (c :: digits) :=
        ⟨digits, by rw [Term.letterChar_of_letter? hletter], hdigits, hindex⟩
      refine ⟨[], 0, _, rfl, by simp, fun _ => rfl, ?_⟩
      simpa using SpelledInList.cons commas hspelled hw
    · next hletter =>
      split_ifs at h with hcomma hafter
      · subst hcomma
        obtain ⟨digits, commas, w, rfl, -, hnone, hw⟩ := ih hrest h
        obtain rfl := hnone rfl
        exact ⟨[], commas + 1, w, rfl, by simp, fun _ => rfl, hw⟩
      · obtain ⟨digits, commas, w, rfl, hdigits, -, hw⟩ := ih hrest h
        have hlower := Term.isLower_eq_false_of_letter? hletter
        have hdigit : c.isDigit := by simpa [isListChar, isTermChar, hlower, hcomma] using hc
        exact ⟨c :: digits, commas, w, rfl, List.forall_mem_cons.mpr ⟨hdigit, hdigits⟩,
          fun hafter' => absurd hafter' hafter, hw⟩

end Lexeme

theorem SpelledInList.spelledInRow {ts : List Term} {w : List Char} (h : SpelledInList ts w)
    (hw : ',' ∉ w) : SpelledInRow ts w := by
  induction h with
  | nil => exact .nil
  | cons commas ht _ ih =>
    simp only [List.mem_append, List.mem_replicate, not_or, not_and] at hw
    obtain ⟨⟨-, hcommas⟩, hcs⟩ := hw
    have hzero : commas = 0 := by simpa using hcommas
    subst hzero
    simpa using SpelledInRow.cons ht (ih hcs)

namespace Lexeme

theorem spelledInList_of_terms {w : List Char} {ts : List Term} (hw : ∀ c ∈ w, isListChar c)
    (hstart : startsWithLetter w) (h : terms false w = .ok ts) :
    SpelledInList ts w ∧ ts ≠ [] := by
  obtain ⟨digits, commas, v, rfl, hdigits, -, hv⟩ := terms_eq_ok hw h
  cases digits with
  | cons d digits =>
    have hdigit := isDigit_iff.mp (hdigits d List.mem_cons_self)
    have hlower := isLower_iff.mp hstart
    omega
  | nil =>
    cases commas with
    | succ commas => cases hstart
    | zero =>
      refine ⟨hv, ?_⟩
      rintro rfl
      cases hv
      cases hstart

/-! ### Single lexemes -/

theorem listed?_eq_some {cs inside : List Char} (h : listed? cs = some inside) :
    ∃ rest, cs = '(' :: inside ++ ')' :: rest ∧ (∀ c ∈ inside, isListChar c) ∧
      startsWithLetter inside := by
  unfold listed? at h
  split at h
  · next cs =>
    dsimp only at h
    split_ifs at h with hinside
    cases h
    simp only [Bool.and_eq_true, decide_eq_true_eq] at hinside
    obtain ⟨hstart, hclosing⟩ := hinside
    obtain ⟨rest, hrest⟩ := List.head?_eq_some_iff.mp hclosing
    have hcs : cs = cs.takeWhile isListChar ++ ')' :: rest := by
      rw [← hrest]
      exact (List.prefix_iff_eq_append.mp (List.takeWhile_prefix _)).symm
    exact ⟨rest, congrArg ('(' :: ·) hcs, fun c hc => List.mem_takeWhile_imp hc, hstart⟩
  · cases h

theorem run_cases (cs : List Char) :
    ∃ rest, cs = run cs ++ rest ∧ (∀ c ∈ run cs, isTermChar c) ∧
      (run cs = [] ∨ startsWithLetter (run cs)) := by
  unfold run
  split_ifs with hstart
  · refine ⟨cs.dropWhile isTermChar, List.takeWhile_append_dropWhile.symm,
      fun c hc => List.mem_takeWhile_imp hc, .inr ?_⟩
    cases cs with
    | nil => cases hstart
    | cons c cs =>
      have hlower : c.isLower := hstart
      rw [List.takeWhile_cons_of_pos (by simp [isTermChar, hlower])]
      exact hlower
  · exact ⟨cs, rfl, by simp, .inl rfl⟩

theorem quantified_eq_ok {q : Quantifier} {c : Char} (hq : c = q.plain ∨ c = q.pretty)
    {cs : List Char} {l : Lexeme} {n : Nat} (h : quantified q cs = .ok (l, n)) :
    ∃ w rest, cs = w ++ rest ∧ w.length = n ∧ l.SpelledAs (c :: w) := by
  cases cs with
  | nil => cases h
  | cons d cs =>
    simp only [quantified] at h
    split at h
    · next letter hletter =>
      obtain ⟨v, hv, h⟩ := bind_eq_ok_iff.mp h
      cases pure_eq_ok_iff.mp h
      obtain ⟨rfl, hindex⟩ := termAt_eq_ok hv
      have hspelled : v.SpelledAs (d :: cs.takeWhile Char.isDigit) :=
        ⟨_, by rw [Term.letterChar_of_letter? hletter], fun e he => List.mem_takeWhile_imp he,
          hindex⟩
      exact ⟨_, cs.dropWhile Char.isDigit, by simp, by simp, .quant hq hspelled⟩
    · cases h

theorem applied_eq_ok {p : Char} (hp : p.isUpper) {cs : List Char} {l : Lexeme} {n : Nat}
    (h : applied p cs = .ok (l, n)) :
    ∃ w rest, cs = w ++ rest ∧ w.length = n ∧ l.SpelledAs (p :: w) := by
  unfold applied at h
  split at h
  · next inside hinside =>
    obtain ⟨ts, hts, h⟩ := bind_eq_ok_iff.mp h
    cases pure_eq_ok_iff.mp h
    obtain ⟨rest, rfl, hchars, hstart⟩ := listed?_eq_some hinside
    obtain ⟨hlist, hne⟩ := spelledInList_of_terms hchars hstart hts
    exact ⟨'(' :: inside ++ [')'], rest, by simp, by simp, .list hp hne hlist⟩
  · obtain ⟨ts, hts, h⟩ := bind_eq_ok_iff.mp h
    cases pure_eq_ok_iff.mp h
    obtain ⟨rest, hrun, hchars, hempty | hstart⟩ := run_cases cs
    · rw [hempty] at hts
      cases hts
      exact ⟨run cs, rest, hrun, rfl, .row hp (by rw [hempty]; exact .nil)⟩
    · have hcomma : ',' ∉ run cs := fun hc => Bool.false_ne_true (hchars ',' hc)
      obtain ⟨hlist, -⟩ :=
        spelledInList_of_terms (fun c hc => by simp [isListChar, hchars c hc]) hstart hts
      exact ⟨run cs, rest, hrun, rfl, .row hp (hlist.spelledInRow hcomma)⟩

theorem first_eq_ok {c : Char} {cs : List Char} {l : Lexeme} {n : Nat}
    (h : first c cs = .ok (l, n)) :
    ∃ w rest, cs = w ++ rest ∧ w.length = n ∧ l.SpelledAs (c :: w) := by
  have hsign {l : Lexeme} (hl : l.SpelledAs [c]) :
      ∃ w rest, cs = w ++ rest ∧ w.length = 0 ∧ l.SpelledAs (c :: w) :=
    ⟨[], cs, rfl, rfl, hl⟩
  unfold first at h
  by_cases hneg : Negation.isSign c
  · rw [if_pos hneg] at h
    cases h
    exact hsign (.neg (by simpa [Negation.isSign] using hneg))
  rw [if_neg hneg] at h
  split at h
  · next b hb =>
    cases h
    exact hsign (.bin (Connective.eq_of_ofSign? hb))
  split at h
  · next q hq => exact quantified_eq_ok (Quantifier.eq_of_ofSign? hq) h
  split_ifs at h with hupper hopening hclosing
  · exact applied_eq_ok hupper h
  · cases h
    exact hsign (hopening ▸ .opening)
  · cases h
    exact hsign (hclosing ▸ .closing)

theorem spelledOut_of_scan {cs : List Char} {ls : List Lexeme} (h : scan cs = .ok ls) :
    SpelledOut ls cs := by
  -- The lexemes are found from left to right, so the induction is on what is left of the text.
  induction hn : cs.length using Nat.strong_induction_on generalizing cs ls with
  | _ n ih =>
    cases cs with
    | nil =>
      cases h
      exact .nil
    | cons c cs =>
      obtain ⟨⟨l, more⟩, hfirst, h⟩ := bind_eq_ok_iff.mp h
      obtain ⟨rest, hrest, h⟩ := bind_eq_ok_iff.mp h
      cases pure_eq_ok_iff.mp h
      obtain ⟨w, after, rfl, rfl, hspelled⟩ := first_eq_ok hfirst
      rw [scanFrom_eq_scan_drop, List.drop_left] at hrest
      have hlt : after.length < n := by
        simp only [List.length_cons, List.length_append] at hn
        omega
      exact .cons hspelled (ih after.length hlt hrest rfl)

end Lexeme

/-! ### Refusals -/

/-- A fault that the text shows: a numeral that is too large stands in it. -/
def ScanFault.ShownIn (cs : List Char) : ScanFault → Prop
  | .unexpected => True
  | .indexTooLarge digits =>
    digits <:+: cs ∧ (∀ d ∈ digits, d.isDigit) ∧ UInt32.size ≤ Nat.ofDigitChars 10 digits 0

theorem ScanFault.ShownIn.mono {fault : ScanFault} {cs ds : List Char} (h : fault.ShownIn cs)
    (hcs : cs <:+: ds) : fault.ShownIn ds := by
  cases fault with
  | unexpected => trivial
  | indexTooLarge digits => exact ⟨h.1.trans hcs, h.2⟩

namespace Lexeme

theorem shownIn_of_termAt {letter : Fin 26} {cs : List Char} {fault : ScanFault}
    (h : termAt letter cs = .error fault) : fault.ShownIn cs := by
  unfold termAt at h
  dsimp only at h
  split at h
  · cases h
  · next hindex =>
    cases h
    refine ⟨(List.takeWhile_prefix _).isInfix, fun d hd => List.mem_takeWhile_imp hd, ?_⟩
    simpa [Term.index?] using hindex

theorem shownIn_of_terms {afterComma : Bool} {cs : List Char} {fault : ScanFault}
    (h : terms afterComma cs = .error fault) : fault.ShownIn cs := by
  induction cs generalizing afterComma with
  | nil => cases h
  | cons c cs ih =>
    suffices hshown : fault.ShownIn cs from hshown.mono (List.suffix_cons c cs).isInfix
    unfold terms at h
    split at h
    · rcases bind_eq_error_iff.mp h with ht | ⟨t, -, h⟩
      · exact shownIn_of_termAt ht
      · rcases bind_eq_error_iff.mp h with hts | ⟨ts, -, h⟩
        · exact ih hts
        · cases h
    · split_ifs at h
      · exact ih h
      · cases h
        trivial
      · exact ih h

theorem shownIn_of_quantified {q : Quantifier} {cs : List Char} {fault : ScanFault}
    (h : quantified q cs = .error fault) : fault.ShownIn cs := by
  cases cs with
  | nil =>
    cases h
    trivial
  | cons c cs =>
    simp only [quantified] at h
    split at h
    · rcases bind_eq_error_iff.mp h with hv | ⟨v, -, h⟩
      · exact (shownIn_of_termAt hv).mono (List.suffix_cons c cs).isInfix
      · cases h
    · cases h
      trivial

theorem shownIn_of_applied {p : Char} {cs : List Char} {fault : ScanFault}
    (h : applied p cs = .error fault) : fault.ShownIn cs := by
  unfold applied at h
  split at h
  · next inside hinside =>
    obtain ⟨rest, rfl, -, -⟩ := listed?_eq_some hinside
    rcases bind_eq_error_iff.mp h with hts | ⟨ts, -, h⟩
    · exact (shownIn_of_terms hts).mono ⟨['('], ')' :: rest, rfl⟩
    · cases h
  · obtain ⟨rest, hrun, -, -⟩ := run_cases cs
    rcases bind_eq_error_iff.mp h with hts | ⟨ts, -, h⟩
    · exact (shownIn_of_terms hts).mono ⟨[], rest, hrun.symm⟩
    · cases h

theorem shownIn_of_first {c : Char} {cs : List Char} {fault : ScanFault}
    (h : first c cs = .error fault) : fault.ShownIn cs := by
  unfold first at h
  by_cases hneg : Negation.isSign c
  · rw [if_pos hneg] at h
    cases h
  rw [if_neg hneg] at h
  split at h
  · cases h
  split at h
  · exact shownIn_of_quantified h
  split_ifs at h
  · exact shownIn_of_applied h
  · cases h
    trivial

theorem shownIn_of_scanFrom {skip : Nat} {cs : List Char} {fault : ScanFault}
    (h : scanFrom skip cs = .error fault) : fault.ShownIn cs := by
  induction cs generalizing skip with
  | nil => cases skip <;> cases h
  | cons c cs ih =>
    suffices hshown : fault.ShownIn cs from hshown.mono (List.suffix_cons c cs).isInfix
    cases skip with
    | succ skip => exact ih h
    | zero =>
      rcases bind_eq_error_iff.mp h with hfirst | ⟨⟨l, more⟩, -, h⟩
      · exact shownIn_of_first hfirst
      · rcases bind_eq_error_iff.mp h with hrest | ⟨rest, -, h⟩
        · exact ih hrest
        · cases h

end Lexeme

/-! ### Splitting -/

theorem spelledOut_of_lexemes {text : List Char} {ls : List Lexeme} (h : lexemes text = .ok ls) :
    SpelledOut ls (withoutBlanks text) := by
  apply Lexeme.spelledOut_of_scan
  unfold lexemes at h
  split at h
  · next hscan =>
    cases h
    exact hscan
  all_goals cases h

theorem lexemes_eq_error {text : List Char} {fault : Fault} (h : lexemes text = .error fault) :
    fault = .unexpected (withoutBlanks text) ∨
      ∃ digits, fault = .indexTooLarge digits ∧ digits <:+: withoutBlanks text ∧
        (∀ d ∈ digits, d.isDigit) ∧ UInt32.size ≤ Nat.ofDigitChars 10 digits 0 := by
  unfold lexemes at h
  split at h
  · cases h
  · cases h
    exact .inl rfl
  · next digits hscan =>
    cases h
    exact .inr ⟨digits, rfl, Lexeme.shownIn_of_scanFrom hscan⟩

/-- A text splits into a row of lexemes if and only if, its blanks apart, it spells them out one
after the other. Every text that spells no row is refused: a character stands where it cannot, or
the digits after a letter are too large for an index. -/
theorem lexemes_iff_spelledOut (text : List Char) :
    (∀ ls, lexemes text = .ok ls ↔ SpelledOut ls (withoutBlanks text)) ∧
      ((∀ ls, ¬SpelledOut ls (withoutBlanks text)) ↔
        lexemes text = .error (.unexpected (withoutBlanks text)) ∨
          ∃ digits, lexemes text = .error (.indexTooLarge digits) ∧
            digits <:+: withoutBlanks text ∧ (∀ d ∈ digits, d.isDigit) ∧
              UInt32.size ≤ Nat.ofDigitChars 10 digits 0) := by
  have hsplits : ∀ ls, lexemes text = .ok ls ↔ SpelledOut ls (withoutBlanks text) :=
    fun ls => ⟨spelledOut_of_lexemes, lexemes_of_spelledOut⟩
  refine ⟨hsplits, ?_, ?_⟩
  · intro hnone
    cases hresult : lexemes text with
    | ok ls => exact absurd ((hsplits ls).mp hresult) (hnone ls)
    | error fault =>
      rcases lexemes_eq_error hresult with rfl | ⟨digits, rfl, hdigits⟩
      · exact .inl rfl
      · exact .inr ⟨digits, rfl, hdigits⟩
  · rintro hrefused ls hls
    have hok := lexemes_of_spelledOut hls
    rcases hrefused with hunexpected | ⟨digits, hlarge, -⟩
    · rw [hunexpected] at hok
      cases hok
    · rw [hlarge] at hok
      cases hok

/-- A list with commas and a leading zero beside the two spellings of a sign, and an index that is
one too large. -/
theorem lexemes_iff_spelledOut_commas :
    SpelledOut [.token (.atom 'R' [⟨0, 0⟩, ⟨1, 7⟩]), .token (.bin .conj), .token .neg,
        .token (.atom 'P' [])] "R(a,,b07)∧~P".toList ∧
      (∀ ls, ¬SpelledOut ls "Pa4294967296".toList) ∧ ∀ ls, ¬SpelledOut ls "R(a,7)".toList := by
  have hspelled := ((lexemes_iff_spelledOut "R(a,, b07) ∧ ~P".toList).1
    [.token (.atom 'R' [⟨0, 0⟩, ⟨1, 7⟩]), .token (.bin .conj), .token .neg,
      .token (.atom 'P' [])]).mp (by decide)
  have hdigits : ∀ d ∈ "4294967296".toList, d.isDigit := List.all_eq_true.mp (by decide)
  have hlarge := (lexemes_iff_spelledOut "Pa4294967296".toList).2.mpr
    (.inr ⟨"4294967296".toList, by decide, ⟨['P', 'a'], [], by decide⟩, hdigits, by decide⟩)
  have hdigit := (lexemes_iff_spelledOut "R(a,7)".toList).2.mpr (.inl (by decide))
  have hR : withoutBlanks "R(a,, b07) ∧ ~P".toList = "R(a,,b07)∧~P".toList := by decide
  have hP : withoutBlanks "Pa4294967296".toList = "Pa4294967296".toList := by decide
  have hcomma : withoutBlanks "R(a,7)".toList = "R(a,7)".toList := by decide
  rw [hR] at hspelled
  rw [hP] at hlarge
  rw [hcomma] at hdigit
  exact ⟨hspelled, hlarge, hdigit⟩

end TruthTrees
