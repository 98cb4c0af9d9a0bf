import TruthTrees.Text.Reading
import TruthTrees.Text.Spelling

/-!
# Scanning what is spelled out

A row of lexemes that is spelled out is split into the same lexemes again. No lexeme is spelled with
a small letter or a digit at its beginning, so a run of terms and the digits of an index end where
the next lexeme begins, and an opening bracket that is a lexeme of its own is not taken for the
start of a list of terms.
-/

namespace TruthTrees

/-! ### Characters -/

theorem isUpper_iff {c : Char} : c.isUpper ↔ 65 ≤ c.toNat ∧ c.toNat ≤ 90 := by
  change decide ('A'.val ≤ c.val ∧ c.val ≤ 'Z'.val) ↔ _
  simp [UInt32.le_iff_toNat_le]

theorem isLower_iff {c : Char} : c.isLower ↔ 97 ≤ c.toNat ∧ c.toNat ≤ 122 := by
  change decide ('a'.val ≤ c.val) && decide (c.val ≤ 'z'.val) ↔ _
  simp [UInt32.le_iff_toNat_le]

theorem isDigit_iff {c : Char} : c.isDigit ↔ 48 ≤ c.toNat ∧ c.toNat ≤ 57 := by
  change decide ('0'.val ≤ c.val) && decide (c.val ≤ '9'.val) ↔ _
  simp [UInt32.le_iff_toNat_le]

theorem takeWhile_append_stop {α : Type _} {p : α → Bool} {xs ys : List α} (hxs : ∀ x ∈ xs, p x)
    (hys : ∀ y ∈ ys.head?, p y = false) : (xs ++ ys).takeWhile p = xs := by
  rw [List.takeWhile_append_of_pos hxs]
  cases ys with
  | nil => simp
  | cons y ys => simp [hys y rfl]

/-- A text is cut at the first occurrence of a mark in one way only. -/
theorem append_mark_inj {m : Char} {v w xs ys : List Char} (hv : m ∉ v) (hw : m ∉ w)
    (h : v ++ m :: xs = w ++ m :: ys) : v = w ∧ xs = ys := by
  have htake {u : List Char} (hu : m ∉ u) (zs : List Char) :
      (u ++ m :: zs).takeWhile (fun c => c ≠ m) = u := by
    apply takeWhile_append_stop
    · intro c hc
      simpa using ne_of_mem_of_not_mem hc hu
    · simp
  have hvw : v = w := by rw [← htake hv xs, h, htake hw ys]
  subst hvw
  exact ⟨rfl, (List.cons.inj (List.append_cancel_left h)).2⟩

namespace Term

theorem isLower_letterChar (t : Term) : t.letterChar.isLower := by
  have h : ∀ l : Fin 26, (Char.ofNat (97 + l)).isLower := by decide
  exact h t.letter

theorem letter?_of_isDigit {c : Char} (h : c.isDigit) : letter? c = none := by
  have hc := isDigit_iff.mp h
  rw [letter?, dif_neg]
  omega

theorem index?_of_ofDigitChars {digits : List Char} {i : UInt32}
    (h : Nat.ofDigitChars 10 digits 0 = i.toNat) : index? digits = some i := by
  simp [index?, h, i.toNat_lt_size]

end Term

namespace Lexeme

/-- Neither does a run of terms go on at the start of the text, nor does a list of terms begin
there. -/
structure Apart (cs : List Char) : Prop where
  head : ∀ c ∈ cs.head?, isTermChar c = false
  listed : listed? cs = none

theorem isTermChar_of_isUpper {c : Char} (h : c.isUpper) : isTermChar c = false := by
  have hc := isUpper_iff.mp h
  rw [← Bool.not_eq_true, isTermChar, Bool.or_eq_true, isLower_iff, isDigit_iff]
  omega

theorem startsWithLetter_eq_false {cs : List Char} (h : ∀ c ∈ cs.head?, isTermChar c = false) :
    startsWithLetter cs = false := by
  cases cs with
  | nil => rfl
  | cons c cs =>
    have hc := h c rfl
    rw [isTermChar, Bool.or_eq_false_iff] at hc
    simpa [startsWithLetter] using hc.1

theorem listed?_cons_of_ne {c : Char} (h : c ≠ '(') (cs : List Char) :
    listed? (c :: cs) = none := by
  unfold listed?
  split
  · next heq =>
    cases heq
    exact absurd rfl h
  · rfl

theorem listed?_opening {cs : List Char} (h : ∀ c ∈ cs.head?, isTermChar c = false) :
    listed? ('(' :: cs) = none := by
  have hstart : startsWithLetter (cs.takeWhile isListChar) = false := by
    apply startsWithLetter_eq_false
    intro c hc
    cases cs with
    | nil => cases hc
    | cons d cs =>
      rw [List.takeWhile_cons] at hc
      split at hc
      · exact h c hc
      · cases hc
  simp [listed?, hstart]

/-! ### Terms -/

theorem termAt_append {t : Term} {digits cs : List Char} (hdigits : ∀ d ∈ digits, d.isDigit)
    (hindex : Nat.ofDigitChars 10 digits 0 = t.index.toNat)
    (hcs : ∀ c ∈ cs.head?, c.isDigit = false) : termAt t.letter (digits ++ cs) = .ok t := by
  simp [termAt, takeWhile_append_stop hdigits hcs, Term.index?_of_ofDigitChars hindex]

theorem terms_digits_append {digits : List Char} (h : ∀ d ∈ digits, d.isDigit) (cs : List Char) :
    terms false (digits ++ cs) = terms false cs := by
  induction digits with
  | nil => rfl
  | cons d digits ih =>
    obtain ⟨hd, hdigits⟩ := List.forall_mem_cons.mp h
    have hcomma : d ≠ ',' := by
      rintro rfl
      cases hd
    simp [terms, Term.letter?_of_isDigit hd, hcomma, ih hdigits]

theorem exists_terms_commas_append (n : Nat) (afterComma : Bool) (cs : List Char) :
    ∃ after, terms afterComma (List.replicate n ',' ++ cs) = terms after cs := by
  induction n generalizing afterComma with
  | zero => exact ⟨afterComma, rfl⟩
  | succ n ih => exact ih true

end Lexeme

theorem SpelledInList.head {ts : List Term} {w : List Char} (h : SpelledInList ts w) :
    ∀ c ∈ w.head?, c.isLower := by
  cases h with
  | nil =>
    intro c hc
    cases hc
  | @cons t _ _ _ _ ht _ =>
    obtain ⟨digits, rfl, -, -⟩ := ht
    intro c hc
    cases hc
    exact t.isLower_letterChar

theorem SpelledInList.head_commas {ts : List Term} {w : List Char} (h : SpelledInList ts w)
    (commas : Nat) : ∀ c ∈ (List.replicate commas ',' ++ w).head?, c.isDigit = false := by
  intro c hc
  cases commas with
  | zero =>
    have hlower := isLower_iff.mp (h.head c hc)
    rw [← Bool.not_eq_true, isDigit_iff]
    omega
  | succ n =>
    cases hc
    rfl

theorem SpelledInList.terms_eq {ts : List Term} {w : List Char} (h : SpelledInList ts w)
    (afterComma : Bool) : Lexeme.terms afterComma w = .ok ts := by
  induction h generalizing afterComma with
  | nil => rfl
  | @cons t ts w cs commas ht hts ih =>
    obtain ⟨digits, rfl, hdigits, hindex⟩ := ht
    have hstop := hts.head_commas commas
    obtain ⟨after, hafter⟩ := Lexeme.exists_terms_commas_append commas false cs
    have hrest : Lexeme.terms false (digits ++ (List.replicate commas ',' ++ cs)) = .ok ts := by
      rw [Lexeme.terms_digits_append hdigits, hafter, ih]
    simp only [List.cons_append, List.append_assoc, Lexeme.terms, t.letter?_letterChar,
      Lexeme.termAt_append hdigits hindex hstop, hrest]
    rfl

theorem SpelledInRow.spelledInList {ts : List Term} {w : List Char} (h : SpelledInRow ts w) :
    SpelledInList ts w := by
  induction h with
  | nil => exact .nil
  | cons ht _ ih =>
    have hcons := SpelledInList.cons 0 ht ih
    rwa [List.replicate_zero, List.append_nil] at hcons

theorem Term.SpelledAs.isTermChar {t : Term} {w : List Char} (h : t.SpelledAs w) :
    ∀ c ∈ w, Lexeme.isTermChar c := by
  obtain ⟨digits, rfl, hdigits, -⟩ := h
  intro c hc
  rcases List.mem_cons.mp hc with rfl | hc
  · simp [Lexeme.isTermChar, t.isLower_letterChar]
  · simp [Lexeme.isTermChar, hdigits c hc]

theorem SpelledInRow.isTermChar {ts : List Term} {w : List Char} (h : SpelledInRow ts w) :
    ∀ c ∈ w, Lexeme.isTermChar c := by
  induction h with
  | nil => simp
  | cons ht _ ih =>
    intro c hc
    exact (List.mem_append.mp hc).elim (ht.isTermChar c) (ih c)

theorem SpelledInList.isListChar {ts : List Term} {w : List Char} (h : SpelledInList ts w) :
    ∀ c ∈ w, Lexeme.isListChar c := by
  induction h with
  | nil => simp
  | cons commas ht _ ih =>
    intro c hc
    rw [List.mem_append, List.mem_append] at hc
    rcases hc with (hc | hc) | hc
    · simp [Lexeme.isListChar, ht.isTermChar c hc]
    · rw [List.eq_of_mem_replicate hc]
      rfl
    · exact ih c hc

theorem SpelledInList.startsWithLetter {ts : List Term} {w : List Char} (h : SpelledInList ts w)
    (hne : ts ≠ []) (cs : List Char) : Lexeme.startsWithLetter (w ++ cs) := by
  cases h with
  | nil => exact absurd rfl hne
  | @cons t _ _ _ _ ht _ =>
    obtain ⟨digits, rfl, -, -⟩ := ht
    simp [Lexeme.startsWithLetter, t.isLower_letterChar]

namespace Lexeme

theorem listed?_of_startsWithLetter {cs : List Char} (h : startsWithLetter cs) :
    listed? cs = none := by
  cases cs with
  | nil => cases h
  | cons c cs =>
    refine listed?_cons_of_ne ?_ cs
    rintro rfl
    cases h

/-- A run of terms ends where the next lexeme begins. -/
theorem applied_row {p : Char} {ts : List Term} {w cs : List Char} (h : SpelledInRow ts w)
    (hcs : Apart cs) : applied p (w ++ cs) = .ok (token (.atom p ts), w.length) := by
  have hrun : listed? (w ++ cs) = none ∧ run (w ++ cs) = w := by
    by_cases hts : ts = []
    · subst hts
      cases h
      exact ⟨hcs.listed, by simp [run, startsWithLetter_eq_false hcs.head]⟩
    · have hstart := h.spelledInList.startsWithLetter hts cs
      refine ⟨listed?_of_startsWithLetter hstart, ?_⟩
      rw [run, if_pos hstart, takeWhile_append_stop h.isTermChar hcs.head]
  simp only [applied, hrun, h.spelledInList.terms_eq]
  rfl

theorem applied_list {p : Char} {ts : List Term} {w : List Char} (h : SpelledInList ts w)
    (hne : ts ≠ []) (cs : List Char) :
    applied p ('(' :: (w ++ ')' :: cs)) = .ok (token (.atom p ts), w.length + 2) := by
  have hinside : (w ++ ')' :: cs).takeWhile isListChar = w := by
    refine takeWhile_append_stop h.isListChar ?_
    intro c hc
    cases hc
    rfl
  have hstart : startsWithLetter w := by
    have := h.startsWithLetter hne []
    rwa [List.append_nil] at this
  have hlisted : listed? ('(' :: (w ++ ')' :: cs)) = some w := by
    simp [listed?, hinside, hstart]
  simp only [applied, hlisted, h.terms_eq]
  rfl

theorem quantified_append {q : Quantifier} {v : Term} {w cs : List Char} (h : v.SpelledAs w)
    (hcs : Apart cs) : quantified q (w ++ cs) = .ok (token (.quant q v), w.length) := by
  obtain ⟨digits, rfl, hdigits, hindex⟩ := h
  have hstop : ∀ c ∈ cs.head?, c.isDigit = false := by
    intro c hc
    exact (Bool.or_eq_false_iff.mp (hcs.head c hc)).2
  simp only [List.cons_append, quantified, v.letter?_letterChar,
    termAt_append hdigits hindex hstop, takeWhile_append_stop hdigits hstop]
  rfl

/-! ### Single lexemes -/

theorem first_of_isUpper {p : Char} (hp : p.isUpper) (cs : List Char) :
    first p cs = applied p cs := by
  have hne : ∀ {c : Char}, c.isUpper = false → p ≠ c := by
    rintro c hc rfl
    rw [hp] at hc
    cases hc
  have hneg : Negation.isSign p = false := by
    simp [Negation.isSign, hne (c := Negation.plain) rfl, hne (c := Negation.pretty) rfl]
  have hbin : Connective.ofSign? p = none := by
    rw [Connective.ofSign?, List.find?_eq_none]
    intro b _
    have hplain : p ≠ b.plain := hne (by cases b <;> rfl)
    have hpretty : p ≠ b.pretty := hne (by cases b <;> rfl)
    simp [hplain, hpretty]
  have hquant : Quantifier.ofSign? p = none := by
    rw [Quantifier.ofSign?, List.find?_eq_none]
    intro q _
    have hplain : p ≠ q.plain := hne (by cases q <;> rfl)
    have hpretty : p ≠ q.pretty := hne (by cases q <;> rfl)
    simp [hplain, hpretty]
  simp [first, hneg, hbin, hquant, hp]

/-- A lexeme begins with a character that is in no term, and with an opening bracket only if it is
one. -/
theorem SpelledAs.eq_cons {l : Lexeme} {w : List Char} (h : l.SpelledAs w) :
    ∃ c cs, w = c :: cs ∧ isTermChar c = false ∧ (c = '(' → cs = []) := by
  cases h with
  | opening => exact ⟨_, _, rfl, rfl, fun _ => rfl⟩
  | closing => exact ⟨_, _, rfl, rfl, fun _ => rfl⟩
  | neg h => rcases h with rfl | rfl <;> exact ⟨_, _, rfl, rfl, fun _ => rfl⟩
  | @bin b c h => rcases h with rfl | rfl <;> cases b <;> exact ⟨_, _, rfl, rfl, fun _ => rfl⟩
  | @quant q v c w h hv =>
    refine ⟨c, w, rfl, ?_, ?_⟩
    · rcases h with rfl | rfl <;> cases q <;> rfl
    · rcases h with rfl | rfl <;> cases q <;> intro hc <;> cases hc
  | row hp _ =>
    refine ⟨_, _, rfl, isTermChar_of_isUpper hp, ?_⟩
    rintro rfl
    cases hp
  | list hp _ _ =>
    refine ⟨_, _, rfl, isTermChar_of_isUpper hp, ?_⟩
    rintro rfl
    cases hp

theorem first_append {l : Lexeme} {c : Char} {w cs : List Char} (h : l.SpelledAs (c :: w))
    (hcs : Apart cs) : first c (w ++ cs) = .ok (l, w.length) := by
  cases h with
  | opening => rfl
  | closing => rfl
  | neg h => rcases h with rfl | rfl <;> rfl
  | @bin b _ h => rcases h with rfl | rfl <;> cases b <;> rfl
  | @quant q v _ _ h hv =>
    rw [← quantified_append hv hcs]
    rcases h with rfl | rfl <;> cases q <;> rfl
  | row hp h => rw [first_of_isUpper hp, applied_row h hcs]
  | @list _ ts w hp hne h =>
    have happ := applied_list (p := c) h hne cs
    rw [first_of_isUpper hp]
    simpa using happ

end Lexeme

/-! ### Rows of lexemes -/

theorem SpelledOut.head {ls : List Lexeme} {cs : List Char} (h : SpelledOut ls cs) :
    ∀ c ∈ cs.head?, Lexeme.isTermChar c = false := by
  cases h with
  | nil =>
    intro c hc
    cases hc
  | cons hl _ =>
    obtain ⟨d, w, rfl, hd, -⟩ := hl.eq_cons
    intro c hc
    cases hc
    exact hd

theorem SpelledOut.apart {ls : List Lexeme} {cs : List Char} (h : SpelledOut ls cs) :
    Lexeme.Apart cs := by
  refine ⟨h.head, ?_⟩
  cases h with
  | nil => rfl
  | cons hl hls =>
    obtain ⟨c, w, rfl, -, hbracket⟩ := hl.eq_cons
    by_cases hc : c = '('
    · subst hc
      rw [hbracket rfl]
      exact Lexeme.listed?_opening hls.head
    · exact Lexeme.listed?_cons_of_ne hc _

theorem SpelledOut.scan_eq {ls : List Lexeme} {cs : List Char} (h : SpelledOut ls cs) :
    Lexeme.scan cs = .ok ls := by
  induction h with
  | nil => rfl
  | @cons l ls w cs hl hls ih =>
    obtain ⟨c, w, rfl, -, -⟩ := hl.eq_cons
    have hrest : Lexeme.scanFrom w.length (w ++ cs) = .ok ls := by
      rw [Lexeme.scanFrom_eq_scan_drop, List.drop_left, ih]
    simp only [Lexeme.scan, List.cons_append, Lexeme.scanFrom,
      Lexeme.first_append hl hls.apart, bind, Except.bind, hrest]
    rfl

/-- Blanks may stand anywhere. -/
theorem lexemes_of_spelledOut {ls : List Lexeme} {text : List Char}
    (h : SpelledOut ls (withoutBlanks text)) : lexemes text = .ok ls := by
  simp only [lexemes, h.scan_eq]

end TruthTrees
