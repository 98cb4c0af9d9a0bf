import Mathlib.Data.List.Infix
import TruthTrees.Proofs.Conversion

/-!
# Brackets and atoms in the pass to Polish notation

The pass goes from right to left and holds one list of operators for every pair of brackets that is
still to be opened. So it fails where an end of the row opens more brackets than it closes, and at
the left end if some are never opened. This is the case exactly if the brackets do not match, read
from the left. Atoms never wait, so they come out in the order in which they went in.
-/

namespace TruthTrees

/-- Read from the left, no bracket is closed that has not been opened, and in the end all are
closed. -/
def Balanced (ls : List Lexeme) : Prop :=
  (∀ ps ∈ ls.inits, ps.count .closing ≤ ps.count .opening) ∧
    ls.count .opening = ls.count .closing

instance : DecidablePred Balanced :=
  fun _ => inferInstanceAs (Decidable (_ ∧ _))

/-- Read from the right, no bracket is opened that has not been closed. -/
theorem balanced_iff_suffix {ls : List Lexeme} :
    Balanced ls ↔
      (∀ qs, qs <:+ ls → qs.count .opening ≤ qs.count .closing) ∧
        ls.count .opening = ls.count .closing := by
  have hsplit {ps qs : List Lexeme} (h : ps ++ qs = ls)
      (htotal : ls.count .opening = ls.count .closing) :
      ps.count .opening + qs.count .opening = ps.count .closing + qs.count .closing := by
    rw [← List.count_append, ← List.count_append, h, htotal]
  unfold Balanced
  constructor
  · rintro ⟨hinits, htotal⟩
    refine ⟨?_, htotal⟩
    rintro qs ⟨ps, hps⟩
    have hle := hinits ps ((List.mem_inits _ _).mpr ⟨qs, hps⟩)
    have heq := hsplit hps htotal
    omega
  · rintro ⟨hsuffix, htotal⟩
    refine ⟨?_, htotal⟩
    intro ps hps
    obtain ⟨qs, hqs⟩ := (List.mem_inits _ _).mp hps
    have hle := hsuffix qs ⟨ps, hqs⟩
    have heq := hsplit hqs htotal
    omega

namespace Conversion

variable {l : Lexeme} {ls : List Lexeme} {s s' : Conversion}

/-! ### Brackets -/

theorem next?_eq_none_iff : next? l s = none ↔ l = .opening ∧ s.outer = [] := by
  cases l with
  | closing => simp [next?]
  | opening => cases houter : s.outer <;> simp [next?, houter]
  | token t => cases t <;> simp [next?]

/-- The lists of waiting operators are counted by the brackets that are closed but not opened. -/
theorem length_outer_next? (h : next? l s = some s') :
    s'.outer.length + [l].count .opening = s.outer.length + [l].count .closing := by
  rcases next?_cases h with ⟨rfl, rfl⟩ | ⟨waiting, outer, rfl, houter, rfl⟩ | ⟨t, rfl, -, rfl⟩ |
    ⟨t, rfl, -, rfl⟩
  · rfl
  · simp [houter]
  · simp
  · simp

theorem length_outer_run? (h : run? ls s = some s') :
    s'.outer.length + ls.count .opening = s.outer.length + ls.count .closing := by
  induction ls generalizing s' with
  | nil =>
    cases h
    rfl
  | cons l ls ih =>
    obtain ⟨r, hr, hs'⟩ := Option.bind_eq_some_iff.mp h
    have hstep := length_outer_next? hs'
    have hrest := ih hr
    rw [← List.singleton_append, List.count_append, List.count_append]
    omega

theorem run?_isSome_iff :
    (run? ls s).isSome ↔
      ∀ qs, qs <:+ ls → qs.count .opening ≤ s.outer.length + qs.count .closing := by
  induction ls with
  | nil => simp [run?]
  | cons l ls ih =>
    simp only [List.suffix_cons_iff, forall_eq_or_imp, ← ih, run?_cons]
    cases hr : run? ls s with
    | none => simp
    | some r =>
      have hbalance := length_outer_run? hr
      rw [Option.bind_some, Option.isSome_iff_ne_none, ne_eq, next?_eq_none_iff,
        ← List.length_eq_zero_iff]
      cases l with
      | closing =>
        rw [List.count_cons_of_ne (by decide), List.count_cons_self]
        simp only [reduceCtorEq, false_and, not_false_eq_true, Option.isSome_some, and_true,
          true_iff]
        omega
      | opening =>
        rw [List.count_cons_self, List.count_cons_of_ne (by decide)]
        simp only [true_and, Option.isSome_some, and_true]
        omega
      | token t =>
        rw [List.count_cons_of_ne (by simp), List.count_cons_of_ne (by simp)]
        simp only [reduceCtorEq, false_and, not_false_eq_true, Option.isSome_some, and_true,
          true_iff]
        omega

theorem finish?_isSome_iff : s.finish?.isSome ↔ s.outer = [] := by
  cases houter : s.outer <;> simp [finish?, houter]

/-! ### Atoms -/

def atoms (s : Conversion) : List Token :=
  s.output.filter Token.isAtom

def OperatorsWait (s : Conversion) : Prop :=
  ∀ t ∈ s.waiting ++ s.outer.flatten, t.isAtom = false

theorem filter_isAtom_of_subset (hs : s.OperatorsWait) {ts : List Token}
    (hts : ts ⊆ s.waiting) : ts.reverse.filter Token.isAtom = [] := by
  rw [List.filter_eq_nil_iff]
  intro t ht
  rw [hs t (List.mem_append_left _ (hts (List.mem_reverse.mp ht)))]
  exact Bool.false_ne_true

theorem operatorsWait_next? (hs : s.OperatorsWait) (h : next? l s = some s') :
    s'.OperatorsWait := by
  rcases next?_cases h with ⟨rfl, rfl⟩ | ⟨waiting, outer, rfl, houter, rfl⟩ | ⟨t, rfl, -, rfl⟩ |
    ⟨t, rfl, hoperator, rfl⟩
  · simpa [OperatorsWait] using hs
  · intro u hu
    apply hs u
    rw [houter]
    exact List.mem_append_right _ hu
  · exact hs
  · intro u hu
    rcases List.mem_cons.mp hu with rfl | hu
    · exact hoperator
    · refine hs u (List.mem_append.mpr ?_)
      exact (List.mem_append.mp hu).imp_left fun hwaits => List.dropWhile_subset _ hwaits

theorem atoms_next? (hs : s.OperatorsWait) (h : next? l s = some s') :
    s'.atoms = l.token?.toList.filter Token.isAtom ++ s.atoms := by
  rcases next?_cases h with ⟨rfl, rfl⟩ | ⟨waiting, outer, rfl, houter, rfl⟩ | ⟨t, rfl, hatom, rfl⟩ |
    ⟨t, rfl, hoperator, rfl⟩
  · rfl
  · simp only [atoms, List.filter_append, filter_isAtom_of_subset hs (List.Subset.refl _)]
    rfl
  · simp [atoms, Lexeme.token?, hatom]
  · simp only [atoms, List.filter_append, filter_isAtom_of_subset hs (List.takeWhile_subset _)]
    simp [Lexeme.token?, hoperator]

theorem atoms_run? (hs : s.OperatorsWait) (h : run? ls s = some s') :
    s'.OperatorsWait ∧
      s'.atoms = (ls.filterMap Lexeme.token?).filter Token.isAtom ++ s.atoms := by
  induction ls generalizing s' with
  | nil =>
    cases h
    exact ⟨hs, rfl⟩
  | cons l ls ih =>
    obtain ⟨r, hr, hs'⟩ := Option.bind_eq_some_iff.mp h
    obtain ⟨hwait, hatoms⟩ := ih hr
    refine ⟨operatorsWait_next? hwait hs', ?_⟩
    rw [atoms_next? hwait hs', hatoms, ← List.append_assoc, ← List.filter_append]
    cases l <;> rfl

end Conversion

/-! ### The whole pass -/

theorem toPolish?_isSome_iff {ls : List Lexeme} : (toPolish? ls).isSome ↔ Balanced ls := by
  have houter : Conversion.start.outer.length = 0 := rfl
  have hrun := @Conversion.run?_isSome_iff ls .start
  simp only [houter, Nat.zero_add] at hrun
  rw [balanced_iff_suffix, ← hrun, Conversion.toPolish?_eq]
  cases hs : Conversion.run? ls .start with
  | none => simp
  | some s =>
    have hbalance := Conversion.length_outer_run? hs
    rw [Option.bind_some, Conversion.finish?_isSome_iff, ← List.length_eq_zero_iff]
    simp only [Option.isSome_some, true_and]
    omega

theorem filter_isAtom_of_toPolish? {ls : List Lexeme} {ts : List Token}
    (h : toPolish? ls = some ts) :
    ts.filter Token.isAtom = (ls.filterMap Lexeme.token?).filter Token.isAtom := by
  obtain ⟨s, hs, hts⟩ := Option.bind_eq_some_iff.mp h
  have hstart : Conversion.start.OperatorsWait := by
    intro t ht
    cases ht
  obtain ⟨hwait, hatoms⟩ := Conversion.atoms_run? hstart hs
  unfold Conversion.finish? at hts
  split at hts
  · cases hts
    rw [List.filter_append, Conversion.filter_isAtom_of_subset hwait (List.Subset.refl _)]
    simpa [Conversion.atoms, Conversion.start] using hatoms
  · cases hts

/-- The pass to Polish notation fails exactly on rows in which the brackets do not match, and then
names the whole row. On all others, whether they write a formula or not, it puts out the tokens in
another order, in which the atoms follow each other as before. -/
theorem toPolish_rearranges (ls : List Lexeme) :
    (∀ fault, toPolish ls = .error fault ↔ fault = .unbalanced ls ∧ ¬Balanced ls) ∧
    (Balanced ls → ∃ ts, toPolish ls = .ok ts ∧ ts.Perm (ls.filterMap Lexeme.token?) ∧
      ts.filter Token.isAtom = (ls.filterMap Lexeme.token?).filter Token.isAtom) := by
  rw [← toPolish?_isSome_iff]
  unfold toPolish
  cases hts : toPolish? ls with
  | none => simp [eq_comm]
  | some ts =>
    have hperm := Conversion.perm_of_toPolish? hts
    have hatoms := filter_isAtom_of_toPolish? hts
    exact ⟨by simp, fun _ => ⟨ts, rfl, hperm, hatoms⟩⟩

/-- The lexemes of `&(P~)Q`, with every operator in a wrong place. -/
def misplaced : List Lexeme :=
  [.token (.bin .conj), .opening, .token (.atom 'P' []), .token .neg, .closing,
    .token (.atom 'Q' [])]

/-- The lexemes of `)P(`, with as many opening as closing brackets. -/
def crossed : List Lexeme :=
  [.closing, .token (.atom 'P' []), .opening]

/-- Wrong places do not matter as long as the brackets match. -/
theorem toPolish_rearranges_misplaced :
    let ts : List Token := [.bin .conj, .neg, .atom 'P' [], .atom 'Q' []]
    Balanced misplaced ∧ toPolish misplaced = .ok ts ∧
      ts.Perm (misplaced.filterMap Lexeme.token?) ∧
      ts.filter Token.isAtom = [.atom 'P' [], .atom 'Q' []] ∧
      ¬Balanced crossed ∧ toPolish crossed = .error (.unbalanced crossed) := by
  intro ts
  have hbalanced : Balanced misplaced := by decide
  have hcrossed : ¬Balanced crossed := by decide
  have hts : toPolish misplaced = .ok ts := by rfl
  obtain ⟨us, hus, hperm, hatoms⟩ := (toPolish_rearranges misplaced).2 hbalanced
  obtain rfl : ts = us := Except.ok.inj (hts.symm.trans hus)
  exact ⟨hbalanced, hts, hperm, hatoms, hcrossed,
    ((toPolish_rearranges crossed).1 _).mpr ⟨rfl, hcrossed⟩⟩

end TruthTrees
