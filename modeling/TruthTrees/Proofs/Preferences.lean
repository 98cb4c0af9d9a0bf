import TruthTrees.Proofs.Choice
import TruthTrees.Proofs.Rules

/-!
# Kinds of rules and preferences

The kind of a formula, its rule and the literals are told by three case distinctions over the
outermost signs. They agree, and for every kind that has a rule there is a preference of its own. So
a formula that could be taken up by the last preference, which asks for nothing, has always been
taken up by an earlier one.
-/

namespace TruthTrees

theorem Formula.ruleKind_eq_literal_iff {f : Formula} : f.ruleKind = .literal ↔ f.isLiteral := by
  cases f with
  | atom p ts => simp [ruleKind, isLiteral]
  | neg f =>
    cases f with
    | bin c l r => cases c <;> simp [ruleKind, RuleKind.ofNegated, isLiteral]
    | _ => simp [ruleKind, RuleKind.ofNegated, isLiteral]
  | bin c l r => cases c <;> simp [ruleKind, isLiteral]
  | quant q v body => cases q <;> simp [ruleKind, isLiteral]

theorem Tree.ruleFor?_eq_none_iff {t : Tree} {id : NodeId} {f : Formula} :
    t.ruleFor? id f = none ↔ f.isLiteral := by
  constructor
  · intro hnone
    by_contra hlit
    obtain ⟨a, ha⟩ := t.exists_ruleFor? id (eq_false_of_ne_true hlit)
    rw [hnone] at ha
    cases ha
  · intro hlit
    rw [Option.eq_none_iff_forall_ne_some]
    intro a ha
    rw [isLiteral_eq_false_of_rule ha] at hlit
    cases hlit

theorem Tree.exists_rule_of_ruleKind (t : Tree) (id : NodeId) {f : Formula} {kind : RuleKind}
    (hkind : f.ruleKind = kind) (hrule : kind ≠ .literal) : ∃ a, t.ruleFor? id f = some a := by
  apply t.exists_ruleFor? id
  rw [← Bool.not_eq_true, ← Formula.ruleKind_eq_literal_iff, hkind]
  exact hrule

/-! ### The last preference -/

def Preference.demanding : List Preference :=
  [contradiction, quantifierNegation, nonBranching, existential, universal, branching]

theorem Preference.exists_holds (t : Tree) (id : NodeId) {f : Formula} (hf : f.isLiteral = false) :
    ∃ p ∈ demanding, p.holds t id f := by
  cases hkind : f.ruleKind with
  | literal =>
    rw [Formula.ruleKind_eq_literal_iff, hf] at hkind
    cases hkind
  | quantifierNegation => exact ⟨quantifierNegation, by decide, by simp [holds, hkind]⟩
  | linear => exact ⟨nonBranching, by decide, by simp [holds, hkind]⟩
  | split => exact ⟨branching, by decide, by simp [holds, hkind]⟩
  | existential => exact ⟨existential, by decide, by simp [holds, hkind]⟩
  | universal => exact ⟨universal, by decide, by simp [holds, hkind]⟩

namespace Tree

variable {t : Tree}

theorem isProductive_of_holds {p p' : Preference} {q : NodeId × Formula}
    (h : t.isProductive p q) (hholds : p'.holds t q.1 q.2) : t.isProductive p' q := by
  simp only [isProductive, Bool.and_eq_true] at h ⊢
  exact ⟨⟨h.1.1, hholds⟩, h.2⟩

theorem exists_isProductive_of_wildcard {q : NodeId × Formula}
    (h : t.isProductive .wildcard q) : ∃ p ∈ Preference.demanding, t.isProductive p q := by
  have hlit : q.2.isLiteral = false := by
    simp only [isProductive, Preference.holds, Bool.and_eq_true, Bool.not_eq_true'] at h
    exact h.1.2
  obtain ⟨p, hp, hholds⟩ := Preference.exists_holds t q.1 hlit
  exact ⟨p, hp, isProductive_of_holds h hholds⟩

theorem mem_of_choiceBy? {ps : List Preference} {p : Preference} {q : NodeId × Formula}
    (h : t.choiceBy? ps = some (p, q)) : p ∈ ps := by
  obtain ⟨p', hp', hfound⟩ := List.exists_of_findSome?_eq_some h
  obtain ⟨q', -, hq'⟩ := Option.map_eq_some_iff.mp hfound
  cases hq'
  exact hp'

theorem choice?_eq_choiceBy?_demanding (t : Tree) :
    t.choice? = t.choiceBy? Preference.demanding := by
  have hall : Preference.all = Preference.demanding ++ [.wildcard] := rfl
  rw [choice?, choiceBy?, hall, List.findSome?_append, ← choiceBy?, ← choiceBy?]
  cases hchoice : t.choiceBy? Preference.demanding with
  | some choice => rfl
  | none =>
    rw [Option.none_or, choiceBy?_eq_none_iff]
    intro p hp q hq
    obtain rfl := List.mem_singleton.mp hp
    by_contra hprod
    obtain ⟨p, hp, hstronger⟩ := exists_isProductive_of_wildcard (eq_true_of_ne_false hprod)
    rw [choiceBy?_eq_none_iff.mp hchoice p hp q hq] at hstronger
    cases hstronger

end Tree

namespace Prover

theorem step_ne_wildcard {s : Prover} (hl : s.tree.Linked) : s.step.2 ≠ some .wildcard := by
  cases hchoice : s.tree.choice? with
  | none =>
    rw [(step_of_choice?_eq_none hl hchoice).1]
    exact (Option.some_ne_none _).symm
  | some choice =>
    obtain ⟨p, id, f⟩ := choice
    rw [(step_of_choice?_eq_some hl hchoice).1]
    rintro ⟨⟩
    rw [Tree.choice?_eq_choiceBy?_demanding] at hchoice
    exact absurd (Tree.mem_of_choiceBy? hchoice) (by decide)

theorem count_wildcard_after (premises : List Formula) (conclusion : Formula) (n : Nat) :
    (after n (start premises conclusion)).stats.count .wildcard = 0 := by
  induction n with
  | zero => rfl
  | succ n ih =>
    have hl := (reachable_after premises conclusion n).linked
    rw [after, count_step, ih, if_neg (step_ne_wildcard hl)]

/-- Literals, kinds and rules agree for every formula, wherever it stands: those without a rule are
the literals, those with two branches are of the split kind, and those that are not done with
afterwards are universal. The last preference, for anything that has a rule, is therefore never what
a node is added by, in any search and after any number of steps. -/
theorem rule_tables_agree :
    (∀ (t : Tree) (id : NodeId) (f : Formula),
      (f.ruleKind = .literal ↔ f.isLiteral) ∧
      (f.ruleKind = .literal ↔ t.ruleFor? id f = none) ∧
      (f.ruleKind = .split ↔ ∃ a, t.ruleFor? id f = some a ∧ ∃ l r, a.expansion = .split l r) ∧
      (f.ruleKind = .universal ↔ ∃ a, t.ruleFor? id f = some a ∧ a.ticks = false)) ∧
    Preference.all[6]? = some .wildcard ∧
    ∀ premises conclusion n, (after n (start premises conclusion)).stats.counts[6]? = some 0 := by
  refine ⟨?_, rfl, ?_⟩
  · intro t id f
    refine ⟨Formula.ruleKind_eq_literal_iff, ?_, ?_, ?_⟩
    · rw [Formula.ruleKind_eq_literal_iff, Tree.ruleFor?_eq_none_iff]
    · constructor
      · intro hkind
        obtain ⟨a, ha⟩ := t.exists_rule_of_ruleKind id hkind (by decide)
        exact ⟨a, ha, (Tree.isSplit_iff ha).mpr hkind⟩
      · rintro ⟨a, ha, hsplit⟩
        exact (Tree.isSplit_iff ha).mp hsplit
    · constructor
      · intro hkind
        obtain ⟨a, ha⟩ := t.exists_rule_of_ruleKind id hkind (by decide)
        exact ⟨a, ha, by simpa [hkind] using Tree.ticks_iff ha⟩
      · rintro ⟨a, ha, hticks⟩
        simpa [hticks] using Tree.ticks_iff ha
  · intro premises conclusion n
    exact congrArg some (count_wildcard_after premises conclusion n)

/-- The search from `¬∀x Fx`, `P ∧ Q`, `∀x Gx`, `R ∨ S` and twice `¬R ∧ ¬S` as alternatives to
`T`. -/
def varied : Prover :=
  let x := Term.candidate 23
  let neither : Formula := .bin .conj (.neg (.atom 'R' [])) (.neg (.atom 'S' []))
  start [.neg (.quant .universal x (.atom 'F' [x])), .bin .conj (.atom 'P' []) (.atom 'Q' []),
    .quant .universal x (.atom 'G' [x]), .bin .disj (.atom 'R' []) (.atom 'S' []),
    .bin .disj neither neither] (.atom 'T' [])

/-- All preferences but the last add nodes in this search. -/
theorem varied_counts :
    (after 10 varied).stats.counts = [4, 1, 1, 1, 1, 2, 0] ∧
      ∀ n, (after n varied).stats.counts[6]? = some 0 := by
  refine ⟨by decide +kernel, ?_⟩
  intro n
  exact rule_tables_agree.2.2 _ _ n

end Prover

end TruthTrees
