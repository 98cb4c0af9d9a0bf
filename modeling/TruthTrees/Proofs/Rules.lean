import Mathlib.Tactic.Tauto
import TruthTrees.Language.Truth
import TruthTrees.Search.Rule

/-!
# What the rules do

A sentential rule replaces a formula by an expansion that says the same. All rules lead to simpler
formulae, if a negation counts for a little, and all of them are final except the one for
universal formulae.
-/

namespace TruthTrees

universe u

variable {D : Type u}

namespace Expansion

@[simp] theorem branches_linear (b : List Formula) : (linear b).branches = [b] := by
  simp [branches, sides]

@[simp] theorem branches_split (l r : List Formula) : (split l r).branches = [l, r] := by
  simp [branches, sides]

def Holds (e : Expansion) (I : Interpretation D) : Prop :=
  ∃ b ∈ e.branches, ∀ f ∈ b, f.Holds I

@[simp] theorem holds_linear {b : List Formula} {I : Interpretation D} :
    (linear b).Holds I ↔ ∀ f ∈ b, f.Holds I := by
  simp [Holds]

@[simp] theorem holds_split {l r : List Formula} {I : Interpretation D} :
    (split l r).Holds I ↔ (∀ f ∈ l, f.Holds I) ∨ ∀ f ∈ r, f.Holds I := by
  simp [Holds]

end Expansion

theorem Quantifier.ranges_dual_not {q : Quantifier} {p : D → Prop} :
    (q.dual.Ranges fun d => ¬p d) ↔ ¬q.Ranges p := by
  cases q with
  | universal => exact not_forall.symm
  | existential => exact not_exists.symm

namespace Formula

theorem eq_quant_of_ruleKind {f : Formula}
    (h : f.ruleKind = .universal ∨ f.ruleKind = .existential) : ∃ q v body, f = quant q v body := by
  cases f with
  | atom p ts => simp [ruleKind] at h
  | neg f =>
    cases f with
    | bin c l r => cases c <;> simp [ruleKind, RuleKind.ofNegated] at h
    | _ => simp [ruleKind, RuleKind.ofNegated] at h
  | bin c l r => cases c <;> simp [ruleKind] at h
  | quant q v body => exact ⟨q, v, body, rfl⟩

theorem size_pos (f : Formula) : 0 < f.size := by
  cases f <;> exact Nat.succ_pos _

/-- The size, in which an outermost negation counts a little more than other signs. -/
def rank : Formula → Nat
  | neg f => 2 * (neg f).size + 1
  | f => 2 * f.size

theorem rank_neg (f : Formula) : (neg f).rank = 2 * f.size + 3 := by
  simp only [rank, size]
  omega

theorem rank_le (f : Formula) : f.rank ≤ 2 * f.size + 1 := by
  cases f <;> simp [rank]

theorem rank_bin (c : Connective) (l r : Formula) :
    (bin c l r).rank = 2 * (l.size + r.size + 1) := rfl

theorem rank_quant (q : Quantifier) (v : Term) (f : Formula) :
    (quant q v f).rank = 2 * (f.size + 1) := rfl

theorem rank_substitute_lt (q : Quantifier) (v : Term) (f : Formula) (c : Term) :
    (f.substitute v c).rank < (quant q v f).rank := by
  have hle := (f.substitute v c).rank_le
  rw [size_substitute] at hle
  rw [rank_quant]
  omega

end Formula

namespace Tree

variable {t : Tree} {id : NodeId} {f : Formula} {a : Application}

/-! ### Truth -/

section Truth

variable {I : Interpretation D}

theorem holds_ruleForNegated?_iff (hrule : ruleForNegated? f = some a) :
    a.expansion.Holds I ↔ ¬f.Holds I := by
  cases f with
  | atom p ts => cases hrule
  | neg f =>
    cases hrule
    simp [Application.linear, Formula.Holds]
  | bin c l r =>
    cases c <;> cases hrule <;>
      simp [Application.linear, Application.split, Formula.Holds, Connective.Joins] <;> tauto
  | quant q v f =>
    cases hrule
    simp [Application.linear, Formula.Holds, Quantifier.ranges_dual_not]

/-- A sentential rule does not change what is said. -/
theorem holds_ruleFor?_iff (hrule : t.ruleFor? id f = some a)
    (hf : ∀ q v body, f ≠ .quant q v body) : a.expansion.Holds I ↔ f.Holds I := by
  cases f with
  | atom p ts => cases hrule
  | neg f => exact holds_ruleForNegated?_iff hrule
  | bin c l r =>
    cases c <;> cases hrule <;>
      simp [Application.linear, Application.split, Formula.Holds, Connective.Joins] <;> tauto
  | quant q v body => exact absurd rfl (hf q v body)

end Truth

/-! ### Instances -/

theorem mem_instances_iff {v : Term} {body g : Formula} :
    g ∈ t.instances id v body ↔
      (∃ leaf ∈ t.leavesBelow id, ∃ c ∈ t.constantsAt leaf, g = body.substitute v c) ∨
        ((∀ leaf ∈ t.leavesBelow id, t.constantsAt leaf = []) ∧
          g = body.substitute v (Term.fresh [])) := by
  have hmem : ∀ g, g ∈ distinct
      ((t.leavesBelow id).flatMap fun leaf => (t.constantsAt leaf).map (body.substitute v)) ↔
      ∃ leaf ∈ t.leavesBelow id, ∃ c ∈ t.constantsAt leaf, g = body.substitute v c := by
    intro g
    simp [eq_comm]
  unfold instances
  split
  · next hnil =>
    have hnone : ∀ leaf ∈ t.leavesBelow id, t.constantsAt leaf = [] := by
      intro leaf hleaf
      rw [List.eq_nil_iff_forall_not_mem]
      intro c hc
      have hinstance := (hmem _).mpr ⟨leaf, hleaf, c, hc, rfl⟩
      rw [hnil] at hinstance
      cases hinstance
    rw [List.mem_singleton]
    constructor
    · intro hg
      exact .inr ⟨hnone, hg⟩
    · rintro (⟨leaf, hleaf, c, hc, -⟩ | ⟨-, hg⟩)
      · rw [hnone leaf hleaf] at hc
        cases hc
      · exact hg
  · next hne =>
    rw [hmem]
    constructor
    · exact .inl
    · rintro (hg | ⟨hnone, -⟩)
      · exact hg
      · obtain ⟨g', hg'⟩ := List.exists_mem_of_ne_nil _ hne
        obtain ⟨leaf, hleaf, c, hc, -⟩ := (hmem g').mp hg'
        rw [hnone leaf hleaf] at hc
        cases hc

theorem mem_instances {v : Term} {body g : Formula} (hg : g ∈ t.instances id v body) :
    ∃ c, g = body.substitute v c ∧
      (c = Term.fresh [] ∨ ∃ leaf ∈ t.leavesBelow id, c ∈ t.constantsAt leaf) := by
  rcases mem_instances_iff.mp hg with ⟨leaf, hleaf, c, hc, rfl⟩ | ⟨-, rfl⟩
  · exact ⟨c, rfl, .inr ⟨leaf, hleaf, hc⟩⟩
  · exact ⟨_, rfl, .inl rfl⟩

theorem substitute_mem_instances {leaf : NodeId} (hleaf : leaf ∈ t.leavesBelow id) {c : Term}
    (hc : c ∈ t.constantsAt leaf) (v : Term) (body : Formula) :
    body.substitute v c ∈ t.instances id v body :=
  mem_instances_iff.mpr (.inl ⟨leaf, hleaf, c, hc, rfl⟩)

theorem exists_mem_instances (t : Tree) (id : NodeId) (v : Term) (body : Formula) :
    ∃ c, body.substitute v c ∈ t.instances id v body := by
  by_cases hnone : ∀ leaf ∈ t.leavesBelow id, t.constantsAt leaf = []
  · exact ⟨_, mem_instances_iff.mpr (.inr ⟨hnone, rfl⟩)⟩
  · simp only [not_forall] at hnone
    obtain ⟨leaf, hleaf, hne⟩ := hnone
    obtain ⟨c, hc⟩ := List.exists_mem_of_ne_nil _ hne
    exact ⟨c, substitute_mem_instances hleaf hc v body⟩

/-! ### Ticks and ranks -/

theorem ticks_iff (hrule : t.ruleFor? id f = some a) : a.ticks ↔ f.ruleKind ≠ .universal := by
  cases f with
  | atom p ts => cases hrule
  | neg f =>
    cases f with
    | bin c l r =>
      cases c <;> cases hrule <;>
        simp [Application.linear, Application.split, Formula.ruleKind, RuleKind.ofNegated]
    | _ => cases hrule <;> simp [Application.linear, Formula.ruleKind, RuleKind.ofNegated]
  | bin c l r =>
    cases c <;> cases hrule <;> simp [Application.linear, Application.split, Formula.ruleKind]
  | quant q v body =>
    cases q <;> cases hrule <;> simp [Application.linear, Formula.ruleKind]

theorem isSplit_iff (hrule : t.ruleFor? id f = some a) :
    (∃ l r, a.expansion = .split l r) ↔ f.ruleKind = .split := by
  cases f with
  | atom p ts => cases hrule
  | neg f =>
    cases f with
    | bin c l r =>
      cases c <;> cases hrule <;>
        simp [Application.linear, Application.split, Formula.ruleKind, RuleKind.ofNegated]
    | _ => cases hrule <;> simp [Application.linear, Formula.ruleKind, RuleKind.ofNegated]
  | bin c l r =>
    cases c <;> cases hrule <;> simp [Application.linear, Application.split, Formula.ruleKind]
  | quant q v body =>
    cases q <;> cases hrule <;> simp [Application.linear, Formula.ruleKind]

theorem isLiteral_eq_false_of_rule (hrule : t.ruleFor? id f = some a) : f.isLiteral = false := by
  cases f with
  | atom p ts => cases hrule
  | neg f =>
    cases f with
    | atom p ts => cases hrule
    | _ => rfl
  | _ => rfl

/-- What a rule adds for a formula at the node `id`, without regard to its branches. -/
inductive Yields (t : Tree) (id : NodeId) : Formula → Formula → Prop where
  | negated (f : Formula) : Yields t id (.neg (.neg f)) f
  | part {c : Connective} {l r g : Formula} (h : g ∈ [l, .neg l, r, .neg r]) :
      Yields t id (.bin c l r) g
  | negatedPart {c : Connective} {l r g : Formula} (h : g ∈ [l, .neg l, r, .neg r]) :
      Yields t id (.neg (.bin c l r)) g
  | dual (q : Quantifier) (v : Term) (f : Formula) :
      Yields t id (.neg (.quant q v f)) (.quant q.dual v (.neg f))
  | witness (v : Term) (f : Formula) :
      Yields t id (.quant .existential v f) (f.substitute v (Term.fresh (t.visible id)))
  | inst (v : Term) (f : Formula) {c : Term}
      (hc : c = Term.fresh [] ∨ ∃ leaf ∈ t.leavesBelow id, c ∈ t.constantsAt leaf) :
      Yields t id (.quant .universal v f) (f.substitute v c)

theorem yields_of_rule (hrule : t.ruleFor? id f = some a) :
    ∀ b ∈ a.expansion.branches, ∀ g ∈ b, t.Yields id f g := by
  cases f with
  | atom p ts => cases hrule
  | neg f =>
    cases f with
    | atom p ts => cases hrule
    | neg f =>
      cases hrule
      simpa [Application.linear] using Yields.negated f
    | bin c l r =>
      have hparts : ∀ b ∈ a.expansion.branches, ∀ g ∈ b, g ∈ [l, .neg l, r, .neg r] := by
        cases c <;> cases hrule <;> simp [Application.linear, Application.split]
      exact fun b hb g hg => .negatedPart (hparts b hb g hg)
    | quant q v f =>
      cases hrule
      simpa [Application.linear] using Yields.dual q v f
  | bin c l r =>
    have hparts : ∀ b ∈ a.expansion.branches, ∀ g ∈ b, g ∈ [l, .neg l, r, .neg r] := by
      cases c <;> cases hrule <;> simp [Application.linear, Application.split]
    exact fun b hb g hg => .part (hparts b hb g hg)
  | quant q v body =>
    intro b hb g hg
    cases q with
    | universal =>
      cases hrule
      obtain rfl := List.mem_singleton.mp hb
      obtain ⟨c, rfl, hc⟩ := mem_instances hg
      exact .inst v body hc
    | existential =>
      cases hrule
      obtain rfl := List.mem_singleton.mp hb
      rw [List.mem_singleton.mp hg]
      exact .witness v body

theorem Yields.rank_lt {g : Formula} (h : t.Yields id f g) : g.rank < f.rank := by
  have hpart : ∀ {l r : Formula}, g ∈ [l, .neg l, r, .neg r] →
      g.rank < 2 * (l.size + r.size + 1) := by
    intro l r hg
    have hl := l.rank_le
    have hr := r.rank_le
    have hl' := l.size_pos
    have hr' := r.size_pos
    simp only [List.mem_cons, List.not_mem_nil, or_false] at hg
    rcases hg with rfl | rfl | rfl | rfl
    · omega
    · rw [Formula.rank_neg]
      omega
    · omega
    · rw [Formula.rank_neg]
      omega
  cases h with
  | negated f =>
    have hle := g.rank_le
    rw [Formula.rank_neg, Formula.size]
    omega
  | part hg =>
    rw [Formula.rank_bin]
    exact hpart hg
  | negatedPart hg =>
    have hlt := hpart hg
    rw [Formula.rank_neg, Formula.size]
    omega
  | dual q v f =>
    rw [Formula.rank_quant, Formula.rank_neg, Formula.size, Formula.size]
    omega
  | witness v f => exact f.rank_substitute_lt _ v _
  | inst v f hc => exact f.rank_substitute_lt _ v _

end Tree

end TruthTrees
