import TruthTrees.Proofs.Rules
import TruthTrees.Proofs.Runs

/-!
# Ticked formulae are decomposed

A tick is set before the tree is known to grow, leaves at which a rule is redundant do not grow,
and new leaves keep appearing below a ticked formula. Nevertheless every open leaf below it has
what the rule asks for: at the moment of the tick the leaf had it or was given it, and a branch
never loses a formula.
-/

namespace TruthTrees

namespace Tree

/-- On the branch that ends at `leaf` are all formulae of one branch of the expansion of a formula
at the node `id`. An existential formula has an instance there for some constant, which need not
be the one that would be new by now. -/
def DecomposedAt (t : Tree) (id leaf : NodeId) : Formula → Prop
  | .quant .existential v body => ∃ c, body.substitute v c ∈ t.branch leaf
  | f => ∃ a, t.ruleFor? id f = some a ∧ ∃ b ∈ a.expansion.branches, ∀ g ∈ b, g ∈ t.branch leaf

/-- A rule that ticks its formula does not depend on the tree, except for the constant that it
introduces. -/
theorem decomposedAt_of_rule {t u : Tree} {id leaf : NodeId} {f : Formula} {a : Application}
    (hrule : t.ruleFor? id f = some a) (hticks : a.ticks) {b : List Formula}
    (hb : b ∈ a.expansion.branches) (hbranch : ∀ g ∈ b, g ∈ u.branch leaf) :
    u.DecomposedAt id leaf f := by
  cases f with
  | atom p ts => cases hrule
  | neg f => exact ⟨a, hrule, b, hb, hbranch⟩
  | bin c l r => cases c <;> exact ⟨a, hrule, b, hb, hbranch⟩
  | quant q v body =>
    cases q with
    | universal =>
      cases hrule
      cases hticks
    | existential =>
      cases hrule
      obtain rfl := List.mem_singleton.mp hb
      exact ⟨_, hbranch _ (List.mem_singleton_self _)⟩

theorem DecomposedAt.mono {t u : Tree} {id leaf leaf' : NodeId} {f : Formula}
    (h : t.DecomposedAt id leaf f) (hkind : f.ruleKind ≠ .universal)
    (hsub : t.branch leaf ⊆ u.branch leaf') : u.DecomposedAt id leaf' f := by
  unfold DecomposedAt at h
  split at h
  · obtain ⟨c, hc⟩ := h
    exact ⟨c, hsub hc⟩
  · obtain ⟨a, ha, b, hb, hbranch⟩ := h
    exact decomposedAt_of_rule ha ((ticks_iff ha).mpr hkind) hb fun g hg => hsub (hbranch g hg)

/-! ### One rule -/

section CarryOut

variable {t : Tree} {id : NodeId} {f : Formula} {a : Application}

/-- A branch never loses a formula: above a leaf there is what was above some leaf before. -/
theorem exists_branch_subset (h : t.Linked) (ha : t.Applicable id f a) {top leaf : NodeId}
    (htop : top < t.nextId) (hleaf : leaf ∈ (t.carryOut id f a).1.leavesBelow top) :
    ∃ old ∈ t.leavesBelow top, t.branch old ⊆ (t.carryOut id f a).1.branch leaf := by
  have hgraft := ha.grafted h
  rcases hgraft.leavesBelow_cases h htop hleaf with ⟨hold, -⟩ | ⟨s, hs, hgrown, hpath, -⟩
  · refine ⟨leaf, hold, ?_⟩
    have hlt := ((mem_leavesBelow h htop).mp hold).1.lt_nextId htop
    rw [hgraft.keeps.branch_eq h hgraft.linked hlt]
    exact List.Subset.refl _
  · have hgrows := (mem_growingLeaves.mp (mem_graftShoots hs).1).1
    have hsleaf := ((mem_leavesBelow h (ha.lt_nextId h)).mp hgrows).2
    refine ⟨s.leaf, (mem_leavesBelow h htop).mpr ⟨hpath, hsleaf⟩, ?_⟩
    rw [hgraft.branch_eq h hs hgrown]
    exact List.subset_append_right _ _

/-- Where a rule has been applied, all leaves have a branch of it: those that grew, and those at
which it was redundant. -/
theorem exists_expansion_subset (h : t.Linked) (ha : t.Applicable id f a) {leaf : NodeId}
    (hleaf : leaf ∈ (t.carryOut id f a).1.leavesBelow id) :
    ∃ b ∈ a.expansion.branches, ∀ g ∈ b, g ∈ (t.carryOut id f a).1.branch leaf := by
  have hgraft := ha.grafted h
  have hid := ha.lt_nextId h
  rcases hgraft.leavesBelow_cases h hid hleaf with ⟨hold, hnot⟩ | ⟨s, hs, hgrown, -, -⟩
  · have hpath := ((mem_leavesBelow h hid).mp hold).1
    have hred : t.isRedundant leaf a.expansion := by
      by_contra hred
      have hgrows := mem_growingLeaves.mpr ⟨hold, eq_false_of_ne_true hred⟩
      obtain ⟨b, hb⟩ := a.expansion.exists_branch
      obtain ⟨s, hs, hsl, -⟩ := exists_graftShoot hgrows hb
      exact hnot s hs hsl
    obtain ⟨b, hb, hbranch⟩ := (isRedundant_iff h (ha.openPath.trans hpath)).mp hred
    refine ⟨b, hb, fun g hg => ?_⟩
    rw [hgraft.keeps.branch_eq h hgraft.linked (hpath.lt_nextId hid)]
    exact hbranch g hg
  · refine ⟨s.formulae, (mem_graftShoots hs).2, fun g hg => ?_⟩
    rw [hgraft.branch_eq h hs hgrown]
    exact List.mem_append_left _ hg

end CarryOut

/-! ### Whole runs -/

/-- Only formulae that are neither literals nor universal have ticks, and every open leaf below a
ticked formula shows it decomposed. -/
def Decomposed (t : Tree) : Prop :=
  ∀ id f, (t.entry id).isTicked f → id < t.nextId ∧ f.isLiteral = false ∧
    f.ruleKind ≠ .universal ∧ ∀ leaf ∈ t.leavesBelow id, t.DecomposedAt id leaf f

theorem Decomposed.carryOut {t : Tree} (hd : t.Decomposed) (h : t.Linked) {id : NodeId}
    {f : Formula} {a : Application} (ha : t.Applicable id f a) :
    (t.carryOut id f a).1.Decomposed := by
  have hid := ha.lt_nextId h
  have hgraft := ha.grafted h
  intro x g hticked
  rcases (isTicked_carryOut hid ha.mem).mp hticked with hold | ⟨hticks, rfl, rfl⟩
  · obtain ⟨hx, hlit, hkind, hleaves⟩ := hd x g hold
    refine ⟨Nat.lt_of_lt_of_le hx hgraft.keeps.nextId_le, hlit, hkind, ?_⟩
    intro leaf hleaf
    obtain ⟨old, hold, hsub⟩ := exists_branch_subset h ha hx hleaf
    exact (hleaves old hold).mono hkind hsub
  · refine ⟨Nat.lt_of_lt_of_le hid hgraft.keeps.nextId_le, isLiteral_eq_false_of_rule ha.rule,
      (ticks_iff ha.rule).mp hticks, ?_⟩
    intro leaf hleaf
    obtain ⟨b, hb, hbranch⟩ := exists_expansion_subset h ha hleaf
    exact decomposedAt_of_rule ha.rule hticks hb hbranch

theorem Reachable.decomposed {premises : List Formula} {conclusion : Formula} {t : Tree}
    (h : Reachable premises conclusion t) : t.Decomposed := by
  induction h with
  | start =>
    intro id f hticked
    rw [Node.isTicked, ticked_start] at hticked
    simp at hticked
  | apply h ha ih => exact ih.carryOut h.linked ha

end Tree

/-- No decomposition is lost: whenever a formula has a tick, every open leaf below its node has a
branch of the expansion above it. Literals and universal formulae never have ticks. -/
theorem Prover.decomposedAt_of_isTicked (premises : List Formula) (conclusion : Formula) (n : Nat)
    {id : NodeId} {f : Formula}
    (h : ((after n (start premises conclusion)).tree.entry id).isTicked f) :
    f.isLiteral = false ∧ f.ruleKind ≠ .universal ∧
      ∀ leaf ∈ (after n (start premises conclusion)).tree.leavesBelow id,
        (after n (start premises conclusion)).tree.DecomposedAt id leaf f :=
  ((reachable_after premises conclusion n).decomposed id f h).2

/-- The formulae `P ∨ Q` and `∃x Fx`, which the root of the tree below has ticked after two
steps. -/
def Prover.leftovers : List Formula :=
  let x := Term.candidate 23
  [.bin .disj (.atom 'P' []) (.atom 'Q' []), .quant .existential x (.atom 'F' [x])]

theorem Prover.decomposedAt_leftovers :
    let t := (after 2 (start leftovers (.atom 'Q' []))).tree
    ∀ f ∈ leftovers, (t.entry Tree.root).isTicked f ∧ 2 ∈ t.leavesBelow Tree.root ∧
      t.DecomposedAt Tree.root 2 f := by
  intro t f hf
  have hticked : ∀ f ∈ leftovers, (t.entry Tree.root).isTicked f := by decide +kernel
  have hleaf : 2 ∈ t.leavesBelow Tree.root := by decide +kernel
  have h := decomposedAt_of_isTicked leftovers (.atom 'Q' []) 2 (hticked f hf)
  exact ⟨hticked f hf, hleaf, h.2.2 2 hleaf⟩

end TruthTrees
