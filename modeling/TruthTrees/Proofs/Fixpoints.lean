import TruthTrees.Proofs.Rules
import TruthTrees.Proofs.Runs

/-!
# Fixpoints

A step that adds no nodes has tried every rule, so all formulae that can have a tick have one then.
The others are literals and universal formulae, and trying these again leaves no trace. A tree that
closes has no leaf to which a rule could add anything.
-/

namespace TruthTrees

namespace Tree

/-- Every rule that can still be applied adds no nodes and sets no tick. -/
def Settled (t : Tree) : Prop :=
  ∀ id f a, t.Applicable id f a → t.RedundantBelow id f ∧ a.ticks = false

theorem choice?_eq_none_of_redundantBelow {t : Tree} (hl : t.Linked)
    (h : ∀ id f a, t.Applicable id f a → t.RedundantBelow id f) : t.choice? = none := by
  rw [choice?_eq_none_iff]
  rintro p - ⟨id, f⟩ hq
  obtain ⟨hopen, hmem⟩ := (mem_openFormulae hl).mp hq
  cases hrule : t.ruleFor? id f with
  | none => exact isProductive_of_no_rule hrule
  | some a =>
    cases hticked : (t.entry id).isTicked f with
    | true => simp [isProductive, hticked]
    | false => exact (h id f a ⟨hopen, hmem, hticked, hrule⟩).isProductive_eq_false p

theorem Settled.eq_of_idles {t u : Tree} (h : t.Settled) (hu : t.Idles u) : u = t := by
  induction hu with
  | refl => rfl
  | @apply u id f a _ ha hv ih =>
    subst ih
    have hticks := (h id f a ha).2
    unfold carryOut at hv ⊢
    rw [hticks, if_neg Bool.false_ne_true] at hv ⊢
    exact graftAt_of_false hv

theorem settled_of_inVain {t u : Tree} (hl : t.Linked) (hchoice : t.choice? = none)
    (h : t.InVain .wildcard t.openFormulae u) : u.Settled := by
  intro id f a ha
  have hlit := isLiteral_eq_false_of_rule ha.rule
  have hshape := h.idles.sameShape
  have hq : (id, f) ∈ t.openFormulae := by
    rw [← hshape.openFormulae_eq]
    exact (mem_openFormulae (h.idles.linked hl)).mpr ⟨ha.openPath, ha.mem⟩
  have hvain := choice?_eq_none_iff.mp hchoice .wildcard (by decide) _ hq
  constructor
  · rcases (spent_of_isProductive_eq_false hlit hvain).idles h.idles hl with hticked | hred
    · rw [ha.unticked] at hticked
      cases hticked
    · exact redundantBelow_iff.mpr hred
  · by_contra hticks
    have hholds : Preference.wildcard.holds t id f := by simp [Preference.holds, hlit]
    have hticked := h.ticked _ hq hholds a (by rw [← hshape.ruleFor?_eq, ha.rule])
      (by simpa using hticks)
    rw [ha.unticked] at hticked
    cases hticked

theorem leavesBelow_eq_nil_of_closes {t : Tree} (hl : t.Linked) (h : t.closes) {id : NodeId}
    (hid : t.OpenPath root id) : t.leavesBelow id = [] := by
  rw [List.eq_nil_iff_forall_not_mem]
  intro leaf hleaf
  obtain ⟨hpath, hend⟩ := (mem_leavesBelow hl (hid.lt_nextId hl.root_lt)).mp hleaf
  have hbelow := (mem_leavesBelow hl hl.root_lt).mpr ⟨hid.trans hpath, hend⟩
  rw [List.isEmpty_iff.mp h] at hbelow
  cases hbelow

theorem choice?_eq_none_of_closes {t : Tree} (hl : t.Linked) (h : t.closes) : t.choice? = none := by
  apply choice?_eq_none_of_redundantBelow hl
  intro id f a ha
  refine ⟨a, ha.rule, ?_⟩
  rw [leavesBelow_eq_nil_of_closes hl h ha.openPath]
  exact fun leaf hleaf => absurd hleaf List.not_mem_nil

end Tree

namespace Prover

theorem settled_step {s : Prover} (hl : s.tree.Linked) (h : s.step.2 = none) :
    s.step.1.tree.Settled := by
  cases hchoice : s.tree.choice? with
  | some choice =>
    obtain ⟨p, id, f⟩ := choice
    have hstep := (step_of_choice?_eq_some hl hchoice).1
    rw [h] at hstep
    cases hstep
  | none =>
    obtain ⟨-, -, hall⟩ := step_of_choice?_eq_none hl hchoice
    exact Tree.settled_of_inVain hl hchoice (hall .wildcard (by decide))

theorem step_of_settled {s : Prover} (hl : s.tree.Linked) (h : s.tree.Settled) :
    s.step.2 = none ∧ s.step.1.tree = s.tree := by
  have hchoice := Tree.choice?_eq_none_of_redundantBelow hl fun id f a ha => (h id f a ha).1
  obtain ⟨hstep, hidle, -⟩ := step_of_choice?_eq_none hl hchoice
  exact ⟨hstep, h.eq_of_idles hidle⟩

theorem tree_after_of_settled {s : Prover} (hl : s.tree.Linked) (h : s.tree.Settled) (m : Nat) :
    (after m s).tree = s.tree := by
  induction m with
  | zero => rfl
  | succ m ih =>
    rw [after, (step_of_settled (by rwa [ih]) (by rwa [ih])).2, ih]

theorem step_of_closes {s : Prover} (hl : s.tree.Linked) (h : s.tree.closes) :
    s.step.2 = none ∧ s.tree.SameShape s.step.1.tree := by
  obtain ⟨hstep, hidle, -⟩ := step_of_choice?_eq_none hl (Tree.choice?_eq_none_of_closes hl h)
  exact ⟨hstep, hidle.sameShape⟩

theorem closes_after {premises : List Formula} {conclusion : Formula} {s : Prover}
    (hs : Tree.Reachable premises conclusion s.tree) (h : s.tree.closes) (m : Nat) :
    (after m s).tree.closes := by
  induction m with
  | zero => exact h
  | succ m ih =>
    rw [after, (step_of_closes (reachable_after_of hs m).linked ih).2.closes_eq]
    exact ih

/-- Once a step adds no nodes, the steps after it add none either and leave the tree as the first
of them left it, down to the ticks. Once the tree closes, no step adds a node, and the tree closes
for ever. -/
theorem fixpoint_stays (premises : List Formula) (conclusion : Formula) (n : Nat) :
    let s := after n (start premises conclusion)
    (s.step.2 = none → ∀ m,
      (after m s.step.1).step.2 = none ∧ (after m s.step.1).step.1.tree = s.step.1.tree) ∧
    (s.tree.closes →
      s.step.2 = none ∧ s.tree.SameShape s.step.1.tree ∧ ∀ m, (after m s).tree.closes) := by
  intro s
  have hs : Tree.Reachable premises conclusion s.tree := reachable_after premises conclusion n
  constructor
  · intro hnone m
    have hsettled := settled_step hs.linked hnone
    have hl := (reachable_step hs).linked
    have htree := tree_after_of_settled hl hsettled m
    have hstep := step_of_settled (s := after m s.step.1) (by rwa [htree]) (by rwa [htree])
    exact ⟨hstep.1, hstep.2.trans htree⟩
  · intro hcloses
    obtain ⟨hstep, hshape⟩ := step_of_closes hs.linked hcloses
    exact ⟨hstep, hshape, closes_after hs hcloses⟩

/-- The search from `∀x Fx`, `Fa`, `P ∧ Q`, `P` and `Q` to `R`, which is over before it starts. -/
def exhausted : Prover :=
  let x := Term.candidate 23
  start [.quant .universal x (.atom 'F' [x]), .atom 'F' [Term.candidate 0],
    .bin .conj (.atom 'P' []) (.atom 'Q' []), .atom 'P' [], .atom 'Q' []] (.atom 'R' [])

/-- The search from `P → Q` and `P` to `Q`, whose first step closes the tree. -/
def detached : Prover :=
  start [.bin .impl (.atom 'P' []) (.atom 'Q' []), .atom 'P' []] (.atom 'Q' [])

/-- The first step may still tick formulae, and the universal one is tried again by each later
step. -/
theorem exhausted_stays :
    (exhausted.step.2 = none ∧ exhausted.step.1.tree ≠ exhausted.tree ∧
      ∀ m, (after m exhausted.step.1).step.2 = none ∧
        (after m exhausted.step.1).step.1.tree = exhausted.step.1.tree) ∧
    (after 1 detached).tree.closes ∧ (after 1 detached).step.2 = none ∧
      ∀ m, (after m (after 1 detached)).tree.closes := by
  have hnone : exhausted.step.2 = none := by decide +kernel
  have hcloses : (after 1 detached).tree.closes := by decide +kernel
  have hopen := (fixpoint_stays _ _ 0).1 hnone
  obtain ⟨hstep, -, hstays⟩ := (fixpoint_stays _ _ 1).2 hcloses
  exact ⟨⟨hnone, by decide +kernel, hopen⟩, hcloses, hstep, hstays⟩

end Prover

end TruthTrees
