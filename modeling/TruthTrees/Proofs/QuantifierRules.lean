import TruthTrees.Proofs.Growth
import TruthTrees.Proofs.Rules
import TruthTrees.Proofs.TermSupply

/-!
# The rules for quantifiers

An existential formula is given the first constant that is free on no branch through its node. A
universal formula is given instances for the constants of all branches through its node. These
instances bring in no constants that were not on some branch already, so the rule has nothing to add
when it is applied for a second time.
-/

namespace TruthTrees

namespace Tree

variable {t : Tree} {id : NodeId}

/-! ### Existential formulae -/

/-- The term is free in a formula on the path from the root to the node `id` or to an open leaf
below it. -/
def FreeThrough (t : Tree) (id : NodeId) (c : Term) : Prop :=
  ∃ x ∈ id :: t.leavesBelow id, ∃ a ∈ t.ancestors x, ∃ f ∈ (t.entry a).formulae, c ∈ f.constants

/-- No node is out of sight above one that is reached without meeting a closed one. -/
theorem mem_visible_iff_freeThrough (h : t.Linked) (hid : t.OpenPath root id) {c : Term} :
    c ∈ t.visible id ↔ t.FreeThrough id c := by
  have hpath : ∀ {x : NodeId}, t.OpenPath root x →
      (c ∈ t.constantsAt x ↔
        ∃ a ∈ t.ancestors x, ∃ f ∈ (t.entry a).formulae, c ∈ f.constants) := by
    intro x hx
    simp only [mem_constantsAt_iff_openAncestors, openAncestors_eq h hx, Formula.mem_constants]
  rw [mem_visible, FreeThrough, List.exists_mem_cons_iff, hpath hid]
  apply or_congr Iff.rfl
  apply exists_congr
  intro leaf
  apply and_congr_right
  intro hleaf
  have hbelow : t.OpenPath id leaf :=
    ((mem_leavesBelow h (Reaches.lt_nextId hid h.root_lt)).mp hleaf).1
  exact hpath (Reaches.trans hid hbelow)

end Tree

/-- At every moment of a search, the rule for an existential formula at an open node adds a single
branch with a single formula. Its constant is free nowhere on the paths to the node and to the open
leaves below it, and all terms that precede it are free on one of these paths. -/
theorem Prover.existential_takes_first_free (premises : List Formula) (conclusion : Formula)
    (n : Nat) :
    let t := (after n (start premises conclusion)).tree
    ∀ id ∈ t.openNodes, (t.visible id).length < Term.supply → ∀ v body,
      ∃ c, t.ruleFor? id (.quant .existential v body) =
          some (.linear [body.substitute v c]) ∧
        ¬t.FreeThrough id c ∧ ∀ d : Term, d.Precedes c → t.FreeThrough id d := by
  intro t id hid hsupply v body
  have h : t.Linked := (reachable_after premises conclusion n).linked
  have hpath : t.OpenPath Tree.root id := (Tree.mem_openNodes h).mp hid
  have hroom : (distinct (t.visible id)).length < Term.total := by
    have hle := length_distinct_le (t.visible id)
    unfold Term.supply at hsupply
    unfold Term.total
    omega
  refine ⟨Term.fresh (t.visible id), rfl, ?_, ?_⟩
  · rw [← Tree.mem_visible_iff_freeThrough h hpath]
    exact Term.fresh_notMem hroom
  · intro d hd
    rw [← Tree.mem_visible_iff_freeThrough h hpath]
    exact Term.mem_of_precedes_fresh hroom hd

/-- The premises `∃x Fx` and `Pb ∨ Pc`. After two steps the branches have the constants `a`, `b` and
`c`, so the next one is `d`. -/
theorem Prover.existential_takes_fourth :
    let a := Term.candidate 0
    let b := Term.candidate 1
    let c := Term.candidate 2
    let d := Term.candidate 3
    let x := Term.candidate 23
    let f : Formula := .quant .existential x (.atom 'F' [x])
    let t := (after 2 (start [f, .bin .disj (.atom 'P' [b]) (.atom 'P' [c])] (.atom 'Q' []))).tree
    Tree.root ∈ t.openNodes ∧ (t.visible Tree.root).length < Term.supply ∧
      t.leavesBelow Tree.root = [2, 3] ∧
      t.ruleFor? Tree.root f = some (.linear [.atom 'F' [d]]) ∧
      ¬t.FreeThrough Tree.root d ∧ t.FreeThrough Tree.root a := by
  intro a b c d x f t
  have hroot : Tree.root ∈ t.openNodes := by decide +kernel
  have hsupply : (t.visible Tree.root).length < Term.supply := by decide +kernel
  have hrule : t.ruleFor? Tree.root f = some (.linear [.atom 'F' [d]]) := by decide +kernel
  obtain ⟨e, he, hnew, hbefore⟩ :=
    existential_takes_first_free _ _ 2 Tree.root hroot hsupply x (.atom 'F' [x])
  have hed : e = d := by
    rw [hrule] at he
    simpa [Application.linear, replaceTerm] using he.symm
  subst hed
  exact ⟨hroot, hsupply, by decide +kernel, hrule, hnew, hbefore a (by decide)⟩

/-! ### Universal formulae -/

namespace Tree

variable {t : Tree} {id : NodeId}

theorem isRedundant_linear {leaf : NodeId} {b : List Formula} :
    t.isRedundant leaf (.linear b) ↔ ∀ f ∈ b, t.branchContains leaf f := by
  simp [isRedundant]

def instantiated (t : Tree) (id : NodeId) (v : Term) (body : Formula) : Tree :=
  (t.graft id (.linear (t.instances id v body))).1

section Universal

variable (h : t.Linked) {v : Term} {body : Formula}
  (hf : .quant .universal v body ∈ (t.entry id).formulae)

include h hf

theorem grafted_instantiated :
    Grafted t (t.graftShoots id (.linear (t.instances id v body))) (t.instantiated id v body) :=
  (grafted_graft h (lt_nextId_of_mem hf) _).1

theorem branchContains_instantiated {leaf : NodeId}
    (hleaf : leaf ∈ (t.instantiated id v body).leavesBelow id) {g : Formula}
    (hg : g ∈ t.instances id v body) : (t.instantiated id v body).branchContains leaf g :=
  isRedundant_linear.mp (isRedundant_graft h (lt_nextId_of_mem hf) _ hleaf) g hg

theorem mem_constantsAt_of_free {leaf : NodeId} (hleaf : leaf ∈ t.leavesBelow id) {c : Term}
    (hc : c ∈ body.freeOccurrences) (hcv : c ≠ v) : c ∈ t.constantsAt leaf := by
  have hpath := ((mem_leavesBelow h (lt_nextId_of_mem hf)).mp hleaf).1
  rw [mem_constantsAt_iff_openAncestors]
  exact ⟨id, OpenPath.mem_openAncestors h hpath, _, hf,
    Formula.mem_freeOccurrences_quant.mpr ⟨hc, hcv⟩⟩

/-- The instances bring in no constant for which there is no instance. -/
theorem substitute_mem_instances_of_instantiated {leaf : NodeId} {c : Term}
    (hleaf : leaf ∈ (t.instantiated id v body).leavesBelow id)
    (hc : c ∈ (t.instantiated id v body).constantsAt leaf) :
    body.substitute v c ∈ t.instances id v body := by
  have hid : id < t.nextId := lt_nextId_of_mem hf
  have hgraft := grafted_instantiated h hf
  rcases hgraft.leavesBelow_cases h hid hleaf with ⟨hold, -⟩ | ⟨s, hs, hgrown, -, hopen⟩
  · obtain ⟨hlt, -, -⟩ := isLeaf_of_mem_leavesBelow h hid hold
    rw [hgraft.keeps.constantsAt_eq h hgraft.linked hlt] at hc
    exact substitute_mem_instances hold hc v body
  · obtain ⟨hgrow, hb⟩ := mem_graftShoots hs
    have hbelow := (mem_growingLeaves.mp hgrow).1
    rcases (hgraft.mem_constantsAt_iff h hs hgrown hopen).mp hc with ⟨g, hg, hcg⟩ | hc
    · rw [List.mem_singleton.mp hb] at hg
      obtain ⟨d, rfl, -⟩ := mem_instances hg
      rcases Formula.free_cases_of_substitute hcg with ⟨hfree, hne⟩ | rfl
      · exact substitute_mem_instances hbelow (mem_constantsAt_of_free h hf hbelow hfree hne) v body
      · exact hg
    · exact substitute_mem_instances hbelow hc v body

/-- New nodes that hold no literals are not closed, so every branch lives on with its constants. -/
theorem exists_constant_of_not_isLiteral (hlit : body.isLiteral = false) {leaf : NodeId}
    (hleaf : leaf ∈ t.leavesBelow id) {c : Term} (hc : c ∈ t.constantsAt leaf) :
    ∃ other ∈ (t.instantiated id v body).leavesBelow id,
      c ∈ (t.instantiated id v body).constantsAt other := by
  have hid : id < t.nextId := lt_nextId_of_mem hf
  have hgraft := grafted_instantiated h hf
  obtain ⟨hpath, -⟩ := (mem_leavesBelow h hid).mp hleaf
  by_cases hgrow : leaf ∈ t.growingLeaves id (.linear (t.instances id v body))
  · obtain ⟨s, hs, rfl, hb⟩ := exists_graftShoot hgrow (List.mem_singleton_self _)
    obtain ⟨x, -, -, hgrown⟩ := hgraft.grown s hs
    have hopen : ((t.instantiated id v body).entry x).closed = false := by
      rw [hgraft.closed_eq h hs hgrown, hb, ← Bool.not_eq_true, wouldClose_iff]
      rintro ⟨f, hmem, g, -, hfg⟩
      obtain ⟨d, rfl, -⟩ := mem_instances hmem
      simp [Formula.contradicts, hlit] at hfg
    exact ⟨x, hgraft.mem_leavesBelow_new h hid hs hgrown hpath hopen,
      (hgraft.mem_constantsAt_iff h hs hgrown hopen).mpr (.inr hc)⟩
  · refine ⟨leaf, hgraft.mem_leavesBelow_old h hid hleaf (leaf_ne_of_mem_graftShoots hgrow), ?_⟩
    rw [hgraft.keeps.constantsAt_eq h hgraft.linked (hpath.lt_nextId hid)]
    exact hc

/-- A constant does not vanish from all branches as long as one of them is open and the variable is
free in its range. -/
theorem exists_constant_instantiated (hv : v ∈ body.freeOccurrences) {leaf last : NodeId} {c : Term}
    (hleaf : leaf ∈ t.leavesBelow id) (hc : c ∈ t.constantsAt leaf)
    (hlast : last ∈ (t.instantiated id v body).leavesBelow id) :
    ∃ other ∈ (t.instantiated id v body).leavesBelow id,
      c ∈ (t.instantiated id v body).constantsAt other := by
  by_cases hlit : body.isLiteral
  · -- the instance for the constant is on every branch, and nothing in it is bound
    have hinstance :=
      branchContains_instantiated h hf hlast (substitute_mem_instances hleaf hc v body)
    obtain ⟨a, ha, hmem⟩ := branchContains_iff_openAncestors.mp hinstance
    refine ⟨last, hlast, mem_constantsAt_iff_openAncestors.mpr ⟨a, ha, _, hmem, ?_⟩⟩
    exact Formula.mem_freeOccurrences_substitute_of_isLiteral hlit hv c
  · exact exists_constant_of_not_isLiteral h hf (eq_false_of_ne_true hlit) hleaf hc

theorem substitute_fresh_mem_instances {last : NodeId}
    (hlast : last ∈ (t.instantiated id v body).leavesBelow id)
    (hnone : ∀ leaf ∈ (t.instantiated id v body).leavesBelow id,
      (t.instantiated id v body).constantsAt leaf = []) :
    body.substitute v (Term.fresh []) ∈ t.instances id v body := by
  by_cases hv : v ∈ body.freeOccurrences
  · have hnever : ∀ leaf ∈ t.leavesBelow id, t.constantsAt leaf = [] := by
      intro leaf hleaf
      rw [List.eq_nil_iff_forall_not_mem]
      intro c hc
      obtain ⟨other, hother, hco⟩ := exists_constant_instantiated h hf hv hleaf hc hlast
      rw [hnone other hother] at hco
      cases hco
    exact mem_instances_iff.mpr (.inr ⟨hnever, rfl⟩)
  · -- constants may have vanished with their branches, but all instances are the same
    obtain ⟨c, hc⟩ := exists_mem_instances t id v body
    rw [Formula.substitute_of_not_free hv] at hc ⊢
    exact hc

theorem instances_instantiated_subset {last : NodeId}
    (hlast : last ∈ (t.instantiated id v body).leavesBelow id) :
    (t.instantiated id v body).instances id v body ⊆ t.instances id v body := by
  intro g hg
  rcases mem_instances_iff.mp hg with ⟨leaf, hleaf, c, hc, rfl⟩ | ⟨hnone, rfl⟩
  · exact substitute_mem_instances_of_instantiated h hf hleaf hc
  · exact substitute_fresh_mem_instances h hf hlast hnone

end Universal

/-- A universal formula is spent by one application of its rule. Once the instances have been
grafted, the rule is redundant at all open leaves below the node, so a second graft adds nothing,
and each of these leaves has on its branch the instances for the constants of all of them. -/
theorem Built.universal_spent {t : Tree} (hbuilt : t.Built) {id : NodeId} {v : Term}
    {body : Formula} (hf : .quant .universal v body ∈ (t.entry id).formulae) :
    ∃ a u, t.ruleFor? id (.quant .universal v body) = some a ∧
      u = (t.graft id a.expansion).1 ∧
      (∃ b, u.ruleFor? id (.quant .universal v body) = some b ∧
        (∀ leaf ∈ u.leavesBelow id, u.isRedundant leaf b.expansion) ∧
        u.graft id b.expansion = (u, false)) ∧
      ∀ leaf ∈ u.leavesBelow id, ∀ other ∈ u.leavesBelow id, ∀ c ∈ u.constantsAt other,
        u.branchContains leaf (body.substitute v c) := by
  have h := hbuilt.linked
  have hgraft := grafted_instantiated h hf
  have hid : id < (t.instantiated id v body).nextId :=
    Nat.lt_of_lt_of_le (lt_nextId_of_mem hf) hgraft.keeps.nextId_le
  have hred : ∀ leaf ∈ (t.instantiated id v body).leavesBelow id,
      (t.instantiated id v body).isRedundant leaf
        (.linear ((t.instantiated id v body).instances id v body)) := by
    intro leaf hleaf
    rw [isRedundant_linear]
    intro g hg
    exact branchContains_instantiated h hf hleaf (instances_instantiated_subset h hf hleaf hg)
  refine ⟨_, t.instantiated id v body, rfl, rfl, ⟨_, rfl, hred, ?_⟩, ?_⟩
  · exact graft_eq_self hgraft.linked hid _ hred
  · intro leaf hleaf other hother c hc
    exact branchContains_instantiated h hf hleaf
      (substitute_mem_instances_of_instantiated h hf hother hc)

/-- The formula `∀x Fx`, with `Ga` on one branch below it and `¬Fb` on the other. -/
def generalized : Tree :=
  let x := Term.candidate 23
  let t := ofFormulae [.quant .universal x (.atom 'F' [x])]
  let t := t.request root (.ofFormulae [.atom 'G' [Term.candidate 0]])
  t.request root (.ofFormulae [.neg (.atom 'F' [Term.candidate 1])])

/-- Both branches get `Fa` and `Fb`. The second one is closed by them, and the first one keeps the
constant of the second. -/
theorem Built.universal_spent_generalized :
    let a := Term.candidate 0
    let b := Term.candidate 1
    let x := Term.candidate 23
    let f : Formula := .quant .universal x (.atom 'F' [x])
    let e := Expansion.linear [.atom 'F' [a], .atom 'F' [b]]
    let u := (generalized.graft root e).1
    generalized.Built ∧ f ∈ (generalized.entry root).formulae ∧
      generalized.ruleFor? root f = some ⟨e, false⟩ ∧
      u.leavesBelow root = [3] ∧ u.constantsAt 3 = [a, b] ∧
      u.ruleFor? root f = some ⟨e, false⟩ ∧ u.isRedundant 3 e ∧ u.graft root e = (u, false) ∧
      ∀ c ∈ u.constantsAt 3, u.branchContains 3 (.atom 'F' [c]) := by
  intro a b x f e u
  have hbuilt : generalized.Built :=
    ((Built.single _).request root (by decide) _).request root (by decide) _
  have hf : f ∈ (generalized.entry root).formulae := by decide +kernel
  have hfirst : generalized.ruleFor? root f = some ⟨e, false⟩ := by decide +kernel
  have hsecond : u.ruleFor? root f = some ⟨e, false⟩ := by decide +kernel
  have hleaves : u.leavesBelow root = [3] := by decide +kernel
  obtain ⟨r, w, hrule, hw, ⟨s, hagain, hred, hgraft⟩, hall⟩ := hbuilt.universal_spent hf
  obtain rfl : ⟨e, false⟩ = r := Option.some.inj (hfirst.symm.trans hrule)
  have hwu : w = u := hw
  rw [hwu] at hagain hred hgraft hall
  obtain rfl : ⟨e, false⟩ = s := Option.some.inj (hsecond.symm.trans hagain)
  have hthree : 3 ∈ u.leavesBelow root := by
    rw [hleaves]
    exact List.mem_singleton_self 3
  refine ⟨hbuilt, hf, hfirst, hleaves, by decide +kernel, hsecond, hred 3 hthree, hgraft, ?_⟩
  intro c hc
  simpa [replaceTerm] using hall 3 hthree 3 hthree c hc

end Tree

end TruthTrees
