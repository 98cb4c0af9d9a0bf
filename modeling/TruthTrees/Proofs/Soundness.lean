import TruthTrees.Argument.Validity
import TruthTrees.Proofs.Rules
import TruthTrees.Proofs.TermSupply

/-!
# Soundness

If an interpretation makes the premises true and the conclusion false, then at every moment of the
search some open branch is true, up to the values of the constants that the search has introduced.
A tree without open branches is therefore a proof that there is no such interpretation.
-/

namespace TruthTrees

universe u

variable {D : Type u}

theorem Formula.not_holds_of_contradicts {f g : Formula} (h : f.contradicts g)
    {I : Interpretation D} (hf : f.Holds I) : ¬g.Holds I := by
  simp only [Formula.contradicts, Bool.and_eq_true, Bool.or_eq_true, decide_eq_true_eq] at h
  rcases h.2 with rfl | rfl
  · exact hf
  · exact fun hg => hg hf

/-! ### Rules keep truth -/

/-- Where a formula is true, so is a branch of its rule, once the constant that the rule may
introduce has been given a value. -/
theorem holds_ruleFor? {t : Tree} (hl : t.Linked) (hw : t.WithinSupply) {id : NodeId}
    {f : Formula} {a : Application} (ha : t.Applicable id f a) {I : Interpretation D}
    (hf : f.Holds I) :
    ∃ J : Interpretation D, J.relation = I.relation ∧
      (∀ c ∈ t.visible id, J.value c = I.value c) ∧ a.expansion.Holds J := by
  have hmem := ha.mem
  have hopen := ha.openPath
  have hrule := ha.rule
  -- only an existential formula asks for another interpretation
  have hsame : a.expansion.Holds I → ∃ J : Interpretation D, J.relation = I.relation ∧
      (∀ c ∈ t.visible id, J.value c = I.value c) ∧ a.expansion.Holds J :=
    fun h => ⟨I, rfl, fun _ _ => rfl, h⟩
  cases f with
  | atom p ts => cases hrule
  | neg f => exact hsame ((Tree.holds_ruleFor?_iff hrule (by simp)).mpr hf)
  | bin c l r => exact hsame ((Tree.holds_ruleFor?_iff hrule (by simp)).mpr hf)
  | quant q v body =>
    cases q with
    | universal =>
      cases hrule
      refine hsame ⟨_, List.mem_singleton_self _, ?_⟩
      intro g hg
      obtain ⟨c, rfl, -⟩ := Tree.mem_instances hg
      exact (Formula.holds_substitute (hw.roomy hmem c) I).mpr (hf (I.value c))
    | existential =>
      cases hrule
      obtain ⟨d, hd⟩ := hf
      have hfresh := hw.fresh_notMem id
      generalize Term.fresh (t.visible id) = c at hfresh
      refine ⟨I.assign c d, rfl, ?_, _, List.mem_singleton_self _, ?_⟩
      · intro x hx
        have hxc : x ≠ c := fun hxc => hfresh (hxc ▸ hx)
        exact I.value_assign_of_ne hxc d
      · intro g hg
        rw [List.mem_singleton.mp hg, Formula.holds_substitute (hw.roomy hmem c),
          Interpretation.value_assign_self]
        refine (Formula.holds_congr body (by simp) fun x hx => ?_).mpr hd
        by_cases hxv : x = v
        · simp [hxv]
        · -- the other free terms of the body are visible, so none of them is the new constant
          have hfree : x ∈ (Formula.quant .existential v body).freeOccurrences :=
            Formula.mem_freeOccurrences_quant.mpr ⟨hx, hxv⟩
          have hvis : x ∈ t.visible id := Tree.mem_visible.mpr (.inl
            ((Tree.mem_constantsAt hl hopen).mpr ⟨_, Tree.mem_branch_of_mem hl hmem, hfree⟩))
          have hxc : x ≠ c := fun hxc => hfresh (hxc ▸ hvis)
          rw [Interpretation.value_assign_of_ne _ hxv, Interpretation.value_assign_of_ne _ hxv,
            Interpretation.value_assign_of_ne _ hxc]

/-! ### Runs keep a true branch -/

namespace Tree

/-- Some open branch is true, with the given relations and some values of the terms. -/
def Satisfied (t : Tree) (relation : Char → List D → Prop) : Prop :=
  ∃ I : Interpretation D, I.relation = relation ∧
    ∃ leaf ∈ t.leavesBelow root, ∀ f ∈ t.branch leaf, f.Holds I

theorem not_contradictsBranch {t : Tree} {id : NodeId} (h : t.Linked) {I : Interpretation D}
    (hI : ∀ f ∈ t.branch id, f.Holds I) : t.contradictsBranch id = false := by
  rw [← Bool.not_eq_true, contradictsBranch_iff]
  rintro ⟨f, hf, g, hg, hfg⟩
  exact Formula.not_holds_of_contradicts hfg (hI f (mem_branch_of_mem h hf)) (hI g hg)

theorem Satisfied.carryOut {t : Tree} {relation : Char → List D → Prop}
    (hs : t.Satisfied relation) (h : t.Linked) (hw : t.WithinSupply) {id : NodeId} {f : Formula}
    {a : Application} (ha : t.Applicable id f a) :
    (t.carryOut id f a).1.Satisfied relation := by
  obtain ⟨I, hrel, leaf, hleaf, hI⟩ := hs
  have hid := ha.lt_nextId h
  have hgraft := ha.grafted h
  obtain ⟨hpath, -⟩ := (mem_leavesBelow h h.root_lt).mp hleaf
  by_cases hgrow : leaf ∈ t.growingLeaves id a.expansion
  · -- the formula is on the branch, so one of the new branches is true as well
    obtain ⟨hbelow, -⟩ := mem_growingLeaves.mp hgrow
    have hup := ((mem_leavesBelow h hid).mp hbelow).1.mem_ancestors h
    have hf : f.Holds I := hI f (mem_branch.mpr ⟨id, hup, ha.mem⟩)
    obtain ⟨J, hJrel, hJval, b, hb, hJb⟩ := holds_ruleFor? h hw ha hf
    have hJ : ∀ g ∈ t.branch leaf, g.Holds J := by
      intro g hg
      refine (Formula.holds_congr g hJrel fun x hx => hJval x ?_).mpr (hI g hg)
      exact mem_visible.mpr (.inr ⟨leaf, hbelow, (mem_constantsAt h hpath).mpr ⟨g, hg, hx⟩⟩)
    obtain ⟨s, hs, rfl, rfl⟩ := exists_graftShoot hgrow hb
    obtain ⟨x, -, -, hgrown⟩ := hgraft.grown s hs
    have hbranch := hgraft.branch_eq h hs hgrown
    have hJx : ∀ g ∈ (t.carryOut id f a).1.branch x, g.Holds J := by
      intro g hg
      rw [hbranch] at hg
      exact (List.mem_append.mp hg).elim (hJb g) (hJ g)
    have hopen : ((t.carryOut id f a).1.entry x).closed = false := by
      rw [hgrown.closed_eq, not_contradictsBranch hgraft.linked hJx]
    exact ⟨J, hJrel.trans hrel, x,
      hgraft.mem_leavesBelow_new h h.root_lt hs hgrown hpath hopen, hJx⟩
  · have hstay : ∀ s ∈ t.graftShoots id a.expansion, s.leaf ≠ leaf := by
      intro s hs hsl
      exact hgrow (hsl ▸ (mem_graftShoots hs).1)
    refine ⟨I, hrel, leaf, hgraft.mem_leavesBelow_old h h.root_lt hleaf hstay, ?_⟩
    rw [hgraft.keeps.branch_eq h hgraft.linked (hpath.lt_nextId h.root_lt)]
    exact hI

theorem satisfied_start {premises : List Formula} {conclusion : Formula} {I : Interpretation D}
    (hp : ∀ p ∈ premises, p.Holds I) (hc : ¬conclusion.Holds I) :
    (Prover.start premises conclusion).tree.Satisfied I.relation := by
  have hlinked : (Prover.rootTree premises conclusion).Linked := linked_ofFormulae _
  have hbranch : ∀ f ∈ (Prover.rootTree premises conclusion).branch root, f.Holds I := by
    intro f hf
    rw [branch_of_orphan hlinked hlinked.root_parent] at hf
    rcases List.mem_append.mp hf with hf | hf
    · exact hp f hf
    · rw [List.mem_singleton.mp hf]
      exact hc
  unfold Prover.start
  dsimp only
  rw [if_neg (by simp [not_contradictsBranch hlinked hbranch])]
  refine ⟨I, rfl, root, (mem_leavesBelow hlinked hlinked.root_lt).mpr ⟨.here rfl, rfl⟩, hbranch⟩

theorem Reachable.satisfied {premises : List Formula} {conclusion : Formula} {t : Tree}
    (h : Reachable premises conclusion t) (hw : t.WithinSupply) {I : Interpretation D}
    (hp : ∀ p ∈ premises, p.Holds I) (hc : ¬conclusion.Holds I) : t.Satisfied I.relation := by
  induction h with
  | start => exact satisfied_start hp hc
  | apply h ha ih =>
    have hw' := (ha.grafted h.linked).keeps.withinSupply hw
    exact (ih hw').carryOut h.linked hw' ha

theorem not_closes_of_satisfied {t : Tree} {relation : Char → List D → Prop}
    (h : t.Satisfied relation) : t.closes = false := by
  obtain ⟨-, -, leaf, hleaf, -⟩ := h
  rw [closes, closesBelow, List.isEmpty_eq_false_iff_exists_mem]
  exact ⟨leaf, hleaf⟩

end Tree

theorem Argument.valid_of_closes {a : Argument} {t : Tree}
    (h : Tree.Reachable a.premises a.conclusion t) (hw : t.WithinSupply) (hc : t.closes) :
    Valid.{u} a := by
  intro D I hp
  by_contra hconclusion
  have hopen := Tree.not_closes_of_satisfied (h.satisfied hw hp hconclusion)
  rw [hc] at hopen
  cases hopen

/-- Whatever the number of steps, a tree that closes belongs to an argument without countermodel.
So neither a run to the end nor a report at any limit calls another argument valid. -/
theorem Argument.valid_of_tree_closes (a : Argument) :
    (∀ n, (a.prover.after n).tree.WithinSupply → (a.prover.after n).tree.closes →
      Valid.{u} a) ∧
    (∀ budget s, a.prover.run budget = some s → s.tree.WithinSupply → s.tree.closes →
      Valid.{u} a) ∧
    (∀ limit budget t r, a.judge limit budget = some (t, r) → t.WithinSupply →
      r.verdict = .valid → Valid.{u} a) := by
  refine ⟨?_, ?_, ?_⟩
  · intro n hw hc
    exact valid_of_closes (Prover.reachable_after _ _ n) hw hc
  · intro budget s hrun hw hc
    obtain ⟨⟨s', complete⟩, hsearch, rfl⟩ := Option.map_eq_some_iff.mp hrun
    exact valid_of_closes (Prover.reachable_search hsearch) hw hc
  · intro limit budget t r hjudge hw hv
    obtain ⟨s, complete, hsearch, rfl, hr⟩ := judge_cases hjudge
    rw [hr, Tree.verdict_eq_valid] at hv
    exact valid_of_closes (Prover.reachable_search hsearch) hw hv

/-- From `∃x Fx` to `∃y Fy`. -/
def Argument.rebound : Argument :=
  let x := Term.candidate 23
  let y := Term.candidate 24
  { premises := [.quant .existential x (.atom 'F' [x])]
    conclusion := .quant .existential y (.atom 'F' [y]) }

/-- The tree closes in three steps, by an existential rule and a universal one. -/
theorem Argument.rebound_valid :
    ((rebound.prover.after 3).tree.WithinSupply ∧ (rebound.prover.after 3).tree.closes ∧
      Valid.{0} rebound) ∧
    (∃ s, rebound.prover.run 4 = some s ∧ s.tree.WithinSupply ∧ s.tree.closes ∧
      Valid.{0} rebound) ∧
    (∃ t r, rebound.judge (some 4) 4 = some (t, r) ∧ t.WithinSupply ∧ r.verdict = .valid ∧
      Valid.{0} rebound) := by
  have h := valid_of_tree_closes.{0} rebound
  refine ⟨⟨by decide +kernel, by decide +kernel, ?_⟩,
    ⟨_, rfl, by decide +kernel, by decide +kernel, ?_⟩,
    ⟨_, _, rfl, by decide +kernel, by decide +kernel, ?_⟩⟩
  · exact h.1 3 (by decide +kernel) (by decide +kernel)
  · exact h.2.1 4 _ rfl (by decide +kernel) (by decide +kernel)
  · exact h.2.2 (some 4) 4 _ _ rfl (by decide +kernel) (by decide +kernel)

end TruthTrees
