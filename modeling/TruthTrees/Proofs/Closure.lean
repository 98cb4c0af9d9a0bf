import TruthTrees.Proofs.Runs

/-!
# Closed nodes

A node is tested for contradictions only once, when it is added, and only against itself and the
nodes above it. Its branch stays the same from then on, so the test is never out of date: the
closed nodes are those that contradict their branch. Of two formulae on a branch one is in a node
at or below the other, and that node was the one to be tested.
-/

namespace TruthTrees

namespace Formula

theorem eq_atom_of_isLiteral_neg {f : Formula} (h : (neg f).isLiteral) :
    ∃ p ts, f = atom p ts := by
  cases f with
  | atom p ts => exact ⟨p, ts, rfl⟩
  | neg f => cases h
  | bin c l r => cases h
  | quant q v f => cases h

theorem contradicts_iff {f g : Formula} :
    f.contradicts g ↔
      ∃ p ts, (f = atom p ts ∧ g = neg (atom p ts)) ∨ (f = neg (atom p ts) ∧ g = atom p ts) := by
  simp only [contradicts, Bool.and_eq_true, Bool.or_eq_true, decide_eq_true_eq]
  constructor
  · rintro ⟨⟨hf, hg⟩, rfl | rfl⟩
    · obtain ⟨p, ts, rfl⟩ := eq_atom_of_isLiteral_neg hf
      exact ⟨p, ts, .inr ⟨rfl, rfl⟩⟩
    · obtain ⟨p, ts, rfl⟩ := eq_atom_of_isLiteral_neg hg
      exact ⟨p, ts, .inl ⟨rfl, rfl⟩⟩
  · rintro ⟨p, ts, ⟨rfl, rfl⟩ | ⟨rfl, rfl⟩⟩
    · exact ⟨⟨rfl, rfl⟩, .inr rfl⟩
    · exact ⟨⟨rfl, rfl⟩, .inl rfl⟩

end Formula

namespace Tree

/-- A node is closed if and only if one of its formulae contradicts its branch. -/
def ClosesContradictions (t : Tree) : Prop :=
  ∀ id, id < t.nextId → (t.entry id).closed = t.contradictsBranch id

theorem closesContradictions_start (premises : List Formula) (conclusion : Formula) :
    (Prover.start premises conclusion).tree.ClosesContradictions := by
  have hlinked : (Prover.rootTree premises conclusion).Linked := linked_ofFormulae _
  intro id hid
  obtain rfl := eq_root_of_lt_start hid
  unfold Prover.start
  dsimp only
  split_ifs with hcon
  · rw [(keepsPaths_close _ root).contradictsBranch_eq hlinked (hlinked.close _) hlinked.root_lt,
      hcon, close, entry_update_self hlinked.root_lt]
    rfl
  · rw [eq_false_of_ne_true hcon]
    rfl

theorem Reachable.closesContradictions {premises : List Formula} {conclusion : Formula} {t : Tree}
    (h : Reachable premises conclusion t) : t.ClosesContradictions := by
  induction h with
  | start => exact closesContradictions_start premises conclusion
  | @apply t id f a h ha ih =>
    have hgraft := ha.grafted h.linked
    intro x hx
    rcases Nat.lt_or_ge x t.nextId with hlt | hge
    · rw [hgraft.keeps.closed_eq hlt, hgraft.keeps.contradictsBranch_eq h.linked hgraft.linked hlt,
        ih x hlt]
    · obtain ⟨s, -, -, hgrown⟩ := hgraft.new hge hx
      exact hgrown.closed_eq

theorem ClosesContradictions.contradicts_eq_false {t : Tree} (h : t.ClosesContradictions)
    (hl : t.Linked) {leaf : NodeId} (hpath : t.OpenPath root leaf) {f g : Formula}
    (hf : f ∈ t.branch leaf) (hg : g ∈ t.branch leaf) : f.contradicts g = false := by
  -- whichever of the two is lower down would have closed its node
  have hlow : ∀ {a b : NodeId} {f g : Formula}, a ∈ t.ancestors leaf → b ∈ t.ancestors a →
      f ∈ (t.entry a).formulae → g ∈ (t.entry b).formulae → f.contradicts g = false := by
    intro a b f g ha hb hf hg
    have halt := (hpath.split hl ha).1.lt_nextId hl.root_lt
    have hopen : (t.entry a).closed = false := (hpath.split hl ha).1.skip_eq_false
    rw [h a halt, ← Bool.not_eq_true, contradictsBranch_iff] at hopen
    by_contra hfg
    exact hopen ⟨f, hf, g, mem_branch.mpr ⟨b, hb, hg⟩, by simpa using hfg⟩
  obtain ⟨a, ha, hfa⟩ := mem_branch.mp hf
  obtain ⟨b, hb, hgb⟩ := mem_branch.mp hg
  rcases ancestors_linear hl ha hb with hab | hba
  · rw [Formula.contradicts_comm]
    exact hlow hb hab hgb hfa
  · exact hlow ha hba hfa hgb

theorem contradictsBranch_iff_ancestor {t : Tree} {id : NodeId} :
    t.contradictsBranch id ↔ ∃ f ∈ (t.entry id).formulae, ∃ a ∈ t.ancestors id,
      ∃ g ∈ (t.entry a).formulae, f.contradicts g := by
  rw [contradictsBranch_iff]
  simp only [mem_branch]
  constructor
  · rintro ⟨f, hf, g, ⟨a, ha, hg⟩, hfg⟩
    exact ⟨f, hf, a, ha, g, hg, hfg⟩
  · rintro ⟨f, hf, a, ha, g, hg, hfg⟩
    exact ⟨f, hf, g, ⟨a, ha, hg⟩, hfg⟩

theorem isLeaf_start (premises : List Formula) (conclusion : Formula) :
    ((Prover.start premises conclusion).tree.entry root).isLeaf := by
  have hlinked : (Prover.rootTree premises conclusion).Linked := linked_ofFormulae _
  unfold Prover.start
  dsimp only
  split_ifs
  · rw [close, entry_update_self hlinked.root_lt]
    rfl
  · rfl

/-- Children are added below open leaves only, and a node keeps the state in which it was added. -/
theorem Reachable.isLeaf_of_closed {premises : List Formula} {conclusion : Formula} {t : Tree}
    (h : Reachable premises conclusion t) {id : NodeId} (hid : id < t.nextId)
    (hclosed : (t.entry id).closed) : (t.entry id).isLeaf := by
  induction h generalizing id with
  | start =>
    obtain rfl := eq_root_of_lt_start hid
    exact isLeaf_start premises conclusion
  | @apply t top f a h ha ih =>
    have hl := h.linked
    have hgraft := ha.grafted hl
    rcases Nat.lt_or_ge id t.nextId with hlt | hge
    · rw [hgraft.keeps.closed_eq hlt] at hclosed
      have hstays : ∀ s ∈ t.graftShoots top a.expansion, s.leaf ≠ id := by
        rintro s hs rfl
        have hleaf := (mem_growingLeaves.mp (mem_graftShoots hs).1).1
        have hopen := ((mem_leavesBelow hl (ha.lt_nextId hl)).mp hleaf).1.skip_eq_false
        rw [hclosed] at hopen
        cases hopen
      exact (hgraft.isLeaf_iff hlt hstays).mpr (ih hlt hclosed)
    · obtain ⟨s, -, -, hgrown⟩ := hgraft.new hge hid
      exact hgrown.isLeaf

end Tree

/-- Closing is exact: at every moment of a search, the closed nodes are those with a formula that
contradicts one of the node itself or of a node above it. So there is nothing below a closed node,
and no two formulae on an open branch contradict each other. -/
theorem Prover.isClosed_iff_contradicts (premises : List Formula) (conclusion : Formula)
    (n : Nat) :
    let t := (after n (start premises conclusion)).tree
    (∀ f g : Formula, f.contradicts g ↔ ∃ p ts,
      (f = .atom p ts ∧ g = .neg (.atom p ts)) ∨ (f = .neg (.atom p ts) ∧ g = .atom p ts)) ∧
    (∀ id < t.nextId, (t.isClosed id ↔ t.contradictsBranch id) ∧
      (t.contradictsBranch id ↔ ∃ f ∈ (t.entry id).formulae, ∃ a ∈ t.ancestors id,
        ∃ g ∈ (t.entry a).formulae, f.contradicts g)) ∧
    (∀ id < t.nextId, t.isClosed id → (t.entry id).children = []) ∧
    ∀ leaf ∈ t.leavesBelow Tree.root, ∀ a ∈ t.ancestors leaf, ∀ b ∈ t.ancestors leaf,
      ∀ f ∈ (t.entry a).formulae, ∀ g ∈ (t.entry b).formulae, ¬f.contradicts g := by
  intro t
  have h : Tree.Reachable premises conclusion t := reachable_after premises conclusion n
  have hl := h.linked
  refine ⟨fun _ _ => Formula.contradicts_iff, ?_, ?_, ?_⟩
  · intro id hid
    refine ⟨?_, Tree.contradictsBranch_iff_ancestor⟩
    rw [Tree.isClosed, h.closesContradictions id hid]
  · intro id hid hclosed
    exact Entry.isLeaf_iff_children.mp (h.isLeaf_of_closed hid hclosed)
  · intro leaf hleaf a ha b hb f hf g hg
    have hpath := ((Tree.mem_leavesBelow hl hl.root_lt).mp hleaf).1
    rw [h.closesContradictions.contradicts_eq_false hl hpath (Tree.mem_branch.mpr ⟨a, ha, hf⟩)
      (Tree.mem_branch.mpr ⟨b, hb, hg⟩)]
    exact Bool.false_ne_true

/-- From `P ∨ Q` to `P`. The first step closes the branch with `P` and leaves the one with `Q`
open. -/
theorem Prover.contradicts_disjunct :
    let t := (after 1 (start [.bin .disj (.atom 'P' []) (.atom 'Q' [])] (.atom 'P' []))).tree
    (1 < t.nextId ∧ t.isClosed 1 ∧ t.contradictsBranch 1 ∧ (t.entry 1).children = []) ∧
    2 ∈ t.leavesBelow Tree.root ∧ 2 ∈ t.ancestors 2 ∧ Tree.root ∈ t.ancestors 2 ∧
      .atom 'Q' [] ∈ (t.entry 2).formulae ∧
      .neg (.atom 'P' []) ∈ (t.entry Tree.root).formulae ∧
      ¬(Formula.atom 'Q' []).contradicts (.neg (.atom 'P' [])) := by
  intro t
  obtain ⟨-, hclosed, hchildren, hopen⟩ := isClosed_iff_contradicts
    [.bin .disj (.atom 'P' []) (.atom 'Q' [])] (.atom 'P' []) 1
  have hone : 1 < t.nextId ∧ t.isClosed 1 := by decide +kernel
  have hleaf : 2 ∈ t.leavesBelow Tree.root ∧ 2 ∈ t.ancestors 2 ∧ Tree.root ∈ t.ancestors 2 := by
    decide +kernel
  have hmem : .atom 'Q' [] ∈ (t.entry 2).formulae ∧
      .neg (.atom 'P' []) ∈ (t.entry Tree.root).formulae := by decide +kernel
  refine ⟨⟨hone.1, hone.2, (hclosed 1 hone.1).1.mp hone.2, hchildren 1 hone.1 hone.2⟩,
    hleaf.1, hleaf.2.1, hleaf.2.2, hmem.1, hmem.2, ?_⟩
  exact hopen 2 hleaf.1 2 hleaf.2.1 Tree.root hleaf.2.2 _ hmem.1 _ hmem.2

end TruthTrees
