import TruthTrees.Proofs.Building

/-!
# What grows where

A graft adds one child for every branch of its expansion below each leaf at which the expansion is
not redundant. All else stays as it was, so the list of leaves changes only in that every leaf that
has grown gives way to its open children. Whether a new node is closed depends on its branch and on
what is above its leaf, and can be told before the graft.
-/

namespace TruthTrees

namespace Tree

variable {t u : Tree} {shoots : List Shoot}

theorem wouldClose_iff {leaf : NodeId} {n : Node} :
    t.wouldClose leaf n ↔
      ∃ f ∈ n.formulae, ∃ g ∈ n.formulae ++ t.branch leaf, f.contradicts g := by
  simp only [wouldClose, Node.contradicts, Bool.or_eq_true, List.any_eq_true, List.mem_append,
    mem_branch]
  constructor
  · rintro (⟨f, hf, g, hg, hfg⟩ | ⟨a, ha, f, hf, g, hg, hfg⟩)
    · exact ⟨f, hf, g, .inl hg, hfg⟩
    · exact ⟨f, hf, g, .inr ⟨a, ha, hg⟩, hfg⟩
  · rintro ⟨f, hf, g, hg | ⟨a, ha, hg⟩, hfg⟩
    · exact .inl ⟨f, hf, g, hg, hfg⟩
    · exact .inr ⟨a, ha, f, hf, g, hg, hfg⟩

namespace Grafted

/-! ### New nodes -/

section New

variable (h : Grafted t shoots u) (ht : t.Linked) {s : Shoot} (hs : s ∈ shoots) {x : NodeId}
  (hx : u.IsGrown x s)

include h ht hs hx

/-- What a new node would contradict below its leaf is what it does contradict there. -/
theorem closed_eq : (u.entry x).closed = t.wouldClose s.leaf (.ofFormulae s.formulae) := by
  rw [hx.closed_eq, Bool.eq_iff_iff, contradictsBranch_iff, wouldClose_iff, hx.formulae_eq,
    h.branch_eq ht hs hx]
  rfl

variable (hopen : (u.entry x).closed = false)

include hopen

theorem openAncestors_eq : u.openAncestors x = x :: t.openAncestors s.leaf := by
  rw [openAncestors_of_parent h.linked hx.parent_eq hopen,
    h.keeps.openAncestors_eq ht h.linked (h.leaf_lt s hs)]

theorem branchContains_iff {f : Formula} :
    u.branchContains x f ↔ f ∈ s.formulae ∨ t.branchContains s.leaf f := by
  rw [branchContains_iff_openAncestors, h.openAncestors_eq ht hs hx hopen,
    List.exists_mem_cons_iff, hx.formulae_eq,
    ← h.keeps.branchContains_eq ht h.linked (h.leaf_lt s hs), branchContains_iff_openAncestors,
    h.keeps.openAncestors_eq ht h.linked (h.leaf_lt s hs)]

theorem mem_constantsAt_iff {c : Term} :
    c ∈ u.constantsAt x ↔
      (∃ f ∈ s.formulae, c ∈ f.freeOccurrences) ∨ c ∈ t.constantsAt s.leaf := by
  rw [mem_constantsAt_iff_openAncestors, h.openAncestors_eq ht hs hx hopen,
    List.exists_mem_cons_iff, hx.formulae_eq,
    ← h.keeps.constantsAt_eq ht h.linked (h.leaf_lt s hs), mem_constantsAt_iff_openAncestors,
    h.keeps.openAncestors_eq ht h.linked (h.leaf_lt s hs)]

end New

/-! ### Places -/

theorem children_eq (h : Grafted t shoots u) {id : NodeId} (hid : id < t.nextId)
    (hstays : ∀ s ∈ shoots, s.leaf ≠ id) : (u.entry id).children = (t.entry id).children := by
  have hside : ∀ side, (u.entry id).child side = (t.entry id).child side := by
    intro side
    exact h.child_eq hid fun s hs heq => absurd heq (hstays s hs)
  have hl : (u.entry id).left = (t.entry id).left := hside .left
  have hr : (u.entry id).right = (t.entry id).right := hside .right
  rw [Entry.children, Entry.children, hl, hr]

theorem isGrown_of_mem_children (h : Grafted t shoots u) (ht : t.Linked) {leaf c : NodeId}
    (hleaf : (t.entry leaf).isLeaf) (hc : c ∈ (u.entry leaf).children) :
    ∃ s ∈ shoots, u.IsGrown c s := by
  have hp : (u.entry c).parent = some leaf := h.linked.mem_children_iff.mp hc
  rcases Nat.lt_or_ge c t.nextId with hlt | hge
  · rw [h.keeps.parent_eq hlt, ← ht.mem_children_iff, Entry.isLeaf_iff_children.mp hleaf] at hp
    cases hp
  · obtain ⟨s, hs, -, hgrown⟩ := h.new hge (lt_of_parent hp)
    exact ⟨s, hs, hgrown⟩

/-- Below a leaf that grows there is one new node for every branch of the expansion, each in its
place. -/
theorem forall₂_children (h : Grafted t shoots u) {e : Expansion} {leaf : NodeId}
    (hlt : leaf < t.nextId) (hleaf : (t.entry leaf).isLeaf)
    (hshoots : ∀ s : Shoot, s.leaf = leaf → (s ∈ shoots ↔ s ∈ e.shoots leaf)) :
    List.Forall₂
      (fun c s => ⟨leaf, s.1, s.2⟩ ∈ shoots ∧ t.nextId ≤ c ∧ (u.entry leaf).child s.1 = some c ∧
        u.IsGrown c ⟨leaf, s.1, s.2⟩)
      (u.entry leaf).children e.sides := by
  have htaken : ∀ p ∈ e.sides, ∃ c, ⟨leaf, p.1, p.2⟩ ∈ shoots ∧ t.nextId ≤ c ∧
      (u.entry leaf).child p.1 = some c ∧ u.IsGrown c ⟨leaf, p.1, p.2⟩ := by
    intro p hp
    have hs : ⟨leaf, p.1, p.2⟩ ∈ shoots := (hshoots _ rfl).mpr (List.mem_map_of_mem hp)
    obtain ⟨c, hc⟩ := h.grown _ hs
    exact ⟨c, hs, hc⟩
  have hfree : ∀ side, (∀ p ∈ e.sides, p.1 ≠ side) → (u.entry leaf).child side = none := by
    intro side hside
    rw [h.child_eq hlt, Entry.isLeaf_iff_child.mp hleaf]
    intro s hs heq
    obtain ⟨p, hp, rfl⟩ := List.mem_map.mp ((hshoots s heq).mp hs)
    exact hside p hp
  cases e with
  | linear b =>
    obtain ⟨c, hc⟩ := htaken (.left, b) List.mem_cons_self
    have hl : (u.entry leaf).left = some c := hc.2.2.1
    have hr : (u.entry leaf).right = none := by
      apply hfree .right
      intro p hp
      rw [List.mem_singleton.mp hp]
      exact Side.noConfusion
    rw [Entry.children, hl, hr]
    exact .cons hc .nil
  | split l r =>
    obtain ⟨c, hc⟩ := htaken (.left, l) List.mem_cons_self
    obtain ⟨d, hd⟩ := htaken (.right, r) (List.mem_cons_of_mem _ List.mem_cons_self)
    have hl : (u.entry leaf).left = some c := hc.2.2.1
    have hr : (u.entry leaf).right = some d := hd.2.2.1
    rw [Entry.children, hl, hr]
    exact .cons hc (.cons hd .nil)

/-! ### Leaves -/

/-- The leaves after a graft stand below those from before it, in the same order. -/
theorem leavesBelow_eq_flatMap (h : Grafted t shoots u) (ht : t.Linked)
    (hleaves : ∀ s ∈ shoots, (t.entry s.leaf).isLeaf) {top : NodeId} (htop : top < t.nextId) :
    u.leavesBelow top = (t.leavesBelow top).flatMap u.leavesBelow := by
  induction top, htop using ht.induction_children with
  | node top htop ih =>
    have htop' : top < u.nextId := Nat.lt_of_lt_of_le htop h.keeps.nextId_le
    rw [leavesBelow_eq ht htop]
    split_ifs with hclosed hleaf
    · rw [leavesBelow_eq h.linked htop', h.keeps.closed_eq htop, if_pos hclosed, List.flatMap_nil]
    · rw [List.flatMap_singleton]
    · -- only leaves grow, so an inner node keeps its children
      have hstays : ∀ s ∈ shoots, s.leaf ≠ top := by
        rintro s hs rfl
        exact hleaf (hleaves s hs)
      have hinner : ¬(u.entry top).isLeaf := fun hu => hleaf ((h.isLeaf_iff htop hstays).mp hu)
      rw [leavesBelow_eq h.linked htop', h.keeps.closed_eq htop, if_neg hclosed, if_neg hinner,
        h.children_eq htop hstays, List.flatMap_assoc]
      apply List.flatMap_congr
      intro c hc
      exact ih c (ht.mem_children_iff.mp hc)

end Grafted

/-! ### Grafts -/

theorem mem_graftShoots_iff {id leaf : NodeId} {e : Expansion} (hleaf : leaf ∈ t.growingLeaves id e)
    {s : Shoot} (hs : s.leaf = leaf) : s ∈ t.graftShoots id e ↔ s ∈ e.shoots leaf := by
  constructor
  · intro hmem
    obtain ⟨other, -, hother⟩ := List.mem_flatMap.mp hmem
    rw [← hs, Expansion.leaf_of_mem_shoots hother]
    exact hother
  · intro hmem
    exact List.mem_flatMap.mpr ⟨leaf, hleaf, hmem⟩

theorem leaf_ne_of_mem_graftShoots {id x : NodeId} {e : Expansion} (hx : x ∉ t.growingLeaves id e) :
    ∀ s ∈ t.graftShoots id e, s.leaf ≠ x := by
  rintro s hs rfl
  exact hx (mem_graftShoots hs).1

theorem entry_of_isGrown {id : NodeId} (e : Expansion) {x : NodeId} (hx : t.nextId ≤ x) {s : Shoot}
    (hgrown : (t.graft id e).1.IsGrown x s) :
    (t.graft id e).1.entry x =
      { formulae := s.formulae
        closed := (t.graft id e).1.isClosed x
        parent := some s.leaf } := by
  have hticks : ((t.graft id e).1.entry x).ticked = [] := by
    rw [ticked_graft, entry_of_le hx]
    rfl
  have hfree := Entry.isLeaf_iff_child.mp hgrown.isLeaf
  rw [Entry.mk.injEq, Node.mk.injEq]
  exact ⟨⟨hgrown.formulae_eq, hticks, rfl⟩, hgrown.parent_eq, hfree .left, hfree .right⟩

section Graft

variable (h : t.Linked) {id : NodeId} (hid : id < t.nextId) (e : Expansion)

include h hid

theorem isLeaf_of_mem_leavesBelow {leaf : NodeId} (hleaf : leaf ∈ t.leavesBelow id) :
    leaf < t.nextId ∧ (t.entry leaf).closed = false ∧ (t.entry leaf).isLeaf := by
  obtain ⟨hpath, hisLeaf⟩ := (mem_leavesBelow h hid).mp hleaf
  exact ⟨hpath.lt_nextId hid, hpath.skip_eq_false, hisLeaf⟩

theorem graft_eq_self (hred : ∀ leaf ∈ t.leavesBelow id, t.isRedundant leaf e) :
    t.graft id e = (t, false) := by
  have hnone : t.growingLeaves id e = [] := by
    rw [List.eq_nil_iff_forall_not_mem]
    intro leaf hleaf
    obtain ⟨hbelow, hgrows⟩ := mem_growingLeaves.mp hleaf
    rw [hred leaf hbelow] at hgrows
    cases hgrows
  have hflag : (t.graft id e).2 = false := by
    rw [(grafted_graft h hid e).2, hnone]
    rfl
  exact Prod.ext (graftAt_of_false hflag) hflag

theorem toNode_graft {x : NodeId} (hx : x < t.nextId) :
    ((t.graft id e).1.entry x).toNode = (t.entry x).toNode ∧
      ((t.graft id e).1.entry x).parent = (t.entry x).parent := by
  have hkeeps := (grafted_graft h hid e).1.keeps
  have hticks := ticked_graft t id e x
  refine ⟨?_, hkeeps.parent_eq hx⟩
  rw [Node.mk.injEq]
  exact ⟨hkeeps.formulae_eq hx, hticks, hkeeps.closed_eq hx⟩

theorem forall₂_children_graft {leaf : NodeId} (hleaf : leaf ∈ t.growingLeaves id e) :
    List.Forall₂
      (fun c s => ⟨leaf, s.1, s.2⟩ ∈ t.graftShoots id e ∧ t.nextId ≤ c ∧
        ((t.graft id e).1.entry leaf).child s.1 = some c ∧
        (t.graft id e).1.IsGrown c ⟨leaf, s.1, s.2⟩)
      ((t.graft id e).1.entry leaf).children e.sides := by
  obtain ⟨hlt, -, hisLeaf⟩ := isLeaf_of_mem_leavesBelow h hid (mem_growingLeaves.mp hleaf).1
  apply (grafted_graft h hid e).1.forall₂_children hlt hisLeaf
  intro s hs
  exact mem_graftShoots_iff hleaf hs

theorem leavesBelow_graft_of_isRedundant {leaf : NodeId} (hleaf : leaf ∈ t.leavesBelow id)
    (hred : t.isRedundant leaf e) : (t.graft id e).1.leavesBelow leaf = [leaf] := by
  have hgraft := (grafted_graft h hid e).1
  obtain ⟨hlt, hopen, hisLeaf⟩ := isLeaf_of_mem_leavesBelow h hid hleaf
  have hstays : leaf ∉ t.growingLeaves id e := by
    intro hgrow
    rw [(mem_growingLeaves.mp hgrow).2] at hred
    cases hred
  have hstill := (hgraft.isLeaf_iff hlt (leaf_ne_of_mem_graftShoots hstays)).mpr hisLeaf
  rw [leavesBelow_eq hgraft.linked (Nat.lt_of_lt_of_le hlt hgraft.keeps.nextId_le),
    hgraft.keeps.closed_eq hlt, hopen, if_neg Bool.false_ne_true, if_pos hstill]

theorem leavesBelow_graft_of_grows {leaf : NodeId} (hgrow : leaf ∈ t.growingLeaves id e) :
    (t.graft id e).1.leavesBelow leaf =
      ((t.graft id e).1.entry leaf).children.filter fun c => !(t.graft id e).1.isClosed c := by
  have hgraft := (grafted_graft h hid e).1
  obtain ⟨hlt, hopen, hisLeaf⟩ := isLeaf_of_mem_leavesBelow h hid (mem_growingLeaves.mp hgrow).1
  have hchildren := forall₂_children_graft h hid e hgrow
  have hinner : ¬((t.graft id e).1.entry leaf).isLeaf := by
    rw [Entry.isLeaf_iff_children]
    intro hnil
    rw [hnil] at hchildren
    cases e <;> cases hchildren
  rw [leavesBelow_eq hgraft.linked (Nat.lt_of_lt_of_le hlt hgraft.keeps.nextId_le),
    hgraft.keeps.closed_eq hlt, hopen, if_neg Bool.false_ne_true, if_neg hinner]
  apply flatMap_leavesBelow hgraft.linked
  intro c hc
  obtain ⟨s, -, hgrown⟩ := hgraft.isGrown_of_mem_children h hisLeaf hc
  exact ⟨lt_of_parent hgrown.parent_eq, hgrown.isLeaf⟩

theorem leavesBelow_graft :
    (t.graft id e).1.leavesBelow id = (t.leavesBelow id).flatMap fun leaf =>
      if t.isRedundant leaf e then [leaf]
      else ((t.graft id e).1.entry leaf).children.filter fun c => !(t.graft id e).1.isClosed c := by
  have hgrows : ∀ s ∈ t.graftShoots id e, (t.entry s.leaf).isLeaf := by
    intro s hs
    have hleaf := (mem_growingLeaves.mp (mem_graftShoots hs).1).1
    exact (isLeaf_of_mem_leavesBelow h hid hleaf).2.2
  rw [(grafted_graft h hid e).1.leavesBelow_eq_flatMap h hgrows hid]
  apply List.flatMap_congr
  intro leaf hleaf
  by_cases hred : t.isRedundant leaf e
  · rw [if_pos hred, leavesBelow_graft_of_isRedundant h hid e hleaf hred]
  · have hgrow := mem_growingLeaves.mpr ⟨hleaf, eq_false_of_ne_true hred⟩
    rw [if_neg hred, leavesBelow_graft_of_grows h hid e hgrow]

theorem isRedundant_graft {leaf : NodeId} (hleaf : leaf ∈ (t.graft id e).1.leavesBelow id) :
    (t.graft id e).1.isRedundant leaf e := by
  have hgraft := (grafted_graft h hid e).1
  rcases hgraft.leavesBelow_cases h hid hleaf with ⟨hold, hstays⟩ | ⟨s, hs, hgrown, -, hopen⟩
  · obtain ⟨hlt, -, -⟩ := isLeaf_of_mem_leavesBelow h hid hold
    rw [hgraft.keeps.isRedundant_eq h hgraft.linked hlt]
    by_contra hred
    obtain ⟨b, hb⟩ := e.exists_branch
    have hgrow := mem_growingLeaves.mpr ⟨hold, eq_false_of_ne_true hred⟩
    obtain ⟨s, hs, hsl, -⟩ := exists_graftShoot hgrow hb
    exact hstays s hs hsl
  · -- the new node holds a whole branch of the expansion
    simp only [isRedundant, List.any_eq_true, List.all_eq_true]
    refine ⟨s.formulae, (mem_graftShoots hs).2, ?_⟩
    intro f hf
    exact (hgraft.branchContains_iff h hs hgrown hopen).mpr (.inl hf)

theorem nextId_lt_graft_iff :
    t.nextId < (t.graft id e).1.nextId ↔ t.growingLeaves id e ≠ [] := by
  rw [(grafted_graft h hid e).1.nextId_lt_iff, ne_eq, graftShoots_eq_nil_iff]

/-- All that a graft adds is closed exactly if this can be told of every leaf that grows. -/
theorem closed_graft_iff :
    (∀ x, t.nextId ≤ x → x < (t.graft id e).1.nextId → (t.graft id e).1.isClosed x) ↔
      ∀ leaf ∈ t.growingLeaves id e, t.closesAt e leaf := by
  have hgraft := (grafted_graft h hid e).1
  simp only [closesAt, List.all_eq_true]
  constructor
  · intro hclosed leaf hleaf b hb
    obtain ⟨s, hs, rfl, rfl⟩ := exists_graftShoot hleaf hb
    obtain ⟨x, hge, -, hgrown⟩ := hgraft.grown s hs
    rw [← hgraft.closed_eq h hs hgrown]
    exact hclosed x hge (lt_of_parent hgrown.parent_eq)
  · intro hcloses x hge hlt
    obtain ⟨s, hs, -, hgrown⟩ := hgraft.new hge hlt
    obtain ⟨hleaf, hb⟩ := mem_graftShoots hs
    rw [isClosed, hgraft.closed_eq h hs hgrown]
    exact hcloses s.leaf hleaf s.formulae hb

end Graft

/-! ### Trees that are built by hand -/

/-- The whole effect of a graft. The nodes that were there keep their contents and parents, and they
keep their children unless they are open leaves below `id` at which the expansion is not redundant.
Such a leaf gets one child for every branch, in order, without ticks, and closed exactly if it
contradicts itself or what is above it. There are no other new nodes. In the list of leaves every
leaf that has grown is replaced by its open children, and the answer tells whether there was one. -/
theorem Built.graft_effect {t : Tree} (hbuilt : t.Built) {id : NodeId} (hid : id < t.nextId)
    (e : Expansion) :
    let u := (t.graft id e).1
    (∀ x < t.nextId, (u.entry x).toNode = (t.entry x).toNode ∧
      (u.entry x).parent = (t.entry x).parent) ∧
    (∀ x < t.nextId, ¬(x ∈ t.leavesBelow id ∧ t.isRedundant x e = false) →
      ∀ side, (u.entry x).child side = (t.entry x).child side) ∧
    (∀ leaf ∈ t.leavesBelow id, t.isRedundant leaf e = false →
      List.Forall₂
        (fun c s => t.nextId ≤ c ∧ (u.entry leaf).child s.1 = some c ∧
          u.entry c = { formulae := s.2, closed := u.isClosed c, parent := some leaf } ∧
          (u.isClosed c ↔ ∃ f ∈ s.2, ∃ g ∈ s.2 ++ t.branch leaf, f.contradicts g))
        (u.entry leaf).children e.sides) ∧
    (∀ x, t.nextId ≤ x → x < u.nextId →
      ∃ leaf ∈ t.leavesBelow id, t.isRedundant leaf e = false ∧ x ∈ (u.entry leaf).children) ∧
    (u.leavesBelow id = (t.leavesBelow id).flatMap fun leaf =>
      if t.isRedundant leaf e then [leaf]
      else (u.entry leaf).children.filter fun c => !u.isClosed c) ∧
    ((t.graft id e).2 ↔ ∃ leaf ∈ t.leavesBelow id, t.isRedundant leaf e = false) := by
  intro u
  have h := hbuilt.linked
  obtain ⟨hgraft, hflag⟩ := grafted_graft h hid e
  refine ⟨fun x hx => toNode_graft h hid e hx, ?_, ?_, ?_, leavesBelow_graft h hid e, ?_⟩
  · intro x hx hstays side
    have hnot : x ∉ t.growingLeaves id e := fun hgrow => hstays (mem_growingLeaves.mp hgrow)
    apply hgraft.child_eq hx
    intro s hs heq
    exact absurd heq (leaf_ne_of_mem_graftShoots hnot s hs)
  · intro leaf hleaf hgrows
    have hgrow := mem_growingLeaves.mpr ⟨hleaf, hgrows⟩
    apply (forall₂_children_graft h hid e hgrow).imp
    rintro c s ⟨hs, hnew, hplace, hgrown⟩
    refine ⟨hnew, hplace, entry_of_isGrown e hnew hgrown, ?_⟩
    rw [isClosed, hgraft.closed_eq h hs hgrown]
    exact wouldClose_iff
  · intro x hge hlt
    obtain ⟨s, hs, hplace, -⟩ := hgraft.new hge hlt
    obtain ⟨hleaf, hgrows⟩ := mem_growingLeaves.mp (mem_graftShoots hs).1
    exact ⟨s.leaf, hleaf, hgrows, Entry.mem_children_iff_child.mpr ⟨s.side, hplace⟩⟩
  · rw [hflag, Bool.not_eq_true', List.isEmpty_eq_false_iff_exists_mem]
    simp only [mem_growingLeaves]

/-- The given formulae, and below them one branch with `P` and one with its negation. -/
def forked (fs : List Formula) : Tree :=
  ((ofFormulae fs).request root (.ofFormulae [.atom 'P' []])).request root
    (.ofFormulae [.neg (.atom 'P' [])])

theorem built_forked (fs : List Formula) : (forked fs).Built := by
  have hfirst := (Built.single fs).request root Nat.zero_lt_one (.ofFormulae [.atom 'P' []])
  exact hfirst.request root Nat.zero_lt_two _

/-- Only the branch without `P` grows when `P ∨ Q` is decomposed, and its first child is closed. -/
theorem Built.graft_effect_forked :
    let t := forked [.bin .disj (.atom 'P' []) (.atom 'Q' [])]
    let e := Expansion.split [.atom 'P' []] [.atom 'Q' []]
    let u := (t.graft root e).1
    t.Built ∧ root < t.nextId ∧ t.leavesBelow root = [1, 2] ∧
      t.isRedundant 1 e ∧ t.isRedundant 2 e = false ∧
      (u.entry 1).toNode = (t.entry 1).toNode ∧ (∀ side, (u.entry 1).child side = none) ∧
      (u.entry 2).children = [3, 4] ∧
      List.Forall₂
        (fun c s => (u.entry 2).child s.1 = some c ∧
          u.entry c = { formulae := s.2, closed := u.isClosed c, parent := some 2 } ∧
          (u.isClosed c ↔ ∃ f ∈ s.2, ∃ g ∈ s.2 ++ t.branch 2, f.contradicts g))
        [3, 4] e.sides ∧
      u.isClosed 3 ∧ u.isClosed 4 = false ∧ u.leavesBelow root = [1, 4] ∧
      (t.graft root e).2 := by
  intro t e u
  have hbuilt : t.Built := built_forked _
  have hroot : root < t.nextId := by decide
  have hleaves : t.leavesBelow root = [1, 2] := by decide +kernel
  have hred : t.isRedundant 1 e ∧ t.isRedundant 2 e = false := by decide +kernel
  have hchildren : (u.entry 2).children = [3, 4] := by decide +kernel
  obtain ⟨hold, hplace, hnew, -, hafter, hflag⟩ := hbuilt.graft_effect hroot e
  have hgrown := hnew 2 (by rw [hleaves]; decide) hred.2
  rw [hchildren] at hgrown
  refine ⟨hbuilt, hroot, hleaves, hred.1, hred.2, (hold 1 (by decide)).1, ?_, hchildren, ?_, ?_, ?_,
    ?_, ?_⟩
  · intro side
    rw [hplace 1 (by decide) (by simp [hred.1]) side]
    cases side <;> rfl
  · apply hgrown.imp
    intro c s hc
    exact hc.2
  · decide +kernel
  · decide +kernel
  · rw [hafter, hleaves]
    decide +kernel
  · exact hflag.mpr ⟨2, by rw [hleaves]; decide, hred.2⟩

/-- The preference for contradictions tells beforehand what a graft does: it holds exactly if there
is a rule whose graft adds at least one node and closes all that it adds. -/
theorem Built.closesEveryBranch_iff_graft {t : Tree} (hbuilt : t.Built) {id : NodeId}
    (hid : id < t.nextId) (f : Formula) :
    t.closesEveryBranch id f ↔
      ∃ a, t.ruleFor? id f = some a ∧ t.nextId < (t.graft id a.expansion).1.nextId ∧
        ∀ x, t.nextId ≤ x → x < (t.graft id a.expansion).1.nextId →
          (t.graft id a.expansion).1.isClosed x := by
  have h := hbuilt.linked
  unfold closesEveryBranch
  cases hrule : t.ruleFor? id f with
  | none => simp
  | some a =>
    simp [nextId_lt_graft_iff h hid, closed_graft_iff h hid]

/-- With `¬Q` at the root both new nodes are closed, and without it one of them is not. The branch
with `P` does not count. -/
theorem Built.closesEveryBranch_forked :
    let f : Formula := .bin .disj (.atom 'P' []) (.atom 'Q' [])
    let e := Expansion.split [.atom 'P' []] [.atom 'Q' []]
    let t := forked [f]
    let u := forked [f, .neg (.atom 'Q' [])]
    t.Built ∧ root < t.nextId ∧ t.closesEveryBranch root f = false ∧
      (t.graft root e).1.isClosed 3 ∧ (t.graft root e).1.isClosed 4 = false ∧
    u.Built ∧ root < u.nextId ∧ u.closesEveryBranch root f ∧
      u.nextId < (u.graft root e).1.nextId ∧
      ∀ x, u.nextId ≤ x → x < (u.graft root e).1.nextId → (u.graft root e).1.isClosed x := by
  intro f e t u
  have ht : t.Built := built_forked _
  have hu : u.Built := built_forked _
  have hroot : root < t.nextId := by decide
  have hopen : (t.graft root e).1.isClosed 4 = false := by decide +kernel
  have hcloses : u.closesEveryBranch root f := by decide +kernel
  obtain ⟨a, ha, hgrows, hclosed⟩ := (hu.closesEveryBranch_iff_graft (by decide) f).mp hcloses
  cases ha
  refine ⟨ht, hroot, ?_, by decide +kernel, hopen, hu, by decide, hcloses, hgrows, hclosed⟩
  by_contra htrue
  obtain ⟨a, ha, -, hall⟩ := (ht.closesEveryBranch_iff_graft hroot f).mp (by simpa using htrue)
  cases ha
  have hfour : (t.graft root e).1.isClosed 4 := hall 4 (by decide) (by decide +kernel)
  rw [hopen] at hfour
  cases hfour

/-- Grafting the same expansion again comes to nothing, because at every open leaf that the first
graft leaves, one of the branches is there already. The tree stays as it is, and the answer says
so. -/
theorem Built.graft_idempotent {t : Tree} (hbuilt : t.Built) {id : NodeId} (hid : id < t.nextId)
    (e : Expansion) :
    let u := (t.graft id e).1
    (∀ leaf ∈ u.leavesBelow id, u.isRedundant leaf e) ∧ u.graft id e = (u, false) := by
  intro u
  have h := hbuilt.linked
  have hgraft := (grafted_graft h hid e).1
  have hred : ∀ leaf ∈ u.leavesBelow id, u.isRedundant leaf e := by
    intro leaf hleaf
    exact isRedundant_graft h hid e hleaf
  have hstill : id < u.nextId := Nat.lt_of_lt_of_le hid hgraft.keeps.nextId_le
  exact ⟨hred, graft_eq_self hgraft.linked hstill e hred⟩

/-- A closed root with `P`, and below it a node with `Q` that has one leaf with `Q` and one with
`R`. -/
def capped : Tree :=
  let t := (ofFormulae [.atom 'P' []]).request root (.ofFormulae [.atom 'Q' []])
  ((t.request 1 (.ofFormulae [.atom 'Q' []])).request 1 (.ofFormulae [.atom 'R' []])).close root

/-- The leaf with `R` is passed over, and the other one gets an open child and a closed one, since
`¬P` contradicts the root in spite of its being closed. -/
theorem Built.graft_idempotent_capped :
    let e := Expansion.split [.atom 'R' []] [.neg (.atom 'P' [])]
    let u := (capped.graft 1 e).1
    capped.Built ∧ 1 < capped.nextId ∧ capped.leavesBelow 1 = [2, 3] ∧
      (capped.graft 1 e).2 ∧ u.leavesBelow 1 = [4, 3] ∧ u.isClosed 5 ∧
      u.isRedundant 4 e ∧ u.isRedundant 3 e ∧ u.graft 1 e = (u, false) := by
  intro e u
  have hbuilt : capped.Built := by
    have hnode := (Built.single [.atom 'P' []]).request root (by decide)
      (.ofFormulae [.atom 'Q' []])
    exact ((hnode.request 1 (by decide) _).request 1 (by decide) _).close (by decide)
  have hid : 1 < capped.nextId := by decide
  have hleaves : u.leavesBelow 1 = [4, 3] := by decide +kernel
  obtain ⟨hred, hgraft⟩ := hbuilt.graft_idempotent hid e
  refine ⟨hbuilt, hid, by decide +kernel, by decide +kernel, hleaves, by decide +kernel, ?_, ?_,
    hgraft⟩
  · exact hred 4 (by rw [hleaves]; decide)
  · exact hred 3 (by rw [hleaves]; decide)

end Tree

end TruthTrees
