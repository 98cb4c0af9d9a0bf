import TruthTrees.Search.Prover
import TruthTrees.Proofs.Grafting

/-!
# Applying rules

A rule that adds no nodes leaves at most a tick behind, so the tree keeps its shape. The trees that
come up in a search are those that come from its first tree by applying rules, whether they add
nodes or not.
-/

namespace TruthTrees

namespace Tree

/-! ### Trees that differ in their ticks -/

/-- The trees differ in nothing but ticks. -/
structure SameShape (t u : Tree) : Prop where
  nextId_eq : u.nextId = t.nextId
  formulae_eq : ∀ id, (u.entry id).formulae = (t.entry id).formulae
  closed_eq : ∀ id, (u.entry id).closed = (t.entry id).closed
  parent_eq : ∀ id, (u.entry id).parent = (t.entry id).parent
  child_eq : ∀ id side, (u.entry id).child side = (t.entry id).child side

namespace SameShape

variable {t u v : Tree}

theorem refl (t : Tree) : t.SameShape t :=
  ⟨rfl, fun _ => rfl, fun _ => rfl, fun _ => rfl, fun _ _ => rfl⟩

theorem trans (h : t.SameShape u) (h' : u.SameShape v) : t.SameShape v :=
  ⟨h'.nextId_eq.trans h.nextId_eq, fun id => (h'.formulae_eq id).trans (h.formulae_eq id),
    fun id => (h'.closed_eq id).trans (h.closed_eq id),
    fun id => (h'.parent_eq id).trans (h.parent_eq id),
    fun id side => (h'.child_eq id side).trans (h.child_eq id side)⟩

theorem keeps (h : t.SameShape u) : t.Keeps u :=
  ⟨⟨Nat.le_of_eq h.nextId_eq.symm, fun {id} _ => h.formulae_eq id, fun {id} _ => h.parent_eq id⟩,
    fun {id} _ => h.closed_eq id⟩

theorem children_eq (h : t.SameShape u) (id : NodeId) :
    (u.entry id).children = (t.entry id).children := by
  have hl : (u.entry id).left = (t.entry id).left := h.child_eq id .left
  have hr : (u.entry id).right = (t.entry id).right := h.child_eq id .right
  rw [Entry.children, Entry.children, hl, hr]

theorem isLeaf_eq (h : t.SameShape u) (id : NodeId) :
    (u.entry id).isLeaf = (t.entry id).isLeaf := by
  rw [Bool.eq_iff_iff, Entry.isLeaf_iff_children, Entry.isLeaf_iff_children, h.children_eq]

theorem ancestors_eq (h : t.SameShape u) (id : NodeId) : u.ancestors id = t.ancestors id := by
  have hlevels : ∀ n id, u.levelsAbove n id = t.levelsAbove n id := by
    intro n
    induction n with
    | zero => exact fun _ => rfl
    | succ n ih =>
      intro id
      simp only [levelsAbove, h.parent_eq, ih]
  rw [ancestors, ancestors, h.nextId_eq, hlevels]

theorem branch_eq (h : t.SameShape u) (id : NodeId) : u.branch id = t.branch id := by
  simp only [branch, h.ancestors_eq, h.formulae_eq]

theorem openAncestors_eq (h : t.SameShape u) (id : NodeId) :
    u.openAncestors id = t.openAncestors id := by
  simp only [openAncestors, isClosed, h.ancestors_eq, h.closed_eq]

theorem descendants_eq (h : t.SameShape u) (id : NodeId) :
    u.descendants (fun e => e.closed) id = t.descendants (fun e => e.closed) id := by
  have hlevels : ∀ n id, u.levelsBelow (fun e => e.closed) n id =
      t.levelsBelow (fun e => e.closed) n id := by
    intro n
    induction n with
    | zero => exact fun _ => rfl
    | succ n ih =>
      intro id
      simp only [levelsBelow, h.closed_eq, h.children_eq, funext ih]
  rw [descendants, descendants, h.nextId_eq, hlevels]

theorem openNodes_eq (h : t.SameShape u) : u.openNodes = t.openNodes :=
  h.descendants_eq root

theorem leavesBelow_eq (h : t.SameShape u) (id : NodeId) : u.leavesBelow id = t.leavesBelow id := by
  simp only [leavesBelow, h.descendants_eq, h.isLeaf_eq]

theorem openFormulae_eq (h : t.SameShape u) : u.openFormulae = t.openFormulae := by
  simp only [openFormulae, h.openNodes_eq, h.formulae_eq]

theorem constantsAt_eq (h : t.SameShape u) (id : NodeId) : u.constantsAt id = t.constantsAt id := by
  simp only [constantsAt, Node.constants, h.openAncestors_eq, h.formulae_eq]

theorem isRedundant_eq (h : t.SameShape u) (id : NodeId) (e : Expansion) :
    u.isRedundant id e = t.isRedundant id e := by
  have hb : u.branchContains id = t.branchContains id := by
    funext f
    simp only [branchContains, Node.contains, h.openAncestors_eq, h.formulae_eq]
  simp only [isRedundant, hb]

theorem growingLeaves_eq (h : t.SameShape u) (id : NodeId) (e : Expansion) :
    u.growingLeaves id e = t.growingLeaves id e := by
  simp only [growingLeaves, h.leavesBelow_eq, h.isRedundant_eq]

theorem ruleFor?_eq (h : t.SameShape u) (id : NodeId) (f : Formula) :
    u.ruleFor? id f = t.ruleFor? id f := by
  have hc : u.constantsAt = t.constantsAt := funext h.constantsAt_eq
  have hv : u.visible id = t.visible id := by
    simp only [visible, h.leavesBelow_eq, hc]
  have hi : ∀ v body, u.instances id v body = t.instances id v body := by
    intro v body
    simp only [instances, h.leavesBelow_eq, hc]
  unfold ruleFor?
  simp only [hv, hi]

end SameShape

theorem sameShape_tick (t : Tree) (id : NodeId) (f : Formula) : t.SameShape (t.tick id f) := by
  have hnode : ∀ n : Node, (n.tick f).formulae = n.formulae ∧ (n.tick f).closed = n.closed := by
    intro n
    unfold Node.tick
    split_ifs <;> exact ⟨rfl, rfl⟩
  have hentry : ∀ x, ((t.tick id f).entry x).formulae = (t.entry x).formulae ∧
      ((t.tick id f).entry x).closed = (t.entry x).closed ∧
      ((t.tick id f).entry x).parent = (t.entry x).parent ∧
      ∀ side, ((t.tick id f).entry x).child side = (t.entry x).child side := by
    intro x
    by_cases hx : id = x
    · subst hx
      rcases Nat.lt_or_ge id t.nextId with hid | hid
      · rw [tick, entry_update_self hid]
        exact ⟨(hnode _).1, (hnode _).2, rfl, fun side => by cases side <;> rfl⟩
      · rw [tick, entry_of_le hid, entry_of_le (by simpa using hid)]
        exact ⟨rfl, rfl, rfl, fun _ => rfl⟩
    · rw [tick, entry_update_of_ne hx]
      exact ⟨rfl, rfl, rfl, fun _ => rfl⟩
  exact ⟨nextId_update t id _, fun x => (hentry x).1, fun x => (hentry x).2.1,
    fun x => (hentry x).2.2.1, fun x => (hentry x).2.2.2⟩

theorem isTicked_tick {t : Tree} {id : NodeId} (hid : id < t.nextId) {f : Formula}
    (hf : f ∈ (t.entry id).formulae) {x : NodeId} {g : Formula} :
    ((t.tick id f).entry x).isTicked g ↔ (t.entry x).isTicked g ∨ (x = id ∧ g = f) := by
  rw [tick, entry_update t hid]
  split_ifs with hx
  · rw [Node.isTicked_tick, hx]
    simp only [hf, and_true, true_and]
    exact Or.comm
  · simp [hx]

/-! ### Applying a rule -/

theorem Grafted.of_sameShape {t u v : Tree} {shoots : List Shoot} (h : Grafted u shoots v)
    (hs : t.SameShape u) : Grafted t shoots v := by
  refine ⟨h.linked, hs.keeps.trans h.keeps, ?_, ?_, ?_, ?_⟩
  · intro s hsm
    exact hs.nextId_eq ▸ h.leaf_lt s hsm
  · intro id side hid hnot
    rw [h.child_eq (by rw [hs.nextId_eq]; exact hid) hnot, hs.child_eq]
  · intro s hsm
    obtain ⟨id, hge, hchild, hgrown⟩ := h.grown s hsm
    exact ⟨id, hs.nextId_eq ▸ hge, hchild, hgrown⟩
  · intro id hge hlt
    exact h.new (by rw [hs.nextId_eq]; exact hge) hlt

theorem sameShape_ticked (t : Tree) (id : NodeId) (f : Formula) (a : Application) :
    t.SameShape (if a.ticks then t.tick id f else t) := by
  split_ifs
  · exact sameShape_tick t id f
  · exact .refl t

theorem grafted_carryOut {t : Tree} (h : t.Linked) {id : NodeId} (hid : id < t.nextId)
    (f : Formula) (a : Application) :
    Grafted t (t.graftShoots id a.expansion) (t.carryOut id f a).1 ∧
      (t.carryOut id f a).2 = !(t.growingLeaves id a.expansion).isEmpty := by
  have hshape := sameShape_ticked t id f a
  have hlinked : (if a.ticks then t.tick id f else t).Linked := by
    split_ifs
    · exact h.tick id f
    · exact h
  have hgraft := grafted_graft hlinked (hshape.nextId_eq ▸ hid) a.expansion
  rw [graftShoots, hshape.growingLeaves_eq] at hgraft
  exact ⟨hgraft.1.of_sameShape hshape, hgraft.2⟩

theorem isTicked_carryOut {t : Tree} {id : NodeId} (hid : id < t.nextId) {f : Formula}
    (hf : f ∈ (t.entry id).formulae) {a : Application} {x : NodeId} {g : Formula} :
    ((t.carryOut id f a).1.entry x).isTicked g ↔
      (t.entry x).isTicked g ∨ (a.ticks ∧ x = id ∧ g = f) := by
  unfold carryOut Node.isTicked
  rw [ticked_graft]
  split_ifs with ht
  · have h := isTicked_tick hid hf (x := x) (g := g)
    unfold Node.isTicked at h
    rw [h]
    simp [ht]
  · simp [ht]

theorem graftAt_of_false {t : Tree} {e : Expansion} {leaves : List NodeId}
    (h : (t.graftAt e leaves).2 = false) : (t.graftAt e leaves).1 = t := by
  induction leaves with
  | nil => rfl
  | cons leaf leaves ih =>
    unfold graftAt at h ⊢
    split_ifs at h ⊢
    exact ih h

/-- A rule that adds no nodes leaves at most a tick. -/
theorem sameShape_carryOut {t : Tree} {id : NodeId} {f : Formula} {a : Application}
    (h : (t.carryOut id f a).2 = false) : t.SameShape (t.carryOut id f a).1 := by
  unfold carryOut at h ⊢
  rw [graft, graftAt_of_false h]
  exact sameShape_ticked t id f a

/-- The rule `a` can be applied to the formula `f` at the node `id`: the formula has no tick, and
the node is reached without meeting a closed one. -/
structure Applicable (t : Tree) (id : NodeId) (f : Formula) (a : Application) : Prop where
  openPath : t.OpenPath root id
  mem : f ∈ (t.entry id).formulae
  unticked : (t.entry id).isTicked f = false
  rule : t.ruleFor? id f = some a

theorem Applicable.lt_nextId {t : Tree} {id : NodeId} {f : Formula} {a : Application}
    (h : t.Applicable id f a) (hl : t.Linked) : id < t.nextId :=
  Reaches.lt_nextId h.openPath hl.root_lt

theorem Applicable.grafted {t : Tree} {id : NodeId} {f : Formula} {a : Application}
    (h : t.Applicable id f a) (hl : t.Linked) :
    Grafted t (t.graftShoots id a.expansion) (t.carryOut id f a).1 :=
  (grafted_carryOut hl (h.lt_nextId hl) f a).1

/-- The trees that come up in the search for an argument. -/
inductive Reachable (premises : List Formula) (conclusion : Formula) : Tree → Prop where
  | start : Reachable premises conclusion (Prover.start premises conclusion).tree
  | apply {t : Tree} {id : NodeId} {f : Formula} {a : Application}
      (h : Reachable premises conclusion t) (ha : t.Applicable id f a) :
      Reachable premises conclusion (t.carryOut id f a).1

theorem Reachable.linked {premises : List Formula} {conclusion : Formula} {t : Tree}
    (h : Reachable premises conclusion t) : t.Linked := by
  induction h with
  | start =>
    unfold Prover.start
    dsimp only
    split_ifs
    · exact (linked_ofFormulae _).close _
    · exact linked_ofFormulae _
  | apply _ ha ih => exact (ha.grafted ih).linked

theorem eq_root_of_lt_start {premises : List Formula} {conclusion : Formula} {id : NodeId}
    (h : id < (Prover.start premises conclusion).tree.nextId) : id = root := by
  have hnext : (Prover.rootTree premises conclusion).nextId = 1 := rfl
  unfold Prover.start at h
  dsimp only at h
  split_ifs at h
  · rwa [close, nextId_update, hnext, Nat.lt_one_iff] at h
  · rwa [hnext, Nat.lt_one_iff] at h

theorem Reachable.formulae_root {premises : List Formula} {conclusion : Formula} {t : Tree}
    (h : Reachable premises conclusion t) :
    (t.entry root).formulae = premises ++ [.neg conclusion] := by
  induction h with
  | start =>
    have hlinked : (Prover.rootTree premises conclusion).Linked := linked_ofFormulae _
    unfold Prover.start
    dsimp only
    split_ifs
    · rw [(keepsPaths_close _ root).formulae_eq hlinked.root_lt]
      rfl
    · rfl
  | apply h ha ih => rw [(ha.grafted h.linked).keeps.formulae_eq h.linked.root_lt, ih]

theorem lt_nextId_of_mem {t : Tree} {id : NodeId} {f : Formula}
    (hf : f ∈ (t.entry id).formulae) : id < t.nextId := by
  by_contra hid
  rw [entry_of_le (Nat.le_of_not_lt hid)] at hf
  cases hf

/-- What holds of the formulae of the root and is handed on by the rules holds of all formulae. -/
theorem Reachable.forall_formulae {premises : List Formula} {conclusion : Formula} {t : Tree}
    (h : Reachable premises conclusion t) {P : Formula → Prop}
    (hroot : ∀ f ∈ premises ++ [.neg conclusion], P f)
    (hrule : ∀ {t : Tree} {id f a}, t.ruleFor? id f = some a → P f →
      ∀ b ∈ a.expansion.branches, ∀ g ∈ b, P g) :
    ∀ id, ∀ f ∈ (t.entry id).formulae, P f := by
  induction h with
  | start =>
    intro id f hf
    obtain rfl := eq_root_of_lt_start (lt_nextId_of_mem hf)
    rw [Reachable.start.formulae_root] at hf
    exact hroot f hf
  | @apply t id f a h ha ih =>
    have hgraft := ha.grafted h.linked
    intro x g hg
    rcases Nat.lt_or_ge x t.nextId with hlt | hge
    · rw [hgraft.keeps.formulae_eq hlt] at hg
      exact ih x g hg
    · obtain ⟨s, hs, -, hgrown⟩ := hgraft.new hge (lt_nextId_of_mem hg)
      rw [hgrown.formulae_eq] at hg
      exact hrule ha.rule (ih id f ha.mem) s.formulae (mem_graftShoots hs).2 g hg

theorem ticked_start (premises : List Formula) (conclusion : Formula) (id : NodeId) :
    ((Prover.start premises conclusion).tree.entry id).ticked = [] := by
  have hroot : ((Prover.rootTree premises conclusion).entry id).ticked = [] := by
    rcases Nat.eq_zero_or_pos id with rfl | hid
    · rfl
    · rw [entry_of_le (t := Prover.rootTree premises conclusion) hid]
      rfl
  unfold Prover.start
  dsimp only
  split_ifs
  · rw [ticked_close, hroot]
  · exact hroot

/-- The tree `u` comes from `t` by rules that add no nodes. -/
inductive Idles (t : Tree) : Tree → Prop where
  | refl : Idles t t
  | apply {u : Tree} {id : NodeId} {f : Formula} {a : Application} (h : Idles t u)
      (ha : u.Applicable id f a) (hv : (u.carryOut id f a).2 = false) :
      Idles t (u.carryOut id f a).1

namespace Idles

variable {t u v : Tree}

theorem trans (h : Idles t u) (h' : Idles u v) : Idles t v := by
  induction h' with
  | refl => exact h
  | apply _ ha hv ih => exact ih.apply ha hv

theorem sameShape (h : Idles t u) : t.SameShape u := by
  induction h with
  | refl => exact .refl t
  | apply _ _ hv ih => exact ih.trans (sameShape_carryOut hv)

theorem linked (h : Idles t u) (ht : t.Linked) : u.Linked := by
  induction h with
  | refl => exact ht
  | apply _ ha _ ih => exact (ha.grafted ih).linked

theorem isTicked (h : Idles t u) (ht : t.Linked) {id : NodeId} {f : Formula}
    (hf : (t.entry id).isTicked f) : (u.entry id).isTicked f := by
  induction h with
  | refl => exact hf
  | apply h ha _ ih =>
    exact (isTicked_carryOut (ha.lt_nextId (h.linked ht)) ha.mem).mpr (.inl ih)

theorem reachable {premises : List Formula} {conclusion : Formula} (h : Idles t u)
    (ht : Reachable premises conclusion t) : Reachable premises conclusion u := by
  induction h with
  | refl => exact ht
  | apply _ ha _ ih => exact ih.apply ha

end Idles

/-- The rule for a formula has nothing to add: the formula is ticked, or its rule is redundant
at all leaves below. -/
def Spent (t : Tree) (id : NodeId) (f : Formula) : Prop :=
  (t.entry id).isTicked f ∨ ∃ a, t.ruleFor? id f = some a ∧ t.growingLeaves id a.expansion = []

theorem Spent.idles {t u : Tree} {id : NodeId} {f : Formula} (hs : t.Spent id f)
    (h : Idles t u) (ht : t.Linked) : u.Spent id f := by
  rcases hs with hs | ⟨a, ha, hnone⟩
  · exact .inl (h.isTicked ht hs)
  · refine .inr ⟨a, ?_, ?_⟩
    · rw [h.sameShape.ruleFor?_eq, ha]
    · rw [h.sameShape.growingLeaves_eq, hnone]

/-- The tree `v` comes from `t` by rules that add no nodes and a last one that does. -/
def Advances (t v : Tree) : Prop :=
  ∃ u id f a, Idles t u ∧ u.Applicable id f a ∧ (u.carryOut id f a).2 = true ∧
    v = (u.carryOut id f a).1

theorem Advances.reachable {premises : List Formula} {conclusion : Formula} {t v : Tree}
    (h : t.Advances v) (ht : Reachable premises conclusion t) :
    Reachable premises conclusion v := by
  obtain ⟨u, id, f, a, hu, ha, -, rfl⟩ := h
  exact (hu.reachable ht).apply ha

theorem Advances.nextId_lt {t v : Tree} (h : t.Advances v) (ht : t.Linked) :
    t.nextId < v.nextId := by
  obtain ⟨u, id, f, a, hu, ha, hgrew, rfl⟩ := h
  have hl := hu.linked ht
  obtain ⟨hgraft, hflag⟩ := grafted_carryOut hl (ha.lt_nextId hl) f a
  rw [hgrew] at hflag
  have hgrow : u.growingLeaves id a.expansion ≠ [] := by simpa using hflag.symm
  rw [← hu.sameShape.nextId_eq, hgraft.nextId_lt_iff]
  exact mt graftShoots_eq_nil_iff.mp hgrow

theorem mem_openFormulae {t : Tree} {id : NodeId} {f : Formula} (h : t.Linked) :
    (id, f) ∈ t.openFormulae ↔ t.OpenPath root id ∧ f ∈ (t.entry id).formulae := by
  simp only [openFormulae, List.mem_flatMap, List.mem_map, Prod.mk.injEq, mem_openNodes h]
  constructor
  · rintro ⟨x, hx, g, hg, rfl, rfl⟩
    exact ⟨hx, hg⟩
  · rintro ⟨hid, hf⟩
    exact ⟨id, hid, f, hf, rfl, rfl⟩

theorem exists_ruleFor? (t : Tree) (id : NodeId) {f : Formula} (hf : f.isLiteral = false) :
    ∃ a, t.ruleFor? id f = some a := by
  cases f with
  | atom p ts => cases hf
  | neg f =>
    cases f with
    | atom p ts => cases hf
    | neg f => exact ⟨_, rfl⟩
    | bin c l r => cases c <;> exact ⟨_, rfl⟩
    | quant q v f => exact ⟨_, rfl⟩
  | bin c l r => cases c <;> exact ⟨_, rfl⟩
  | quant q v f => cases q <;> exact ⟨_, rfl⟩

end Tree

end TruthTrees
