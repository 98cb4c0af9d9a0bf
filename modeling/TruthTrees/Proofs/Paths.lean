import Mathlib.Data.List.Nodup
import Mathlib.Data.List.TakeWhile
import TruthTrees.Tree.Branch
import TruthTrees.Proofs.Links

/-!
# Paths through a tree

The walks of a tree are bounded by the number of its nodes. Where parents and children agree, the
bound is never met: a walk upwards ends at a node without parent, and a walk downwards runs through
exactly the nodes that a path leads to.
-/

namespace TruthTrees

namespace Tree

variable {t : Tree}

/-- What holds of a node if it holds of its parent, holds of every node. -/
@[elab_as_elim]
theorem Linked.induction_parent (h : t.Linked) {P : NodeId → Prop}
    (orphan : ∀ id, (t.entry id).parent = none → P id)
    (child : ∀ id p, (t.entry id).parent = some p → P p → P id) (id : NodeId) : P id := by
  induction id using Nat.strongRecOn with
  | ind id ih =>
    cases hp : (t.entry id).parent with
    | none => exact orphan id hp
    | some p => exact child id p hp (ih p (h.parent_lt hp))

/-! ### Upwards -/

theorem levelsAbove_eq (h : t.Linked) {id m n : Nat} (hm : id < m) (hn : id < n) :
    t.levelsAbove m id = t.levelsAbove n id := by
  induction m generalizing id n with
  | zero => omega
  | succ m ih =>
    cases n with
    | zero => omega
    | succ n =>
      simp only [levelsAbove, List.cons.injEq, true_and]
      cases hp : (t.entry id).parent with
      | none => rfl
      | some p =>
        have hlt := h.parent_lt hp
        exact ih (Nat.lt_of_lt_of_le hlt (Nat.le_of_lt_succ hm))
          (Nat.lt_of_lt_of_le hlt (Nat.le_of_lt_succ hn))

theorem ancestors_of_orphan (h : t.Linked) {id : NodeId} (hp : (t.entry id).parent = none) :
    t.ancestors id = [id] := by
  unfold ancestors
  obtain ⟨n, hn⟩ := Nat.exists_eq_succ_of_ne_zero (Nat.ne_of_gt h.root_lt)
  simp [hn, levelsAbove, hp]

theorem ancestors_of_parent (h : t.Linked) {id p : NodeId} (hp : (t.entry id).parent = some p) :
    t.ancestors id = id :: t.ancestors p := by
  have hid : id < t.nextId := lt_of_parent hp
  have hlt : p < id := h.parent_lt hp
  unfold ancestors
  obtain ⟨n, hn⟩ := Nat.exists_eq_succ_of_ne_zero (Nat.ne_of_gt h.root_lt)
  rw [hn] at hid ⊢
  have hpn : p < n := Nat.lt_of_lt_of_le hlt (Nat.le_of_lt_succ hid)
  rw [levelsAbove_eq h (Nat.lt_succ_of_lt hpn) hpn]
  simp [levelsAbove, hp]

theorem mem_ancestors_self (h : t.Linked) (id : NodeId) : id ∈ t.ancestors id := by
  cases hp : (t.entry id).parent with
  | none => simp [ancestors_of_orphan h hp]
  | some p => simp [ancestors_of_parent h hp]

theorem le_of_mem_ancestors (h : t.Linked) {a id : NodeId} (ha : a ∈ t.ancestors id) :
    a ≤ id := by
  induction id using h.induction_parent with
  | orphan id hp =>
    rw [ancestors_of_orphan h hp, List.mem_singleton] at ha
    exact Nat.le_of_eq ha
  | child id p hp ih =>
    rw [ancestors_of_parent h hp] at ha
    rcases List.mem_cons.mp ha with rfl | ha
    · exact Nat.le_refl _
    · exact Nat.le_of_lt (Nat.lt_of_le_of_lt (ih ha) (h.parent_lt hp))

theorem ancestors_linear (h : t.Linked) {a b id : NodeId} (ha : a ∈ t.ancestors id)
    (hb : b ∈ t.ancestors id) : a ∈ t.ancestors b ∨ b ∈ t.ancestors a := by
  induction id using h.induction_parent with
  | orphan id hp =>
    rw [ancestors_of_orphan h hp, List.mem_singleton] at ha hb
    subst ha hb
    exact .inl (mem_ancestors_self h _)
  | child id p hp ih =>
    have hsplit := ancestors_of_parent h hp
    rw [hsplit] at ha hb
    rcases List.mem_cons.mp ha with rfl | ha'
    · exact .inr (hsplit ▸ hb)
    · rcases List.mem_cons.mp hb with rfl | hb'
      · exact .inl (hsplit ▸ ha)
      · exact ih ha' hb'

def branch (t : Tree) (id : NodeId) : List Formula :=
  (t.ancestors id).flatMap fun a => (t.entry a).formulae

theorem mem_branch {id : NodeId} {f : Formula} :
    f ∈ t.branch id ↔ ∃ a ∈ t.ancestors id, f ∈ (t.entry a).formulae := by
  simp [branch]

theorem branch_of_orphan (h : t.Linked) {id : NodeId} (hp : (t.entry id).parent = none) :
    t.branch id = (t.entry id).formulae := by
  simp [branch, ancestors_of_orphan h hp]

theorem branch_of_parent (h : t.Linked) {id p : NodeId} (hp : (t.entry id).parent = some p) :
    t.branch id = (t.entry id).formulae ++ t.branch p := by
  simp [branch, ancestors_of_parent h hp]

theorem mem_branch_of_mem (h : t.Linked) {id : NodeId} {f : Formula}
    (hf : f ∈ (t.entry id).formulae) : f ∈ t.branch id :=
  mem_branch.mpr ⟨id, mem_ancestors_self h id, hf⟩

theorem contradictsBranch_iff {id : NodeId} :
    t.contradictsBranch id ↔
      ∃ f ∈ (t.entry id).formulae, ∃ g ∈ t.branch id, f.contradicts g := by
  simp only [contradictsBranch, Node.contradicts, List.any_eq_true, mem_branch]
  constructor
  · rintro ⟨a, ha, f, hf, g, hg, hfg⟩
    exact ⟨f, hf, g, ⟨a, ha, hg⟩, hfg⟩
  · rintro ⟨f, hf, g, ⟨a, ha, hg⟩, hfg⟩
    exact ⟨a, ha, f, hf, g, hg, hfg⟩

/-! ### Downwards -/

/-- A path leads from `top` down to a node without meeting one for which `skip` holds. -/
inductive Reaches (t : Tree) (skip : Entry → Bool) (top : NodeId) : NodeId → Prop where
  | here (h : skip (t.entry top) = false) : Reaches t skip top top
  | down {p c : NodeId} (hp : Reaches t skip top p) (hc : (t.entry c).parent = some p)
      (h : skip (t.entry c) = false) : Reaches t skip top c

namespace Reaches

variable {skip : Entry → Bool} {top x : NodeId}

theorem skip_eq_false (h : t.Reaches skip top x) : skip (t.entry x) = false := by
  cases h with
  | here h => exact h
  | down _ _ h => exact h

theorem skip_top (h : t.Reaches skip top x) : skip (t.entry top) = false := by
  induction h with
  | here h => exact h
  | down _ _ _ ih => exact ih

theorem lt_nextId (h : t.Reaches skip top x) (htop : top < t.nextId) : x < t.nextId := by
  cases h with
  | here _ => exact htop
  | down _ hc _ => exact lt_of_parent hc

theorem trans {y : NodeId} (h : t.Reaches skip top x) (hx : t.Reaches skip x y) :
    t.Reaches skip top y := by
  induction hx with
  | here _ => exact h
  | down _ hc hskip ih => exact .down ih hc hskip

/-- The first step of a path, where the constructors show its last one. -/
theorem eq_or_child (h : t.Reaches skip top x) :
    x = top ∨ ∃ c, (t.entry c).parent = some top ∧ t.Reaches skip c x := by
  induction h with
  | here _ => exact .inl rfl
  | @down p c _ hc hskip ih =>
    rcases ih with rfl | ⟨d, hd, hdp⟩
    · exact .inr ⟨c, hc, .here hskip⟩
    · exact .inr ⟨d, hd, .down hdp hc hskip⟩

theorem mem_ancestors (hl : t.Linked) (h : t.Reaches skip top x) : top ∈ t.ancestors x := by
  induction h with
  | here _ => exact mem_ancestors_self hl _
  | down _ hc _ ih =>
    rw [ancestors_of_parent hl hc]
    exact List.mem_cons_of_mem _ ih

end Reaches

theorem levelsBelow_eq (h : t.Linked) (skip : Entry → Bool) {id m n : Nat} (hid : id < t.nextId)
    (hm : t.nextId ≤ id + m) (hn : t.nextId ≤ id + n) :
    t.levelsBelow skip m id = t.levelsBelow skip n id := by
  induction m generalizing id n with
  | zero => exact absurd hid (Nat.not_lt_of_le hm)
  | succ m ih =>
    cases n with
    | zero => exact absurd hid (Nat.not_lt_of_le hn)
    | succ n =>
      simp only [levelsBelow]
      congr 2
      apply List.flatMap_congr
      intro c hc
      have hp := h.mem_children_iff.mp hc
      have hlt : id < c := h.parent_lt hp
      exact ih (lt_of_parent hp) (Nat.le_trans hm (by omega)) (Nat.le_trans hn (by omega))

theorem descendants_eq (h : t.Linked) (skip : Entry → Bool) {id : NodeId} (hid : id < t.nextId) :
    t.descendants skip id =
      if skip (t.entry id) then []
      else id :: (t.entry id).children.flatMap (t.descendants skip) := by
  unfold descendants
  rw [levelsBelow_eq h skip (n := t.nextId + 1) hid (Nat.le_add_left _ _)
    (Nat.le_trans (Nat.le_succ _) (Nat.le_add_left _ _))]
  rfl

/-- Induction from the children of a node to the node. -/
@[elab_as_elim]
theorem Linked.induction_children (h : t.Linked) {P : ∀ id, id < t.nextId → Prop}
    (node : ∀ id hid, (∀ c (hc : (t.entry c).parent = some id), P c (lt_of_parent hc)) → P id hid)
    (id : NodeId) (hid : id < t.nextId) : P id hid := by
  generalize hk : t.nextId - id = k
  induction k using Nat.strongRecOn generalizing id with
  | ind k ih =>
    apply node id hid
    intro c hc
    have hlt : id < c := h.parent_lt hc
    have hcn : c < t.nextId := lt_of_parent hc
    exact ih (t.nextId - c) (hk ▸ Nat.sub_lt_sub_left hid hlt) c hcn rfl

/-- A walk downwards runs through the nodes that it reaches. -/
theorem mem_descendants (h : t.Linked) {skip : Entry → Bool} {id x : NodeId}
    (hid : id < t.nextId) : x ∈ t.descendants skip id ↔ t.Reaches skip id x := by
  induction id, hid using h.induction_children with
  | node id hid ih =>
    rw [descendants_eq h skip hid]
    split_ifs with hskip
    · constructor
      · intro hx
        cases hx
      · intro hx
        rw [hx.skip_top] at hskip
        cases hskip
    · have hopen : skip (t.entry id) = false := by simpa using hskip
      simp only [List.mem_cons, List.mem_flatMap]
      constructor
      · rintro (rfl | ⟨c, hc, hx⟩)
        · exact .here hopen
        · have hp := h.mem_children_iff.mp hc
          have hcx := (ih c hp).mp hx
          exact Reaches.trans (.down (.here hopen) hp hcx.skip_top) hcx
      · intro hx
        rcases hx.eq_or_child with rfl | ⟨c, hc, hcx⟩
        · exact .inl rfl
        · exact .inr ⟨c, h.mem_children_iff.mpr hc, (ih c hc).mpr hcx⟩

theorem nodup_children (h : t.Linked) (id : NodeId) : (t.entry id).children.Nodup := by
  unfold Entry.children
  cases hl : (t.entry id).left with
  | none => cases (t.entry id).right <;> simp
  | some l =>
    cases hr : (t.entry id).right with
    | none => simp
    | some r =>
      have hne : l ≠ r := fun hlr => h.left_ne_right hl (hlr ▸ hr)
      simpa using hne

theorem nodup_descendants (h : t.Linked) (skip : Entry → Bool) {id : NodeId}
    (hid : id < t.nextId) : (t.descendants skip id).Nodup := by
  induction id, hid using h.induction_children with
  | node id hid ih =>
    rw [descendants_eq h skip hid]
    split_ifs
    · exact List.nodup_nil
    · rw [List.nodup_cons]
      constructor
      · intro hmem
        obtain ⟨c, hc, hx⟩ := List.mem_flatMap.mp hmem
        have hp := h.mem_children_iff.mp hc
        have hreach := (mem_descendants h (lt_of_parent hp)).mp hx
        have hle := le_of_mem_ancestors h (hreach.mem_ancestors h)
        exact Nat.not_lt_of_le hle (h.parent_lt hp)
      · rw [List.nodup_flatMap]
        refine ⟨fun c hc => ih c (h.mem_children_iff.mp hc), ?_⟩
        refine (nodup_children h id).imp_of_mem ?_
        -- two children are not above a common node
        intro c d hc hd hne
        have hcp := h.mem_children_iff.mp hc
        have hdp := h.mem_children_iff.mp hd
        have hup : ∀ {a b : NodeId}, (t.entry a).parent = some id →
            (t.entry b).parent = some id → a ∈ t.ancestors b → a = b := by
          intro a b ha hb hab
          rw [ancestors_of_parent h hb] at hab
          rcases List.mem_cons.mp hab with rfl | hab
          · rfl
          · exact absurd (h.parent_lt ha) (Nat.not_lt_of_le (le_of_mem_ancestors h hab))
        intro x hxc hxd
        have hcx := ((mem_descendants h (lt_of_parent hcp)).mp hxc).mem_ancestors h
        have hdx := ((mem_descendants h (lt_of_parent hdp)).mp hxd).mem_ancestors h
        rcases ancestors_linear h hcx hdx with hcd | hdc
        · exact hne (hup hcp hdp hcd)
        · exact hne (hup hdp hcp hdc).symm

/-! ### Open paths -/

abbrev OpenPath (t : Tree) (top x : NodeId) : Prop :=
  t.Reaches (fun e => e.closed) top x

theorem mem_openNodes (h : t.Linked) {x : NodeId} : x ∈ t.openNodes ↔ t.OpenPath root x :=
  mem_descendants h h.root_lt

theorem mem_leavesBelow (h : t.Linked) {id x : NodeId} (hid : id < t.nextId) :
    x ∈ t.leavesBelow id ↔ t.OpenPath id x ∧ (t.entry x).isLeaf := by
  simp only [leavesBelow, List.mem_filter, mem_descendants h hid]

theorem nodup_leavesBelow (h : t.Linked) {id : NodeId} (hid : id < t.nextId) :
    (t.leavesBelow id).Nodup :=
  (nodup_descendants h _ hid).filter _

theorem leavesBelow_eq (h : t.Linked) {id : NodeId} (hid : id < t.nextId) :
    t.leavesBelow id =
      if (t.entry id).closed then []
      else if (t.entry id).isLeaf then [id]
      else (t.entry id).children.flatMap t.leavesBelow := by
  unfold leavesBelow
  rw [descendants_eq h _ hid]
  split_ifs with hclosed hleaf
  · rfl
  · rw [Entry.isLeaf_iff_children.mp hleaf, List.flatMap_nil, List.filter_singleton, hleaf]
    rfl
  · rw [List.filter_cons, if_neg hleaf, List.filter_flatMap]

theorem flatMap_leavesBelow (h : t.Linked) {ids : List NodeId}
    (hids : ∀ c ∈ ids, c < t.nextId ∧ (t.entry c).isLeaf) :
    ids.flatMap t.leavesBelow = ids.filter fun c => !t.isClosed c := by
  induction ids with
  | nil => rfl
  | cons c cs ih =>
    obtain ⟨⟨hc, hleaf⟩, hcs⟩ := List.forall_mem_cons.mp hids
    rw [List.flatMap_cons, ih hcs, leavesBelow_eq h hc, List.filter_cons, isClosed]
    by_cases hclosed : (t.entry c).closed
    · simp [hclosed]
    · simp [hclosed, hleaf]

theorem OpenPath.split (h : t.Linked) {x a : NodeId} (hx : t.OpenPath root x)
    (ha : a ∈ t.ancestors x) : t.OpenPath root a ∧ t.OpenPath a x := by
  induction hx with
  | here ho =>
    rw [ancestors_of_orphan h h.root_parent, List.mem_singleton] at ha
    rw [ha]
    exact ⟨.here ho, .here ho⟩
  | down hp hc ho ih =>
    rw [ancestors_of_parent h hc] at ha
    rcases List.mem_cons.mp ha with rfl | ha
    · exact ⟨.down hp hc ho, .here ho⟩
    · exact ⟨(ih ha).1, .down (ih ha).2 hc ho⟩

theorem openAncestors_eq (h : t.Linked) {x : NodeId} (hx : t.OpenPath root x) :
    t.openAncestors x = t.ancestors x := by
  unfold openAncestors
  rw [List.takeWhile_eq_self_iff]
  intro a ha
  have ho : t.isClosed a = false := (hx.split h ha).1.skip_eq_false
  simp [ho]

theorem mem_openAncestors_self (h : t.Linked) {id : NodeId} (ho : (t.entry id).closed = false) :
    id ∈ t.openAncestors id := by
  cases hp : (t.entry id).parent with
  | none => simp [openAncestors, ancestors_of_orphan h hp, isClosed, ho]
  | some p => simp [openAncestors, ancestors_of_parent h hp, isClosed, ho]

theorem openAncestors_of_parent (h : t.Linked) {id p : NodeId}
    (hp : (t.entry id).parent = some p) (ho : (t.entry id).closed = false) :
    t.openAncestors id = id :: t.openAncestors p := by
  simp [openAncestors, ancestors_of_parent h hp, isClosed, ho]

theorem OpenPath.mem_openAncestors (h : t.Linked) {top x : NodeId} (hx : t.OpenPath top x) :
    top ∈ t.openAncestors x := by
  induction hx with
  | here ho => exact mem_openAncestors_self h ho
  | down _ hc ho ih =>
    rw [openAncestors_of_parent h hc ho]
    exact List.mem_cons_of_mem _ ih

theorem branchContains_iff_openAncestors {x : NodeId} {f : Formula} :
    t.branchContains x f ↔ ∃ a ∈ t.openAncestors x, f ∈ (t.entry a).formulae := by
  simp [branchContains, Node.contains]

theorem mem_constantsAt_iff_openAncestors {x : NodeId} {c : Term} :
    c ∈ t.constantsAt x ↔
      ∃ a ∈ t.openAncestors x, ∃ f ∈ (t.entry a).formulae, c ∈ f.freeOccurrences := by
  simp [constantsAt, Node.constants]

theorem branchContains_iff (h : t.Linked) {x : NodeId} (hx : t.OpenPath root x) {f : Formula} :
    t.branchContains x f ↔ f ∈ t.branch x := by
  rw [branchContains_iff_openAncestors, openAncestors_eq h hx, mem_branch]

theorem mem_constantsAt (h : t.Linked) {x : NodeId} (hx : t.OpenPath root x) {c : Term} :
    c ∈ t.constantsAt x ↔ ∃ f ∈ t.branch x, c ∈ f.freeOccurrences := by
  simp only [mem_constantsAt_iff_openAncestors, openAncestors_eq h hx, mem_branch]
  constructor
  · rintro ⟨a, ha, f, hf, hc⟩
    exact ⟨f, ⟨a, ha, hf⟩, hc⟩
  · rintro ⟨f, ⟨a, ha, hf⟩, hc⟩
    exact ⟨a, ha, f, hf, hc⟩

theorem isRedundant_iff (h : t.Linked) {x : NodeId} (hx : t.OpenPath root x) {e : Expansion} :
    t.isRedundant x e ↔ ∃ b ∈ e.branches, ∀ f ∈ b, f ∈ t.branch x := by
  simp only [isRedundant, List.any_eq_true, List.all_eq_true, branchContains_iff h hx]

end Tree

end TruthTrees
