import TruthTrees.Proofs.Runs

/-!
# Trees that are built by hand

Children may be added, detached and added again in any order, also below nodes that have been
detached. The links between the nodes agree all the same, so the walks come to an end by
themselves. The search for an argument never detaches a node, so it can reach all nodes from the
root.
-/

namespace TruthTrees

namespace Entry

theorem child_of_freeSide? {e : Entry} {side : Side} (h : e.freeSide? = some side) :
    e.child side = none := by
  unfold freeSide? at h
  split_ifs at h with hl hr
  · cases h
    exact Option.isNone_iff_eq_none.mp hl
  · cases h
    exact Option.isNone_iff_eq_none.mp hr

theorem freeSide?_eq_none_iff {e : Entry} :
    e.freeSide? = none ↔ ∀ side, (e.child side).isSome := by
  unfold freeSide?
  constructor
  · intro h side
    split_ifs at h with hl hr
    cases side with
    | left => simpa [child, Option.isSome_iff_ne_none] using hl
    | right => simpa [child, Option.isSome_iff_ne_none] using hr
  · intro h
    have hl : e.left.isSome := h .left
    have hr : e.right.isSome := h .right
    simp [Option.isNone_iff_eq_none, Option.isSome_iff_ne_none.mp hl,
      Option.isSome_iff_ne_none.mp hr]

theorem child_of_sideOf? {e : Entry} {c : NodeId} {side : Side} (h : e.sideOf? c = some side) :
    e.child side = some c := by
  unfold sideOf? at h
  split_ifs at h with hl hr
  · cases h
    exact hl
  · cases h
    exact hr

end Entry

namespace Tree

/-! ### Links -/

theorem Linked.place_unique {t : Tree} (h : t.Linked) {p q c : NodeId} {side other : Side}
    (hp : (t.entry p).child side = some c) (hq : (t.entry q).child other = some c) :
    p = q ∧ side = other := by
  have hpq : p = q := by
    have hparent := h.parent_of_child hp
    rw [h.parent_of_child hq] at hparent
    exact (Option.some.inj hparent).symm
  subst hpq
  exact ⟨rfl, h.side_unique hp hq⟩

theorem Linked.detach {t : Tree} (h : t.Linked) {parent child : NodeId} {side : Side}
    (hc : (t.entry parent).child side = some child) :
    ((t.update parent fun e => e.setChild side none).update child
      fun e => { e with parent := none }).Linked := by
  have hlink := h.parent_of_child hc
  have hcn : child < t.nextId := lt_of_parent hlink
  have hpc : parent < child := h.parent_lt hlink
  have hpn : parent < t.nextId := Nat.lt_trans hpc hcn
  generalize hu : ((t.update parent fun e => e.setChild side none).update child
    fun e => { e with parent := none }) = u
  have hentry : ∀ x, u.entry x =
      if x = child then { t.entry child with parent := none }
      else if x = parent then (t.entry parent).setChild side none
      else t.entry x := by
    intro x
    rw [← hu, entry_update _ (by rwa [nextId_update]), entry_update _ hpn, entry_update _ hpn,
      if_neg (Nat.ne_of_gt hpc)]
  have hparent : ∀ x, (u.entry x).parent = if x = child then none else (t.entry x).parent := by
    intro x
    rw [hentry]
    split_ifs with hx hxp
    · rfl
    · rw [Entry.parent_setChild, hxp]
    · rfl
  have hchild : ∀ x s, (u.entry x).child s =
      if x = parent ∧ s = side then none else (t.entry x).child s := by
    intro x s
    rw [hentry]
    split_ifs with hx hxp hxp hxs hxs
    · exact absurd (hxp.1.symm.trans hx) (Nat.ne_of_lt hpc)
    · rw [hx]
      cases s <;> rfl
    · rw [hxs.2, Entry.child_setChild_self]
    · rw [hxp, Entry.child_setChild_of_ne _ fun hs => hxs ⟨hxp, hs⟩]
    · exact absurd hxs.1 hxp
    · rfl
  have hplace : ∀ {x s c}, (u.entry x).child s = some c →
      (t.entry x).child s = some c ∧ c ≠ child := by
    intro x s c hxs
    rw [hchild] at hxs
    split_ifs at hxs with hps
    refine ⟨hxs, ?_⟩
    rintro rfl
    exact hps (h.place_unique hxs hc)
  constructor
  · rw [← hu, nextId_update, nextId_update]
    exact h.root_lt
  · intro p c
    rw [Entry.mem_children_iff_child, hparent]
    constructor
    · rintro ⟨s, hs⟩
      obtain ⟨hold, hne⟩ := hplace hs
      rw [if_neg hne]
      exact h.parent_of_child hold
    · intro hp
      split_ifs at hp with hne
      obtain ⟨s, hs⟩ := Entry.mem_children_iff_child.mp (h.mem_children_iff.mpr hp)
      refine ⟨s, ?_⟩
      rw [hchild, if_neg]
      · exact hs
      · rintro ⟨rfl, rfl⟩
        rw [hc] at hs
        exact hne (Option.some.inj hs).symm
  · intro p c hp
    rw [hparent] at hp
    split_ifs at hp
    exact h.parent_lt hp
  · intro p c hl hr
    exact h.left_ne_right (hplace (s := .left) hl).1 (hplace (s := .right) hr).1

theorem Built.linked {t : Tree} (h : t.Built) : t.Linked := by
  induction h with
  | single formulae => exact linked_ofFormulae formulae
  | @addChild t u parent id child _ hp hu ih =>
    unfold Tree.addChild at hu
    split at hu
    · next side hside =>
      cases hu
      exact ih.attach hp (Entry.child_of_freeSide? hside) child
    · cases hu
  | @removeChild t u parent child _ hp hc hu ih =>
    obtain ⟨side, hside, rfl⟩ := Option.map_eq_some_iff.mp hu
    exact ih.detach (Entry.child_of_sideOf? hside)
  | graft e _ hid ih => exact (grafted_graft ih hid e).1.linked
  | close _ _ ih => exact ih.close _
  | tick f _ _ ih => exact ih.tick _ f

/-! ### Requests -/

/-- The tree after it was asked to take a new child, whether it took it or not. -/
def request (t : Tree) (parent : NodeId) (child : Entry) : Tree :=
  match t.addChild parent child with
  | .ok (u, _) => u
  | .error refusal => refusal.tree

theorem addChild_eq_error_iff {t : Tree} {parent : NodeId} {child : Entry} :
    t.addChild parent child = .error ⟨.tooManyChildren, t⟩ ↔
      ∀ side, ((t.entry parent).child side).isSome := by
  rw [← Entry.freeSide?_eq_none_iff]
  unfold addChild
  cases (t.entry parent).freeSide? with
  | none => simp
  | some side => simp

theorem eq_of_addChild_eq_error {t : Tree} {parent : NodeId} {child : Entry} {refusal : Refusal}
    (h : t.addChild parent child = .error refusal) : refusal = ⟨.tooManyChildren, t⟩ := by
  unfold addChild at h
  split at h
  · cases h
  · cases h
    rfl

theorem addChild_congr (t : Tree) (parent : NodeId) {child other : Entry}
    (h : other.toNode = child.toNode) : t.addChild parent other = t.addChild parent child := by
  unfold addChild attach
  rw [h]

/-- A tree that takes a child becomes another one, so only a refusal leaves it as it is. -/
theorem request_eq_self_iff {t : Tree} {parent : NodeId} {child : Entry} :
    t.request parent child = t ↔ t.addChild parent child = .error ⟨.tooManyChildren, t⟩ := by
  unfold request addChild
  cases (t.entry parent).freeSide? with
  | none => simp
  | some side =>
    have hne : t.attach parent side child ≠ t := by
      intro heq
      have hnext := nextId_attach t parent side child
      rw [heq] at hnext
      exact Nat.succ_ne_self _ hnext.symm
    simp [hne]

theorem Built.request {t : Tree} (h : t.Built) (parent : NodeId) (hp : parent < t.nextId)
    (child : Entry) : (t.request parent child).Built := by
  unfold Tree.request
  split
  · next hu => exact h.addChild hp hu
  · next hrefused =>
    rw [eq_of_addChild_eq_error hrefused]
    exact h

/-! ### Walks -/

theorem nodup_ancestors {t : Tree} (h : t.Linked) (id : NodeId) : (t.ancestors id).Nodup := by
  induction id using h.induction_parent with
  | orphan id hp =>
    rw [ancestors_of_orphan h hp]
    exact List.nodup_singleton id
  | child id p hp ih =>
    rw [ancestors_of_parent h hp, List.nodup_cons]
    refine ⟨?_, ih⟩
    intro hmem
    exact Nat.not_le_of_lt (h.parent_lt hp) (le_of_mem_ancestors h hmem)

/-! ### Searches -/

/-- The search adds nodes below others and detaches none. -/
theorem Reachable.exists_parent {premises : List Formula} {conclusion : Formula} {t : Tree}
    (h : Reachable premises conclusion t) {id : NodeId} (hid : id < t.nextId) (hroot : id ≠ root) :
    ∃ p, (t.entry id).parent = some p := by
  induction h with
  | start => exact absurd (eq_root_of_lt_start hid) hroot
  | @apply t top f a h ha ih =>
    have hgraft := ha.grafted h.linked
    rcases Nat.lt_or_ge id t.nextId with hlt | hge
    · rw [hgraft.keeps.parent_eq hlt]
      exact ih hlt
    · obtain ⟨s, -, -, hgrown⟩ := hgraft.new hge hid
      exact ⟨s.leaf, hgrown.parent_eq⟩

theorem Reachable.mem_nodes {premises : List Formula} {conclusion : Formula} {t : Tree}
    (h : Reachable premises conclusion t) {id : NodeId} : id ∈ t.nodes ↔ id < t.nextId := by
  have hl := h.linked
  rw [nodes, mem_descendants hl hl.root_lt]
  constructor
  · intro hreach
    exact hreach.lt_nextId hl.root_lt
  · intro hid
    induction id using hl.induction_parent with
    | orphan id hp =>
      by_cases hroot : id = root
      · rw [hroot]
        exact .here rfl
      · obtain ⟨p, hpp⟩ := h.exists_parent hid hroot
        rw [hp] at hpp
        cases hpp
    | child id p hp ih => exact .down (ih (Nat.lt_trans (hl.parent_lt hp) hid)) hp rfl

theorem Reachable.size_eq {premises : List Formula} {conclusion : Formula} {t : Tree}
    (h : Reachable premises conclusion t) : t.size = t.nextId := by
  have hl := h.linked
  have hnodup : t.nodes.Nodup := nodup_descendants hl _ hl.root_lt
  have hperm : t.nodes.Perm (List.range t.nextId) := by
    rw [List.perm_ext_iff_of_nodup hnodup List.nodup_range]
    intro id
    rw [h.mem_nodes, List.mem_range]
  rw [size, hperm.length_eq, List.length_range]

theorem Reachable.size_lt_step {premises : List Formula} {conclusion : Formula} {s : Prover}
    (hs : Reachable premises conclusion s.tree) (h : s.step.2.isSome) :
    s.tree.size < s.step.1.tree.size := by
  rw [hs.size_eq, (Prover.reachable_step hs).size_eq]
  rcases s.step_cases hs.linked with ⟨-, hadv⟩ | ⟨hnone, -⟩
  · exact hadv.nextId_lt hs.linked
  · rw [hnone] at h
    cases h

/-- However a tree was built, its root has no parent, a node stands in a place below another exactly
if that one is its parent, it stands in no other place, and parents have the smaller numbers. So
walks meet no node twice and end by themselves: with a larger bound they go no further. A child is
refused exactly if both places are taken, a refusal leaves the tree as it is, and nothing else does.
The links that a new child has from elsewhere do not matter. In a search all nodes are below the
root. -/
theorem Built.links_agree :
    (∀ t : Tree, t.Built →
      (t.entry root).parent = none ∧
      (∀ p c, (∃ side, (t.entry p).child side = some c) ↔ (t.entry c).parent = some p) ∧
      (∀ p q c side other, (t.entry p).child side = some c → (t.entry q).child other = some c →
        p = q ∧ side = other) ∧
      (∀ p c side, (t.entry p).child side = some c → p < c) ∧
      (∀ id < t.nextId,
        ((t.ancestors id).Nodup ∧ ∀ bound ≥ t.nextId, t.levelsAbove bound id = t.ancestors id) ∧
        ∀ skip, (t.descendants skip id).Nodup ∧
          ∀ bound ≥ t.nextId, t.levelsBelow skip bound id = t.descendants skip id) ∧
      ∀ parent child,
        (t.addChild parent child = .error ⟨.tooManyChildren, t⟩ ↔
          ∀ side, ((t.entry parent).child side).isSome) ∧
        (∀ refusal, t.addChild parent child = .error refusal →
          refusal = ⟨.tooManyChildren, t⟩) ∧
        (t.request parent child = t ↔ t.addChild parent child = .error ⟨.tooManyChildren, t⟩) ∧
        ∀ other : Entry, other.toNode = child.toNode →
          t.addChild parent other = t.addChild parent child) ∧
    ∀ premises conclusion n,
      (Prover.after n (Prover.start premises conclusion)).tree.size =
        (Prover.after n (Prover.start premises conclusion)).tree.entries.size := by
  constructor
  · intro t hbuilt
    have h := hbuilt.linked
    refine ⟨h.root_parent, ?_, ?_, ?_, ?_, ?_⟩
    · intro p c
      rw [← Entry.mem_children_iff_child, h.mem_children_iff]
    · intro p q c side other hp hq
      exact h.place_unique hp hq
    · intro p c side hc
      exact h.parent_lt (h.parent_of_child hc)
    · intro id hid
      refine ⟨⟨nodup_ancestors h id, ?_⟩, fun skip => ⟨nodup_descendants h skip hid, ?_⟩⟩
      · intro bound hbound
        exact levelsAbove_eq h (Nat.lt_of_lt_of_le hid hbound) hid
      · intro bound hbound
        exact levelsBelow_eq h skip hid (Nat.le_trans hbound (Nat.le_add_left _ _))
          (Nat.le_add_left _ _)
    · intro parent child
      exact ⟨addChild_eq_error_iff, fun _ => eq_of_addChild_eq_error, request_eq_self_iff,
        fun _ => addChild_congr t parent⟩
  · intro premises conclusion n
    exact (Prover.reachable_after premises conclusion n).size_eq

/-- The root loses its left child, which then gets a copy of its sibling as a child of its own. The
free place goes to a new node. -/
def regrown : Tree :=
  let t := (ofFormulae [.atom 'P' []]).request root (.ofFormulae [.atom 'Q' []])
  let t := t.request root (.ofFormulae [.atom 'R' []])
  let t := (t.removeChild? root 1).getD t
  let t := t.request 1 (t.entry 2)
  t.request root (.ofFormulae [.atom 'S' []])

theorem Built.regrown_links_agree :
    regrown.Built ∧ (regrown.entry 1).parent = none ∧ (regrown.entry 3).parent = some 1 ∧
      (∃ side, (regrown.entry 1).child side = some 3) ∧
      (∀ p side, (regrown.entry p).child side = some 4 → p = root ∧ side = .left) ∧
      (∀ bound ≥ 5, regrown.levelsAbove bound 3 = [3, 1]) ∧
      (∀ bound ≥ 5, regrown.levelsBelow (fun _ => false) bound root = [0, 4, 2]) ∧
      regrown.addChild root (.ofFormulae []) = .error ⟨.tooManyChildren, regrown⟩ ∧
      regrown.request root (.ofFormulae []) = regrown := by
  have hbuilt : regrown.Built := by
    have hpair := ((Built.single [.atom 'P' []]).request root (by decide)
      (.ofFormulae [.atom 'Q' []])).request root (by decide) (.ofFormulae [.atom 'R' []])
    have hloose := @Built.removeChild _ _ root 1 hpair (by decide) (by decide) rfl
    exact (hloose.request 1 (by decide) _).request root (by decide) _
  obtain ⟨-, hlinks, hplace, -, hwalks, hadd⟩ := links_agree.1 regrown hbuilt
  have hparent : (regrown.entry 3).parent = some 1 := by decide +kernel
  have hrefused := (hadd root (.ofFormulae [])).1.mpr fun side => by cases side <;> decide +kernel
  refine ⟨hbuilt, by decide +kernel, hparent, (hlinks 1 3).mpr hparent, ?_, ?_, ?_, hrefused,
    (hadd root _).2.2.1.mpr hrefused⟩
  · intro p side hp
    exact hplace p root 4 side .left hp (by decide +kernel)
  · intro bound hbound
    rw [(hwalks 3 (by decide +kernel)).1.2 bound hbound]
    decide +kernel
  · intro bound hbound
    rw [((hwalks root (by decide +kernel)).2 _).2 bound hbound]
    decide +kernel

end Tree

end TruthTrees
