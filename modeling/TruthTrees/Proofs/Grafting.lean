import TruthTrees.Search.Preference
import TruthTrees.Tree.Graft
import TruthTrees.Proofs.Paths

/-!
# What grafting does

Grafting adds nodes below some leaves and leaves all that was there as it was. What is found on
the path to an old node is therefore the same before and after, so the leaves of a graft do not
depend on each other.
-/

namespace TruthTrees

theorem takeWhile_congr_of_mem {α : Type _} {p q : α → Bool} {xs : List α}
    (h : ∀ x ∈ xs, p x = q x) : xs.takeWhile p = xs.takeWhile q := by
  induction xs with
  | nil => rfl
  | cons x xs ih =>
    have hx := h x List.mem_cons_self
    have hxs := ih fun y hy => h y (List.mem_cons_of_mem x hy)
    simp only [List.takeWhile_cons, hx, hxs]

namespace Tree

/-! ### Paths that stay -/

/-- The nodes of `t` are in `u` with the same formulae and the same parents. -/
structure KeepsPaths (t u : Tree) : Prop where
  nextId_le : t.nextId ≤ u.nextId
  formulae_eq : ∀ {id}, id < t.nextId → (u.entry id).formulae = (t.entry id).formulae
  parent_eq : ∀ {id}, id < t.nextId → (u.entry id).parent = (t.entry id).parent

/-- The nodes of `t` are in `u` with the same formulae and the same parents, and those that are
closed are the same. -/
structure Keeps (t u : Tree) : Prop extends KeepsPaths t u where
  closed_eq : ∀ {id}, id < t.nextId → (u.entry id).closed = (t.entry id).closed

namespace KeepsPaths

variable {t u : Tree} (h : t.KeepsPaths u) (ht : t.Linked) (hu : u.Linked)

include h ht hu

theorem ancestors_eq {id : NodeId} (hid : id < t.nextId) : u.ancestors id = t.ancestors id := by
  induction id using ht.induction_parent with
  | orphan id hp =>
    rw [ancestors_of_orphan ht hp, ancestors_of_orphan hu (by rw [h.parent_eq hid, hp])]
  | child id p hp ih =>
    have hpn : p < t.nextId := Nat.lt_trans (ht.parent_lt hp) hid
    rw [ancestors_of_parent ht hp, ancestors_of_parent hu (by rw [h.parent_eq hid, hp]), ih hpn]

theorem lt_of_mem_ancestors {a id : NodeId} (hid : id < t.nextId) (ha : a ∈ u.ancestors id) :
    a < t.nextId := by
  rw [h.ancestors_eq ht hu hid] at ha
  exact Nat.lt_of_le_of_lt (le_of_mem_ancestors ht ha) hid

theorem branch_eq {id : NodeId} (hid : id < t.nextId) : u.branch id = t.branch id := by
  unfold branch
  rw [← h.ancestors_eq ht hu hid]
  apply List.flatMap_congr
  intro a ha
  exact h.formulae_eq (h.lt_of_mem_ancestors ht hu hid ha)

theorem contradictsBranch_eq {id : NodeId} (hid : id < t.nextId) :
    u.contradictsBranch id = t.contradictsBranch id := by
  rw [Bool.eq_iff_iff, contradictsBranch_iff, contradictsBranch_iff, h.formulae_eq hid,
    h.branch_eq ht hu hid]

end KeepsPaths

namespace Keeps

variable {t u v : Tree}

theorem refl (t : Tree) : t.Keeps t :=
  ⟨⟨Nat.le_refl _, fun _ => rfl, fun _ => rfl⟩, fun _ => rfl⟩

theorem trans (h : t.Keeps u) (h' : u.Keeps v) : t.Keeps v := by
  have hlt : ∀ {id}, id < t.nextId → id < u.nextId := fun hid =>
    Nat.lt_of_lt_of_le hid h.nextId_le
  refine ⟨⟨Nat.le_trans h.nextId_le h'.nextId_le, ?_, ?_⟩, ?_⟩
  · intro id hid
    rw [h'.formulae_eq (hlt hid), h.formulae_eq hid]
  · intro id hid
    rw [h'.parent_eq (hlt hid), h.parent_eq hid]
  · intro id hid
    rw [h'.closed_eq (hlt hid), h.closed_eq hid]

variable (h : t.Keeps u) (ht : t.Linked) (hu : u.Linked)

include h ht hu

theorem openAncestors_eq {id : NodeId} (hid : id < t.nextId) :
    u.openAncestors id = t.openAncestors id := by
  unfold openAncestors
  rw [← h.ancestors_eq ht hu hid]
  apply takeWhile_congr_of_mem
  intro a ha
  rw [isClosed, isClosed, h.closed_eq (h.lt_of_mem_ancestors ht hu hid ha)]

theorem branchContains_eq {id : NodeId} (hid : id < t.nextId) (f : Formula) :
    u.branchContains id f = t.branchContains id f := by
  unfold branchContains
  rw [← h.openAncestors_eq ht hu hid, Bool.eq_iff_iff, List.any_eq_true, List.any_eq_true]
  refine exists_congr fun a => and_congr_right fun ha => ?_
  have han := h.lt_of_mem_ancestors ht hu hid (List.takeWhile_subset _ ha)
  rw [Node.contains, Node.contains, h.formulae_eq han]

theorem constantsAt_eq {id : NodeId} (hid : id < t.nextId) :
    u.constantsAt id = t.constantsAt id := by
  unfold constantsAt
  rw [← h.openAncestors_eq ht hu hid]
  congr 1
  apply List.flatMap_congr
  intro a ha
  have han := h.lt_of_mem_ancestors ht hu hid (List.takeWhile_subset _ ha)
  rw [Node.constants, Node.constants, h.formulae_eq han]

theorem isRedundant_eq {id : NodeId} (hid : id < t.nextId) (e : Expansion) :
    u.isRedundant id e = t.isRedundant id e := by
  have hb : u.branchContains id = t.branchContains id :=
    funext (h.branchContains_eq ht hu hid)
  simp only [isRedundant, hb]

omit hu in
theorem openPath_iff {top x : NodeId} (htop : top < t.nextId) (hx : x < t.nextId) :
    u.OpenPath top x ↔ t.OpenPath top x := by
  constructor
  · intro hpath
    induction hpath with
    | here ho =>
      rw [h.closed_eq htop] at ho
      exact .here ho
    | down _ hc ho ih =>
      rw [h.parent_eq hx] at hc
      rw [h.closed_eq hx] at ho
      exact .down (ih (Nat.lt_trans (ht.parent_lt hc) hx)) hc ho
  · intro hpath
    induction hpath with
    | here ho =>
      rw [← h.closed_eq htop] at ho
      exact .here ho
    | down _ hc ho ih =>
      have hp := Nat.lt_trans (ht.parent_lt hc) hx
      rw [← h.parent_eq hx] at hc
      rw [← h.closed_eq hx] at ho
      exact .down (ih hp) hc ho

end Keeps

/-! ### New nodes -/

/-- A branch of an expansion, with the place that it takes. -/
structure Shoot where
  leaf : NodeId
  side : Side
  formulae : List Formula

end Tree

def Expansion.shoots (e : Expansion) (leaf : NodeId) : List Tree.Shoot :=
  e.sides.map fun s => ⟨leaf, s.1, s.2⟩

namespace Expansion

theorem leaf_of_mem_shoots {e : Expansion} {leaf : NodeId} {s : Tree.Shoot}
    (hs : s ∈ e.shoots leaf) : s.leaf = leaf := by
  obtain ⟨_, _, rfl⟩ := List.mem_map.mp hs
  rfl

theorem formulae_of_mem_shoots {e : Expansion} {leaf : NodeId} {s : Tree.Shoot}
    (hs : s ∈ e.shoots leaf) : s.formulae ∈ e.branches := by
  obtain ⟨p, hp, rfl⟩ := List.mem_map.mp hs
  exact List.mem_map_of_mem hp

theorem exists_shoot {e : Expansion} {b : List Formula} (hb : b ∈ e.branches) (leaf : NodeId) :
    ∃ s ∈ e.shoots leaf, s.formulae = b := by
  obtain ⟨p, hp, rfl⟩ := List.mem_map.mp hb
  exact ⟨_, List.mem_map_of_mem hp, rfl⟩

theorem exists_branch (e : Expansion) : ∃ b, b ∈ e.branches := by
  cases e <;> exact ⟨_, List.mem_cons_self⟩

end Expansion

namespace Tree

/-- The node `id` is what becomes of a shoot: it has no children yet, and it is closed if it
contradicts its branch. -/
structure IsGrown (t : Tree) (id : NodeId) (s : Shoot) : Prop where
  formulae_eq : (t.entry id).formulae = s.formulae
  closed_eq : (t.entry id).closed = t.contradictsBranch id
  parent_eq : (t.entry id).parent = some s.leaf
  isLeaf : (t.entry id).isLeaf

/-- The tree `u` is `t` with the shoots added, and nothing else. -/
structure Grafted (t : Tree) (shoots : List Shoot) (u : Tree) : Prop where
  linked : u.Linked
  keeps : t.Keeps u
  leaf_lt : ∀ s ∈ shoots, s.leaf < t.nextId
  child_eq : ∀ {id side}, id < t.nextId → (∀ s ∈ shoots, s.leaf = id → s.side ≠ side) →
    (u.entry id).child side = (t.entry id).child side
  grown : ∀ s ∈ shoots, ∃ id, t.nextId ≤ id ∧ (u.entry s.leaf).child s.side = some id ∧
    u.IsGrown id s
  new : ∀ {id}, t.nextId ≤ id → id < u.nextId →
    ∃ s ∈ shoots, (u.entry s.leaf).child s.side = some id ∧ u.IsGrown id s

theorem keepsPaths_close (t : Tree) (id : NodeId) : t.KeepsPaths (t.close id) := by
  have hentry : ∀ x, ((t.close id).entry x).formulae = (t.entry x).formulae ∧
      ((t.close id).entry x).parent = (t.entry x).parent := by
    intro x
    by_cases hx : id = x
    · subst hx
      rcases Nat.lt_or_ge id t.nextId with hid | hid
      · rw [close, entry_update_self hid]
        exact ⟨rfl, rfl⟩
      · rw [close, entry_of_le hid, entry_of_le (by simpa using hid)]
        exact ⟨rfl, rfl⟩
    · rw [close, entry_update_of_ne hx]
      exact ⟨rfl, rfl⟩
  exact ⟨Nat.le_of_eq (nextId_update t id _).symm, fun _ => (hentry _).1, fun _ => (hentry _).2⟩

theorem entry_hang {t : Tree} {leaf : NodeId} (hl : leaf < t.nextId) (s : Side × List Formula)
    (x : NodeId) :
    (t.hang leaf s).entry x =
      if x = t.nextId then
        { formulae := s.2
          closed := (t.attach leaf s.1 (.ofFormulae s.2)).contradictsBranch t.nextId
          parent := some leaf }
      else if x = leaf then (t.entry leaf).setChild s.1 (some t.nextId)
      else t.entry x := by
  have hnew : t.nextId < (t.attach leaf s.1 (.ofFormulae s.2)).nextId := by
    rw [nextId_attach]
    exact Nat.lt_succ_self _
  unfold hang
  dsimp only
  split_ifs with hcon hx hxl hx hxl
  · rw [hx, close, entry_update_self hnew, entry_attach hl, if_pos rfl, hcon]
    rfl
  · rw [close, entry_update_of_ne (Ne.symm hx), entry_attach hl, if_neg hx, if_pos hxl]
  · rw [close, entry_update_of_ne (Ne.symm hx), entry_attach hl, if_neg hx, if_neg hxl]
  · rw [entry_attach hl, if_pos hx, eq_false_of_ne_true hcon]
    rfl
  · rw [entry_attach hl, if_neg hx, if_pos hxl]
  · rw [entry_attach hl, if_neg hx, if_neg hxl]

theorem nextId_hang (t : Tree) (leaf : NodeId) (s : Side × List Formula) :
    (t.hang leaf s).nextId = t.nextId + 1 := by
  unfold hang
  dsimp only
  split_ifs
  · rw [close, nextId_update, nextId_attach]
  · rw [nextId_attach]

theorem grafted_hang {t : Tree} (h : t.Linked) {leaf : NodeId} (hl : leaf < t.nextId)
    {s : Side × List Formula} (hfree : (t.entry leaf).child s.1 = none) :
    Grafted t [⟨leaf, s.1, s.2⟩] (t.hang leaf s) := by
  have hattach := h.attach hl hfree (.ofFormulae s.2)
  have hkept : (t.attach leaf s.1 (.ofFormulae s.2)).KeepsPaths (t.hang leaf s) := by
    unfold hang
    dsimp only
    split_ifs
    · exact keepsPaths_close _ _
    · exact (Keeps.refl _).toKeepsPaths
  have hlinked : (t.hang leaf s).Linked := by
    unfold hang
    dsimp only
    split_ifs
    · exact hattach.close _
    · exact hattach
  have hnew : (t.hang leaf s).IsGrown t.nextId ⟨leaf, s.1, s.2⟩ := by
    have hlt : t.nextId < (t.attach leaf s.1 (.ofFormulae s.2)).nextId := by
      rw [nextId_attach]
      exact Nat.lt_succ_self _
    have hentry := entry_hang hl s t.nextId
    rw [if_pos rfl] at hentry
    constructor
    · rw [hentry]
    · rw [hentry, hkept.contradictsBranch_eq hattach hlinked hlt]
    · rw [hentry]
    · rw [hentry]
      rfl
  have hchild : ((t.hang leaf s).entry leaf).child s.1 = some t.nextId := by
    rw [entry_hang hl, if_neg (Nat.ne_of_lt hl), if_pos rfl, Entry.child_setChild_self]
  have hold : ∀ {id}, id < t.nextId → ((t.hang leaf s).entry id).toNode = (t.entry id).toNode ∧
      ((t.hang leaf s).entry id).parent = (t.entry id).parent := by
    intro id hid
    rw [entry_hang hl, if_neg (Nat.ne_of_lt hid)]
    split_ifs with hil
    · rw [hil]
      exact ⟨Entry.toNode_setChild _ _ _, Entry.parent_setChild _ _ _⟩
    · exact ⟨rfl, rfl⟩
  refine ⟨hlinked, ⟨⟨?_, ?_, ?_⟩, ?_⟩, ?_, ?_, ?_, ?_⟩
  · rw [nextId_hang]
    exact Nat.le_succ _
  · intro id hid
    rw [(hold hid).1]
  · intro id hid
    exact (hold hid).2
  · intro id hid
    rw [(hold hid).1]
  · intro p hp
    rw [List.mem_singleton.mp hp]
    exact hl
  · intro id side hid hslot
    rw [entry_hang hl, if_neg (Nat.ne_of_lt hid)]
    split_ifs with hil
    · have hne := hslot _ (List.mem_singleton_self _) hil.symm
      rw [hil, Entry.child_setChild_of_ne _ (Ne.symm hne)]
    · rfl
  · intro p hp
    rw [List.mem_singleton] at hp
    subst hp
    exact ⟨t.nextId, Nat.le_refl _, hchild, hnew⟩
  · intro id hge hlt
    rw [nextId_hang] at hlt
    have hid : id = t.nextId := Nat.le_antisymm (Nat.le_of_lt_succ hlt) hge
    subst hid
    exact ⟨_, List.mem_singleton_self _, hchild, hnew⟩

namespace Grafted

variable {t u v : Tree} {shoots more : List Shoot}

theorem refl (h : t.Linked) : Grafted t [] t := by
  refine ⟨h, .refl t, ?_, fun _ _ => rfl, ?_, ?_⟩
  · intro s hs
    cases hs
  · intro s hs
    cases hs
  · intro id hge hlt
    exact absurd hlt (Nat.not_lt_of_le hge)

theorem isLeaf_iff (h : Grafted t shoots u) {id : NodeId} (hid : id < t.nextId)
    (hnot : ∀ s ∈ shoots, s.leaf ≠ id) : (u.entry id).isLeaf ↔ (t.entry id).isLeaf := by
  rw [Entry.isLeaf_iff_child, Entry.isLeaf_iff_child]
  refine forall_congr' fun side => ?_
  rw [h.child_eq hid fun s hs hsl => absurd hsl (hnot s hs)]

theorem nextId_lt_iff (h : Grafted t shoots u) : t.nextId < u.nextId ↔ shoots ≠ [] := by
  constructor
  · intro hlt
    obtain ⟨s, hs, -, -⟩ := h.new (Nat.le_refl _) hlt
    exact List.ne_nil_of_mem hs
  · intro hne
    obtain ⟨s, hs⟩ := List.exists_mem_of_ne_nil _ hne
    obtain ⟨x, hge, -, hgrown⟩ := h.grown s hs
    exact Nat.lt_of_le_of_lt hge (lt_of_parent hgrown.parent_eq)

theorem isGrown (h : Grafted t shoots u) (ht : t.Linked) {id : NodeId} {s : Shoot}
    (hs : t.IsGrown id s) (hnot : ∀ s ∈ shoots, s.leaf ≠ id) : u.IsGrown id s := by
  have hid : id < t.nextId := lt_of_parent hs.parent_eq
  constructor
  · rw [h.keeps.formulae_eq hid, hs.formulae_eq]
  · rw [h.keeps.closed_eq hid, hs.closed_eq, h.keeps.contradictsBranch_eq ht h.linked hid]
  · rw [h.keeps.parent_eq hid, hs.parent_eq]
  · exact (h.isLeaf_iff hid hnot).mpr hs.isLeaf

/-- Two grafts at different places of the same tree, one after the other. -/
theorem append (h : Grafted t shoots u) (h' : Grafted u more v)
    (hold : ∀ s ∈ more, s.leaf < t.nextId)
    (hplace : ∀ s ∈ shoots, ∀ s' ∈ more, s'.leaf = s.leaf → s'.side ≠ s.side) :
    Grafted t (shoots ++ more) v := by
  have hnew : ∀ {id}, t.nextId ≤ id → ∀ s ∈ more, s.leaf ≠ id := by
    intro id hge s hs hsl
    exact absurd (hold s hs) (Nat.not_lt_of_le (hsl ▸ hge))
  have hchild : ∀ s ∈ shoots, ∀ {id}, (u.entry s.leaf).child s.side = some id →
      (v.entry s.leaf).child s.side = some id := by
    intro s hs id hid
    have hp := h.linked.parent_of_child hid
    have hlt : s.leaf < u.nextId := Nat.lt_trans (h.linked.parent_lt hp) (lt_of_parent hp)
    rw [h'.child_eq hlt (hplace s hs), hid]
  refine ⟨h'.linked, h.keeps.trans h'.keeps, ?_, ?_, ?_, ?_⟩
  · intro s hs
    exact (List.mem_append.mp hs).elim (h.leaf_lt s) (hold s)
  · intro id side hid hnot
    rw [h'.child_eq (Nat.lt_of_lt_of_le hid h.keeps.nextId_le)
        fun s hs => hnot s (List.mem_append_right _ hs),
      h.child_eq hid fun s hs => hnot s (List.mem_append_left _ hs)]
  · intro s hs
    rcases List.mem_append.mp hs with hs | hs
    · obtain ⟨id, hge, hid, hgrown⟩ := h.grown s hs
      exact ⟨id, hge, hchild s hs hid, h'.isGrown h.linked hgrown (hnew hge)⟩
    · obtain ⟨id, hge, hid, hgrown⟩ := h'.grown s hs
      exact ⟨id, Nat.le_trans h.keeps.nextId_le hge, hid, hgrown⟩
  · intro id hge hlt
    rcases Nat.lt_or_ge id u.nextId with hu | hu
    · obtain ⟨s, hs, hid, hgrown⟩ := h.new hge hu
      exact ⟨s, List.mem_append_left _ hs, hchild s hs hid,
        h'.isGrown h.linked hgrown (hnew hge)⟩
    · obtain ⟨s, hs, hid, hgrown⟩ := h'.new hu hlt
      exact ⟨s, List.mem_append_right _ hs, hid, hgrown⟩

/-! What is above a new node, and which leaves there are after a graft. -/

theorem branch_eq (h : Grafted t shoots u) (ht : t.Linked) {s : Shoot} (hs : s ∈ shoots)
    {x : NodeId} (hx : u.IsGrown x s) : u.branch x = s.formulae ++ t.branch s.leaf := by
  rw [branch_of_parent h.linked hx.parent_eq, hx.formulae_eq,
    h.keeps.branch_eq ht h.linked (h.leaf_lt s hs)]

theorem mem_leavesBelow_old (h : Grafted t shoots u) (ht : t.Linked) {top x : NodeId}
    (htop : top < t.nextId) (hx : x ∈ t.leavesBelow top) (hnot : ∀ s ∈ shoots, s.leaf ≠ x) :
    x ∈ u.leavesBelow top := by
  obtain ⟨hpath, hleaf⟩ := (mem_leavesBelow ht htop).mp hx
  have hlt := hpath.lt_nextId htop
  refine (mem_leavesBelow h.linked (Nat.lt_of_lt_of_le htop h.keeps.nextId_le)).mpr ⟨?_, ?_⟩
  · exact (h.keeps.openPath_iff ht htop hlt).mpr hpath
  · exact (h.isLeaf_iff hlt hnot).mpr hleaf

theorem mem_leavesBelow_new (h : Grafted t shoots u) (ht : t.Linked) {top x : NodeId}
    (htop : top < t.nextId) {s : Shoot} (hs : s ∈ shoots) (hx : u.IsGrown x s)
    (hpath : t.OpenPath top s.leaf) (hopen : (u.entry x).closed = false) :
    x ∈ u.leavesBelow top := by
  refine (mem_leavesBelow h.linked (Nat.lt_of_lt_of_le htop h.keeps.nextId_le)).mpr ⟨?_, ?_⟩
  · exact .down ((h.keeps.openPath_iff ht htop (h.leaf_lt s hs)).mpr hpath) hx.parent_eq hopen
  · exact hx.isLeaf

theorem leavesBelow_cases (h : Grafted t shoots u) (ht : t.Linked) {top x : NodeId}
    (htop : top < t.nextId) (hx : x ∈ u.leavesBelow top) :
    (x ∈ t.leavesBelow top ∧ ∀ s ∈ shoots, s.leaf ≠ x) ∨
      ∃ s ∈ shoots, u.IsGrown x s ∧ t.OpenPath top s.leaf ∧ (u.entry x).closed = false := by
  have htop' : top < u.nextId := Nat.lt_of_lt_of_le htop h.keeps.nextId_le
  obtain ⟨hpath, hleaf⟩ := (mem_leavesBelow h.linked htop').mp hx
  rcases Nat.lt_or_ge x t.nextId with hlt | hge
  · have hnot : ∀ s ∈ shoots, s.leaf ≠ x := by
      intro s hs hsx
      obtain ⟨id, -, hid, -⟩ := h.grown s hs
      rw [hsx, Entry.isLeaf_iff_child.mp hleaf] at hid
      cases hid
    refine .inl ⟨(mem_leavesBelow ht htop).mpr ⟨?_, ?_⟩, hnot⟩
    · exact (h.keeps.openPath_iff ht htop hlt).mp hpath
    · exact (h.isLeaf_iff hlt hnot).mp hleaf
  · obtain ⟨s, hs, -, hgrown⟩ := h.new hge (hpath.lt_nextId htop')
    refine .inr ⟨s, hs, hgrown, ?_, hpath.skip_eq_false⟩
    cases hpath with
    | here _ => exact absurd htop (Nat.not_lt_of_le hge)
    | down hp hc _ =>
      rw [hgrown.parent_eq] at hc
      cases hc
      exact (h.keeps.openPath_iff ht htop (h.leaf_lt s hs)).mp hp

end Grafted

theorem grafted_hangAll {t : Tree} (h : t.Linked) (e : Expansion) {leaf : NodeId}
    (hl : leaf < t.nextId) (hleaf : (t.entry leaf).isLeaf) :
    Grafted t (e.shoots leaf) (t.hangAll e leaf) := by
  have hfree := Entry.isLeaf_iff_child.mp hleaf
  unfold hangAll
  cases e with
  | linear b => exact grafted_hang h hl (s := (.left, b)) (hfree .left)
  | split l r =>
    simp only [Expansion.sides, List.foldl_cons, List.foldl_nil]
    have hfirst := grafted_hang h hl (s := (.left, l)) (hfree .left)
    have hright : ((t.hang leaf (.left, l)).entry leaf).child .right = none := by
      rw [hfirst.child_eq hl, hfree .right]
      intro s hs _
      obtain rfl := List.mem_singleton.mp hs
      exact Side.noConfusion
    have hsecond := grafted_hang hfirst.linked
      (Nat.lt_of_lt_of_le hl hfirst.keeps.nextId_le) (s := (.right, r)) hright
    refine hfirst.append hsecond ?_ ?_
    · intro s hs
      obtain rfl := List.mem_singleton.mp hs
      exact hl
    · intro s hs s' hs' _
      obtain rfl := List.mem_singleton.mp hs
      obtain rfl := List.mem_singleton.mp hs'
      exact Side.noConfusion

/-- Grafting at a list of leaves adds the expansion where it is not redundant, as judged on the
tree before the graft. -/
theorem grafted_graftAt {t : Tree} (h : t.Linked) (e : Expansion) {leaves : List NodeId}
    (hnodup : leaves.Nodup) (hleaves : ∀ l ∈ leaves, l < t.nextId ∧ (t.entry l).isLeaf) :
    Grafted t ((leaves.filter fun l => !t.isRedundant l e).flatMap e.shoots)
        (t.graftAt e leaves).1 ∧
      (t.graftAt e leaves).2 = !(leaves.filter fun l => !t.isRedundant l e).isEmpty := by
  induction leaves generalizing t with
  | nil => exact ⟨.refl h, rfl⟩
  | cons leaf leaves ih =>
    obtain ⟨hleaf, hrest⟩ := List.forall_mem_cons.mp hleaves
    obtain ⟨hnot, hnodup⟩ := List.nodup_cons.mp hnodup
    unfold graftAt
    split_ifs with hred
    · rw [List.filter_cons_of_neg (by simpa using hred)]
      exact ih h hnodup hrest
    · rw [List.filter_cons_of_pos (by simpa using hred)]
      have hhung := grafted_hangAll h e hleaf.1 hleaf.2
      have hother : ∀ l ∈ leaves, l < (t.hangAll e leaf).nextId ∧
          ((t.hangAll e leaf).entry l).isLeaf := by
        intro l hl
        refine ⟨Nat.lt_of_lt_of_le (hrest l hl).1 hhung.keeps.nextId_le, ?_⟩
        refine (hhung.isLeaf_iff (hrest l hl).1 ?_).mpr (hrest l hl).2
        intro s hs hsl
        rw [Expansion.leaf_of_mem_shoots hs] at hsl
        exact hnot (hsl ▸ hl)
      -- the new nodes are on no path to another leaf
      have hsame : (leaves.filter fun l => !(t.hangAll e leaf).isRedundant l e) =
          leaves.filter fun l => !t.isRedundant l e := by
        apply List.filter_congr
        intro l hl
        rw [hhung.keeps.isRedundant_eq h hhung.linked (hrest l hl).1]
      obtain ⟨hgraft, -⟩ := ih hhung.linked hnodup hother
      rw [hsame] at hgraft
      refine ⟨hhung.append hgraft ?_ ?_, rfl⟩
      · intro s hs
        obtain ⟨l, hl, hsl⟩ := List.mem_flatMap.mp hs
        rw [Expansion.leaf_of_mem_shoots hsl]
        exact (hrest l (List.mem_of_mem_filter hl)).1
      · intro s hs s' hs' heq
        obtain ⟨l, hl, hsl⟩ := List.mem_flatMap.mp hs'
        rw [Expansion.leaf_of_mem_shoots hs, Expansion.leaf_of_mem_shoots hsl] at heq
        exact absurd (heq ▸ List.mem_of_mem_filter hl) hnot

def graftShoots (t : Tree) (id : NodeId) (e : Expansion) : List Shoot :=
  (t.growingLeaves id e).flatMap e.shoots

theorem mem_graftShoots {t : Tree} {id : NodeId} {e : Expansion} {s : Shoot}
    (hs : s ∈ t.graftShoots id e) : s.leaf ∈ t.growingLeaves id e ∧ s.formulae ∈ e.branches := by
  obtain ⟨leaf, hleaf, hs⟩ := List.mem_flatMap.mp hs
  rw [Expansion.leaf_of_mem_shoots hs]
  exact ⟨hleaf, Expansion.formulae_of_mem_shoots hs⟩

theorem exists_graftShoot {t : Tree} {id leaf : NodeId} {e : Expansion} {b : List Formula}
    (hleaf : leaf ∈ t.growingLeaves id e) (hb : b ∈ e.branches) :
    ∃ s ∈ t.graftShoots id e, s.leaf = leaf ∧ s.formulae = b := by
  obtain ⟨s, hs, hsb⟩ := Expansion.exists_shoot hb leaf
  exact ⟨s, List.mem_flatMap.mpr ⟨leaf, hleaf, hs⟩, Expansion.leaf_of_mem_shoots hs, hsb⟩

theorem graftShoots_eq_nil_iff {t : Tree} {id : NodeId} {e : Expansion} :
    t.graftShoots id e = [] ↔ t.growingLeaves id e = [] := by
  constructor
  · intro hnil
    rw [List.eq_nil_iff_forall_not_mem]
    intro leaf hleaf
    obtain ⟨b, hb⟩ := e.exists_branch
    obtain ⟨s, hs, -, -⟩ := exists_graftShoot hleaf hb
    rw [hnil] at hs
    cases hs
  · intro hnil
    rw [graftShoots, hnil, List.flatMap_nil]

theorem mem_growingLeaves {t : Tree} {id leaf : NodeId} {e : Expansion} :
    leaf ∈ t.growingLeaves id e ↔ leaf ∈ t.leavesBelow id ∧ t.isRedundant leaf e = false := by
  simp [growingLeaves]

theorem grafted_graft {t : Tree} (h : t.Linked) {id : NodeId} (hid : id < t.nextId)
    (e : Expansion) :
    Grafted t (t.graftShoots id e) (t.graft id e).1 ∧
      (t.graft id e).2 = !(t.growingLeaves id e).isEmpty := by
  refine grafted_graftAt h e (nodup_leavesBelow h hid) ?_
  intro l hl
  obtain ⟨hpath, hleaf⟩ := (mem_leavesBelow h hid).mp hl
  exact ⟨hpath.lt_nextId hid, hleaf⟩

/-! ### Ticks -/

theorem ticked_update (t : Tree) (id : NodeId) {f : Entry → Entry}
    (hf : ∀ e, (f e).ticked = e.ticked) (x : NodeId) :
    ((t.update id f).entry x).ticked = (t.entry x).ticked := by
  by_cases hx : id = x
  · subst hx
    rcases Nat.lt_or_ge id t.nextId with hid | hid
    · rw [entry_update_self hid, hf]
    · rw [entry_of_le hid, entry_of_le (by simpa using hid)]
  · rw [entry_update_of_ne hx]

theorem ticked_close (t : Tree) (id x : NodeId) :
    ((t.close id).entry x).ticked = (t.entry x).ticked :=
  ticked_update t id (f := fun e => { e with toNode := e.close }) (fun _ => rfl) x

theorem ticked_hang (t : Tree) (leaf : NodeId) (s : Side × List Formula) (x : NodeId) :
    ((t.hang leaf s).entry x).ticked = (t.entry x).ticked := by
  have hattach : ((t.attach leaf s.1 (.ofFormulae s.2)).entry x).ticked = (t.entry x).ticked := by
    rw [attach, ticked_update _ _ fun e => by rw [Entry.toNode_setChild]]
    simp only [entry, Array.getD_eq_getD_getElem?, Array.getElem?_push]
    split_ifs with hx
    · rw [hx, Array.getElem?_eq_none (Nat.le_refl _)]
      rfl
    · rfl
  unfold hang
  dsimp only
  split_ifs
  · rw [ticked_close, hattach]
  · exact hattach

theorem ticked_graft (t : Tree) (id : NodeId) (e : Expansion) (x : NodeId) :
    ((t.graft id e).1.entry x).ticked = (t.entry x).ticked := by
  have hall : ∀ (leaf : NodeId) (sides : List (Side × List Formula)) (t : Tree),
      ((sides.foldl (hang leaf) t).entry x).ticked = (t.entry x).ticked := by
    intro leaf sides
    induction sides with
    | nil => exact fun _ => rfl
    | cons s sides ih =>
      intro t
      rw [List.foldl_cons, ih, ticked_hang]
  have hgraft : ∀ (leaves : List NodeId) (t : Tree),
      ((t.graftAt e leaves).1.entry x).ticked = (t.entry x).ticked := by
    intro leaves
    induction leaves with
    | nil => exact fun _ => rfl
    | cons leaf leaves ih =>
      intro t
      unfold graftAt
      split_ifs
      · exact ih t
      · rw [ih, hangAll, hall]
  exact hgraft _ t

end Tree

end TruthTrees
