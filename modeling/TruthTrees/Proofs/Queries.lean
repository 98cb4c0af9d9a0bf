import Mathlib.Algebra.GroupWithZero.Nat
import TruthTrees.Tree.Agenda
import TruthTrees.Proofs.Building

/-!
# What the walks through a tree tell

The walks list nodes in the order in which a tree is read: a node comes before its children, and the
left child with all that is below it before the right one. A walk with an agenda comes to the same
lists, because at every moment the rest of the list is what the items on the agenda stand for. The
leaves, the closed branches and the drawing of a tree are then described by the paths of the tree.
-/

namespace TruthTrees

/-! ### Walks with an agenda -/

namespace Agenda

variable {α : Type}

/-- What has to hold so that every item stands for a listing: it is taken apart by `below` into
items that cost less. -/
structure Lists (below : α → Option (List α)) (Item : α → Prop) (listing : α → List α)
    (cost : α → Nat) : Prop where
  cost_pos : ∀ {x}, Item x → 0 < cost x
  dropped : ∀ {x}, Item x → below x = none → listing x = []
  visited : ∀ {x items}, Item x → below x = some items →
    (∀ y ∈ items, Item y) ∧ listing x = x :: items.flatMap listing ∧
      (items.map cost).sum < cost x

variable {below : α → Option (List α)} {Item : α → Prop} {listing : α → List α} {cost : α → Nat}

/-- The items on an agenda stand for what is still to be listed, and what they cost bounds the
number of looks at it. -/
theorem Lists.run?_eq (h : Lists below Item listing cost) {budget : Nat} {agenda : List α}
    (hitems : ∀ x ∈ agenda, Item x) (hcost : (agenda.map cost).sum ≤ budget) :
    run? below budget agenda = some (agenda.flatMap listing) := by
  induction budget generalizing agenda with
  | zero =>
    cases agenda with
    | nil => rfl
    | cons x agenda =>
      have hx := h.cost_pos (hitems x List.mem_cons_self)
      rw [List.map_cons, List.sum_cons] at hcost
      omega
  | succ budget ih =>
    cases agenda with
    | nil => rfl
    | cons x agenda =>
      obtain ⟨hx, hrest⟩ := List.forall_mem_cons.mp hitems
      have hpos := h.cost_pos hx
      rw [List.map_cons, List.sum_cons] at hcost
      rw [run?, List.flatMap_cons]
      cases hbelow : below x with
      | none =>
        dsimp only
        rw [ih hrest (by omega), h.dropped hx hbelow, List.nil_append]
      | some items =>
        obtain ⟨hitem, hlisting, hless⟩ := h.visited hx hbelow
        have hall : ∀ y ∈ push items agenda, Item y := by
          rw [push_eq_append]
          exact List.forall_mem_append.mpr ⟨hitem, hrest⟩
        have hsum : ((push items agenda).map cost).sum ≤ budget := by
          rw [push_eq_append, List.map_append, List.sum_append]
          omega
        dsimp only
        rw [ih hall hsum, hlisting, push_eq_append, List.flatMap_append]
        rfl

end Agenda

namespace Tree

variable {t : Tree}

def nodesBelow (t : Tree) (id : NodeId) : List NodeId :=
  t.descendants (fun _ => false) id

theorem nodesBelow_eq (h : t.Linked) {id : NodeId} (hid : id < t.nextId) :
    t.nodesBelow id = id :: (t.entry id).children.flatMap t.nodesBelow :=
  descendants_eq h _ hid

theorem length_nodesBelow_le (h : t.Linked) {id : NodeId} (hid : id < t.nextId) :
    (t.nodesBelow id).length ≤ t.nextId := by
  have hsub : t.nodesBelow id ⊆ List.range t.nextId := by
    intro x hx
    exact List.mem_range.mpr (((mem_descendants h hid).mp hx).lt_nextId hid)
  have hle := (nodup_descendants h _ hid).length_le_of_subset hsub
  rwa [List.length_range] at hle

theorem sum_length_nodesBelow_lt (h : t.Linked) {id : NodeId} (hid : id < t.nextId) :
    ((t.entry id).children.map fun c => (t.nodesBelow c).length).sum <
      (t.nodesBelow id).length := by
  rw [nodesBelow_eq h hid, List.length_cons, List.length_flatMap]
  exact Nat.lt_succ_self _

theorem lt_nextId_of_mem_children (h : t.Linked) {id c : NodeId}
    (hc : c ∈ (t.entry id).children) : c < t.nextId :=
  lt_of_parent (h.mem_children_iff.mp hc)

theorem lists_descendants (h : t.Linked) (skip : Entry → Bool) :
    Agenda.Lists (fun id => if skip (t.entry id) then none else some (t.entry id).children)
      (fun id => id < t.nextId) (t.descendants skip) (fun id => (t.nodesBelow id).length) := by
  constructor
  · intro id hid
    rw [nodesBelow_eq h hid]
    exact Nat.succ_pos _
  · intro id hid hnone
    rw [descendants_eq h skip hid]
    split_ifs at hnone ⊢ with hskip
    rfl
  · intro id items hid hsome
    rw [descendants_eq h skip hid]
    split_ifs at hsome ⊢ with hskip
    cases hsome
    exact ⟨fun c hc => lt_nextId_of_mem_children h hc, rfl, sum_length_nodesBelow_lt h hid⟩

theorem walkDown?_eq (h : t.Linked) (skip : Entry → Bool) {id budget : Nat} (hid : id < t.nextId)
    (hbudget : t.nextId ≤ budget) : t.walkDown? skip budget id = some (t.descendants skip id) := by
  have hcost : (([id] : List NodeId).map fun id => (t.nodesBelow id).length).sum ≤ budget := by
    simpa using Nat.le_trans (length_nodesBelow_le h hid) hbudget
  rw [walkDown?, (lists_descendants h skip).run?_eq (List.forall_mem_singleton.mpr hid) hcost,
    List.flatMap_singleton]

/-! ### Depths -/

def depth (t : Tree) (id : NodeId) : Nat :=
  (t.ancestors id).tail.length

theorem depth_of_orphan (h : t.Linked) {id : NodeId} (hp : (t.entry id).parent = none) :
    t.depth id = 0 := by
  rw [depth, ancestors_of_orphan h hp]
  rfl

theorem depth_of_parent (h : t.Linked) {id p : NodeId} (hp : (t.entry id).parent = some p) :
    t.depth id = t.depth p + 1 := by
  have hne : t.ancestors p ≠ [] := List.ne_nil_of_mem (mem_ancestors_self h p)
  have hpos := List.length_pos_iff.mpr hne
  rw [depth, ancestors_of_parent h hp, List.tail_cons, depth, List.length_tail]
  omega

theorem outlineBelow_eq (h : t.Linked) (levels : Nat) (id : NodeId) :
    t.outlineBelow levels (t.depth id) id =
      (t.levelsBelow (fun _ => false) levels id).map fun x => (t.depth x, x) := by
  induction levels generalizing id with
  | zero => rfl
  | succ levels ih =>
    have hchildren : (t.entry id).children.flatMap (t.outlineBelow levels (t.depth id + 1)) =
        (t.entry id).children.flatMap fun c =>
          (t.levelsBelow (fun _ => false) levels c).map fun x => (t.depth x, x) := by
      apply List.flatMap_congr
      intro c hc
      rw [← depth_of_parent h (h.mem_children_iff.mp hc), ih]
    rw [outlineBelow, hchildren, levelsBelow, if_neg Bool.false_ne_true, List.map_cons,
      List.map_flatMap]

theorem outline_eq_map (h : t.Linked) : t.outline = t.nodes.map fun id => (t.depth id, id) := by
  have heq := outlineBelow_eq h t.nextId root
  rwa [depth_of_orphan h h.root_parent] at heq

theorem lists_outline (h : t.Linked) :
    Agenda.Lists (fun (depth, id) => some ((t.entry id).children.map fun c => (depth + 1, c)))
      (fun item => item.2 < t.nextId ∧ item.1 = t.depth item.2)
      (fun item => (t.nodesBelow item.2).map fun x => (t.depth x, x))
      (fun item => (t.nodesBelow item.2).length) := by
  constructor
  · rintro ⟨depth, id⟩ ⟨hid, -⟩
    rw [nodesBelow_eq h hid]
    exact Nat.succ_pos _
  · rintro ⟨depth, id⟩ - hnone
    cases hnone
  · rintro ⟨depth, id⟩ items hitem hsome
    obtain ⟨hid, rfl⟩ : id < t.nextId ∧ depth = t.depth id := hitem
    cases hsome
    refine ⟨?_, ?_, ?_⟩
    · intro item hitem
      obtain ⟨c, hc, rfl⟩ := List.mem_map.mp hitem
      exact ⟨lt_nextId_of_mem_children h hc, (depth_of_parent h (h.mem_children_iff.mp hc)).symm⟩
    · rw [nodesBelow_eq h hid, List.map_cons, List.map_flatMap, List.flatMap_map]
    · rw [List.map_map]
      exact sum_length_nodesBelow_lt h hid

theorem walkOutline?_eq (h : t.Linked) {budget : Nat} (hbudget : t.nextId ≤ budget) :
    t.walkOutline? budget = some t.outline := by
  have hroot : root < t.nextId ∧ 0 = t.depth root :=
    ⟨h.root_lt, (depth_of_orphan h h.root_parent).symm⟩
  have hcost : (([(0, root)] : List (Nat × NodeId)).map fun item =>
      (t.nodesBelow item.2).length).sum ≤ budget := by
    simpa using Nat.le_trans (length_nodesBelow_le h h.root_lt) hbudget
  rw [walkOutline?, (lists_outline h).run?_eq (List.forall_mem_singleton.mpr hroot) hcost,
    List.flatMap_singleton, outline_eq_map h]
  rfl

/-! ### The order of a walk -/

/-- What is read at and below a place of the tree: a node comes before its children, and the left
one before the right one. Nodes for which `skip` holds are left out, with all that is below
them. -/
inductive InPreorder (t : Tree) (skip : Entry → Bool) : Option NodeId → List NodeId → Prop where
  | empty : InPreorder t skip none []
  | skipped {id : NodeId} (h : skip (t.entry id) = true) : InPreorder t skip (some id) []
  | node {id : NodeId} {ls rs : List NodeId} (h : skip (t.entry id) = false)
      (hl : InPreorder t skip (t.entry id).left ls)
      (hr : InPreorder t skip (t.entry id).right rs) :
      InPreorder t skip (some id) (id :: (ls ++ rs))

theorem InPreorder.eq_flatMap (h : t.Linked) {skip : Entry → Bool} {place : Option NodeId}
    {xs : List NodeId} (hxs : t.InPreorder skip place xs) (hplace : ∀ id ∈ place, id < t.nextId) :
    xs = place.toList.flatMap (t.descendants skip) := by
  induction hxs with
  | empty => rfl
  | skipped hskip =>
    rw [Option.toList_some, List.flatMap_singleton, descendants_eq h _ (hplace _ rfl), if_pos hskip]
  | @node id ls rs hskip hl hr ihl ihr =>
    have hchild : ∀ c ∈ (t.entry id).children, c < t.nextId :=
      fun c hc => lt_nextId_of_mem_children h hc
    have hleft := ihl fun c hc => hchild c (Entry.mem_children.mpr (.inl hc))
    have hright := ihr fun c hc => hchild c (Entry.mem_children.mpr (.inr hc))
    rw [Option.toList_some, List.flatMap_singleton, descendants_eq h _ (hplace _ rfl), hskip,
      if_neg Bool.false_ne_true, Entry.children, List.flatMap_append, ← hleft, ← hright]

theorem inPreorder_descendants (h : t.Linked) (skip : Entry → Bool) {id : NodeId}
    (hid : id < t.nextId) : t.InPreorder skip (some id) (t.descendants skip id) := by
  induction id, hid using h.induction_children with
  | node id hid ih =>
    have hplace : ∀ place : Option NodeId, (∀ c ∈ place, c ∈ (t.entry id).children) →
        t.InPreorder skip place (place.toList.flatMap (t.descendants skip)) := by
      intro place hchild
      cases place with
      | none => exact .empty
      | some c =>
        rw [Option.toList_some, List.flatMap_singleton]
        exact ih c (h.mem_children_iff.mp (hchild c rfl))
    rw [descendants_eq h skip hid]
    split_ifs with hskip
    · exact .skipped hskip
    · rw [Entry.children, List.flatMap_append]
      apply InPreorder.node (eq_false_of_ne_true hskip)
      · exact hplace _ fun c hc => Entry.mem_children.mpr (.inl hc)
      · exact hplace _ fun c hc => Entry.mem_children.mpr (.inr hc)

theorem inPreorder_iff (h : t.Linked) {skip : Entry → Bool} {id : NodeId} (hid : id < t.nextId)
    {xs : List NodeId} : t.InPreorder skip (some id) xs ↔ xs = t.descendants skip id := by
  constructor
  · intro hxs
    have heq := hxs.eq_flatMap h (by simpa using hid)
    rwa [Option.toList_some, List.flatMap_singleton] at heq
  · rintro rfl
    exact inPreorder_descendants h skip hid

/-! ### Paths -/

/-- A path leads from `top` down to `x`, through open or closed nodes. -/
abbrev Path (t : Tree) (top x : NodeId) : Prop :=
  t.Reaches (fun _ => false) top x

theorem Reaches.path {skip : Entry → Bool} {top x : NodeId} (h : t.Reaches skip top x) :
    t.Path top x := by
  induction h with
  | here _ => exact .here rfl
  | down _ hc _ ih => exact .down ih hc rfl

theorem Path.antisymm (h : t.Linked) {x y : NodeId} (hxy : t.Path x y) (hyx : t.Path y x) :
    x = y :=
  Nat.le_antisymm (le_of_mem_ancestors h (hxy.mem_ancestors h))
    (le_of_mem_ancestors h (hyx.mem_ancestors h))

theorem OpenPath.isClosed_eq_false (h : t.Linked) {top x y : NodeId} (hx : t.OpenPath top x)
    (htop : t.Path top y) (hy : t.Path y x) : t.isClosed y = false := by
  induction hx with
  | here ho =>
    rw [hy.antisymm h htop]
    exact ho
  | down _ hc ho ih =>
    cases hy with
    | here _ => exact ho
    | down hyp hc' _ =>
      rw [hc] at hc'
      cases hc'
      exact ih hyp

theorem openPath_iff_path (h : t.Linked) {top x : NodeId} :
    t.OpenPath top x ↔
      t.Path top x ∧ ∀ y, t.Path top y → t.Path y x → t.isClosed y = false := by
  constructor
  · intro hx
    exact ⟨hx.path, fun y htop hy => hx.isClosed_eq_false h htop hy⟩
  · rintro ⟨hpath, hopen⟩
    induction hpath with
    | here _ => exact .here (hopen _ (.here rfl) (.here rfl))
    | down hp hc _ ih =>
      apply Reaches.down _ hc (hopen _ (.down hp hc rfl) (.here rfl))
      apply ih
      intro y htop hy
      exact hopen y htop (.down hy hc rfl)

/-! ### Leaves and closed branches -/

theorem mem_leavesBelow_iff_path (h : t.Linked) {id x : NodeId} (hid : id < t.nextId) :
    x ∈ t.leavesBelow id ↔
      t.Path id x ∧ (t.entry x).isLeaf ∧
        ∀ y, t.Path id y → t.Path y x → t.isClosed y = false := by
  rw [mem_leavesBelow h hid, openPath_iff_path h]
  tauto

/-- The nodes are below the two children of one node, `x` to the left and `y` to the right. -/
def LeftOf (t : Tree) (x y : NodeId) : Prop :=
  ∃ p l r, (t.entry p).left = some l ∧ (t.entry p).right = some r ∧ t.Path l x ∧ t.Path r y

theorem leftOf_of_mem_leavesBelow (h : t.Linked) {p l r x y : NodeId}
    (hl : (t.entry p).left = some l) (hr : (t.entry p).right = some r)
    (hx : x ∈ t.leavesBelow l) (hy : y ∈ t.leavesBelow r) : t.LeftOf x y := by
  have hln := lt_nextId_of_mem_children h (Entry.mem_children.mpr (.inl hl))
  have hrn := lt_nextId_of_mem_children h (Entry.mem_children.mpr (.inr hr))
  exact ⟨p, l, r, hl, hr, ((mem_leavesBelow h hln).mp hx).1.path,
    ((mem_leavesBelow h hrn).mp hy).1.path⟩

theorem pairwise_leavesBelow (h : t.Linked) {id : NodeId} (hid : id < t.nextId) :
    (t.leavesBelow id).Pairwise t.LeftOf := by
  induction id, hid using h.induction_children with
  | node id hid ih =>
    rw [leavesBelow_eq h hid]
    split_ifs
    · exact .nil
    · exact List.pairwise_singleton _ _
    · rw [List.pairwise_flatMap]
      constructor
      · intro c hc
        exact ih c (h.mem_children_iff.mp hc)
      · -- Of the children, only the left one comes before another.
        cases hl : (t.entry id).left with
        | none => cases hr : (t.entry id).right <;> simp [Entry.children, hl, hr]
        | some l =>
          cases hr : (t.entry id).right with
          | none => simp [Entry.children, hl, hr]
          | some r =>
            simp only [Entry.children, hl, hr, Option.toList_some, List.singleton_append,
              List.pairwise_pair]
            intro x hx y hy
            exact leftOf_of_mem_leavesBelow h hl hr hx hy

theorem closesBelow_iff_path (h : t.Linked) {id : NodeId} (hid : id < t.nextId) :
    t.closesBelow id ↔
      ∀ x, t.Path id x → (t.entry x).isLeaf → ∃ y, t.Path id y ∧ t.Path y x ∧ t.isClosed y := by
  rw [closesBelow, List.isEmpty_iff, List.eq_nil_iff_forall_not_mem]
  apply forall_congr'
  intro x
  rw [mem_leavesBelow_iff_path h hid]
  simp only [not_and, not_forall, Bool.not_eq_false, exists_prop]

theorem closesBelow_iff_children (h : t.Linked) {id : NodeId} (hid : id < t.nextId) :
    t.closesBelow id ↔
      t.isClosed id ∨ (¬(t.entry id).isLeaf ∧ ∀ c ∈ (t.entry id).children, t.closesBelow c) := by
  simp only [closesBelow, List.isEmpty_iff]
  rw [leavesBelow_eq h hid, isClosed]
  split_ifs with hclosed hleaf
  · simp [hclosed]
  · simp [hclosed, hleaf]
  · simp [hclosed, hleaf]

/-! ### What the queries tell -/

theorem draw_eq_flatMap_nodes (h : t.Linked) (style : Style) :
    t.draw style = t.nodes.flatMap fun id => line style (t.depth id) (t.entry id).toNode := by
  rw [draw, outline_eq_map h, List.flatMap_map]

/-- The leaves below a node are the ends of the paths from it that meet no closed node, from left to
right. A node closes if all its paths meet a closed one. The lists of nodes and the drawing follow
the tree in order, and walks with an agenda come to the same lists. -/
theorem Built.queries_tell_paths (hbuilt : t.Built) :
    (∀ id < t.nextId,
      (∀ x, x ∈ t.leavesBelow id ↔
        t.Path id x ∧ (t.entry x).isLeaf ∧
          ∀ y, t.Path id y → t.Path y x → t.isClosed y = false) ∧
      (t.leavesBelow id).Nodup ∧ (t.leavesBelow id).Pairwise t.LeftOf ∧
      (t.closesBelow id ↔
        ∀ x, t.Path id x → (t.entry x).isLeaf →
          ∃ y, t.Path id y ∧ t.Path y x ∧ t.isClosed y) ∧
      (t.closesBelow id ↔
        t.isClosed id ∨
          (¬(t.entry id).isLeaf ∧ ∀ c ∈ (t.entry id).children, t.closesBelow c)) ∧
      ∀ skip, ∀ budget ≥ t.nextId, t.walkDown? skip budget id = some (t.descendants skip id)) ∧
    (∀ xs, t.InPreorder (fun e => e.closed) (some root) xs ↔ xs = t.openNodes) ∧
    (∀ xs, t.InPreorder (fun _ => false) (some root) xs ↔ xs = t.nodes) ∧
    t.size = t.nodes.length ∧
    (t.depth root = 0 ∧ ∀ p, ∀ c ∈ (t.entry p).children, t.depth c = t.depth p + 1) ∧
    (∀ style, t.draw style =
      t.nodes.flatMap fun id => line style (t.depth id) (t.entry id).toNode) ∧
    ∀ budget ≥ t.nextId,
      t.walkOutline? budget = some (t.nodes.map fun id => (t.depth id, id)) := by
  have h := hbuilt.linked
  have hroot : root < t.nextId := h.root_lt
  refine ⟨?_, fun xs => inPreorder_iff h hroot, fun xs => inPreorder_iff h hroot, rfl, ?_,
    draw_eq_flatMap_nodes h, ?_⟩
  · intro id hid
    exact ⟨fun x => mem_leavesBelow_iff_path h hid, nodup_leavesBelow h hid,
      pairwise_leavesBelow h hid, closesBelow_iff_path h hid, closesBelow_iff_children h hid,
      fun skip budget hbudget => walkDown?_eq h skip hid hbudget⟩
  · constructor
    · exact depth_of_orphan h h.root_parent
    · intro p c hc
      exact depth_of_parent h (h.mem_children_iff.mp hc)
  · intro budget hbudget
    rw [walkOutline?_eq h hbudget, outline_eq_map h]

/-- The root loses its left child, which keeps a child of its own, and gets another one. To the
right there is a closed node with a node below it. -/
def pruned : Tree :=
  let t := (ofFormulae [.atom 'P' []]).request root (.ofFormulae [.atom 'Q' []])
  let t := t.request root (.ofFormulae [.atom 'R' []])
  let t := (t.removeChild? root 1).getD t
  let t := t.request 1 (.ofFormulae [.atom 'S' []])
  let t := (t.request 2 (.ofFormulae [.atom 'T' []])).request 2 (.ofFormulae [.atom 'U' []])
  let t := t.request 4 (.ofFormulae [.atom 'V' []])
  let t := (t.request 5 (.ofFormulae [.atom 'W' []])).request 5 (.ofFormulae [.atom 'X' []])
  (t.close 4).request root (.ofFormulae [.atom 'Y' []])

theorem Built.pruned_queries :
    pruned.Built ∧ pruned.nodes = [0, 9, 2, 4, 6, 5, 7, 8] ∧
      pruned.InPreorder (fun e => e.closed) (some root) [0, 9, 2, 5, 7, 8] ∧
      pruned.leavesBelow root = [9, 7, 8] ∧ [9, 7, 8].Pairwise pruned.LeftOf ∧
      pruned.leavesBelow 1 = [3] ∧
      (∀ x, pruned.Path 4 x → (pruned.entry x).isLeaf →
        ∃ y, pruned.Path 4 y ∧ pruned.Path y x ∧ pruned.isClosed y) ∧
      ¬pruned.closesBelow root ∧
      (∀ budget ≥ 10, pruned.walkDown? (fun e => e.closed) budget 2 = some [2, 5, 7, 8]) ∧
      ∀ budget ≥ 10, pruned.walkOutline? budget =
        some [(0, 0), (1, 9), (1, 2), (2, 4), (3, 6), (2, 5), (3, 7), (3, 8)] := by
  have hbuilt : pruned.Built := by
    have hpair := ((Built.single [.atom 'P' []]).request root (by decide)
      (.ofFormulae [.atom 'Q' []])).request root (by decide) (.ofFormulae [.atom 'R' []])
    have hloose := @Built.removeChild _ _ root 1 hpair (by decide) (by decide) rfl
    have hgrown := (((hloose.request 1 (by decide) (.ofFormulae [.atom 'S' []])).request 2
      (by decide) (.ofFormulae [.atom 'T' []])).request 2 (by decide +kernel)
      (.ofFormulae [.atom 'U' []])).request 4 (by decide +kernel) (.ofFormulae [.atom 'V' []])
    have hfull := (hgrown.request 5 (by decide +kernel) (.ofFormulae [.atom 'W' []])).request 5
      (by decide +kernel) (.ofFormulae [.atom 'X' []])
    exact (@Built.close _ 4 hfull (by decide +kernel)).request root (by decide +kernel) _
  obtain ⟨hbelow, hopen, -, -, -, -, houtline⟩ := hbuilt.queries_tell_paths
  obtain ⟨-, -, hordered, -, -, -⟩ := hbelow root (by decide +kernel)
  have hleaves : pruned.leavesBelow root = [9, 7, 8] := by decide +kernel
  refine ⟨hbuilt, by decide +kernel, (hopen _).mpr (by decide +kernel), hleaves,
    hleaves ▸ hordered, by decide +kernel, ?_, by decide +kernel, ?_, ?_⟩
  · exact (hbelow 4 (by decide +kernel)).2.2.2.1.mp (by decide +kernel)
  · intro budget hbudget
    rw [(hbelow 2 (by decide +kernel)).2.2.2.2.2 _ budget hbudget]
    decide +kernel
  · intro budget hbudget
    rw [houtline budget hbudget]
    decide +kernel

end Tree

end TruthTrees
