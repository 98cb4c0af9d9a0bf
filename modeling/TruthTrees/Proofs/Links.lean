import Mathlib.Tactic.ByContra
import Mathlib.Tactic.SplitIfs
import TruthTrees.Tree.Built

/-!
# Links between nodes

A node knows its parent and its children. In a tree that is built step by step both agree, every
node stands in one place only, and it has a higher number than its parent.
-/

namespace TruthTrees

namespace Entry

theorem mem_children {e : Entry} {c : NodeId} :
    c ∈ e.children ↔ e.left = some c ∨ e.right = some c := by
  simp [children]

theorem mem_children_iff_child {e : Entry} {c : NodeId} :
    c ∈ e.children ↔ ∃ side, e.child side = some c := by
  rw [mem_children]
  constructor
  · rintro (h | h)
    · exact ⟨.left, h⟩
    · exact ⟨.right, h⟩
  · rintro ⟨side, h⟩
    cases side with
    | left => exact .inl h
    | right => exact .inr h

@[simp] theorem toNode_setChild (e : Entry) (side : Side) (c : Option NodeId) :
    (e.setChild side c).toNode = e.toNode := by
  cases side <;> rfl

@[simp] theorem parent_setChild (e : Entry) (side : Side) (c : Option NodeId) :
    (e.setChild side c).parent = e.parent := by
  cases side <;> rfl

@[simp] theorem child_setChild_self (e : Entry) (side : Side) (c : Option NodeId) :
    (e.setChild side c).child side = c := by
  cases side <;> rfl

theorem child_setChild_of_ne (e : Entry) {side other : Side} (h : other ≠ side)
    (c : Option NodeId) : (e.setChild side c).child other = e.child other := by
  cases side <;> cases other <;> first | rfl | exact absurd rfl h

theorem isLeaf_iff_children {e : Entry} : e.isLeaf ↔ e.children = [] := by
  cases hl : e.left <;> cases hr : e.right <;> simp [isLeaf, children, hl, hr]

theorem isLeaf_iff_child {e : Entry} : e.isLeaf ↔ ∀ side, e.child side = none := by
  rw [isLeaf_iff_children, List.eq_nil_iff_forall_not_mem]
  simp only [mem_children_iff_child, not_exists, Option.eq_none_iff_forall_ne_some]
  exact ⟨fun h side c => h c side, fun h c side => h side c⟩

end Entry

namespace Tree

theorem entry_of_le {t : Tree} {id : NodeId} (h : t.nextId ≤ id) : t.entry id = default := by
  simp only [nextId] at h
  simp [entry, Array.getD_eq_getD_getElem?, Array.getElem?_eq_none h]

theorem lt_of_parent {t : Tree} {p c : NodeId} (hp : (t.entry c).parent = some p) :
    c < t.nextId := by
  by_contra hc
  rw [entry_of_le (Nat.le_of_not_lt hc)] at hp
  cases hp

theorem entry_update (t : Tree) {id : NodeId} (h : id < t.nextId) (f : Entry → Entry)
    (x : NodeId) : (t.update id f).entry x = if x = id then f (t.entry id) else t.entry x := by
  split_ifs with hx
  · rw [hx, entry_update_self h]
  · exact entry_update_of_ne (Ne.symm hx) f

theorem entry_attach {t : Tree} {parent : NodeId} (h : parent < t.nextId) (side : Side)
    (child : Entry) (x : NodeId) :
    (t.attach parent side child).entry x =
      if x = t.nextId then { toNode := child.toNode, parent := some parent }
      else if x = parent then (t.entry parent).setChild side (some t.nextId)
      else t.entry x := by
  split_ifs with hnew hparent
  · rw [hnew, entry_attach_new h]
  · rw [hparent, entry_attach_parent h]
  · rcases Nat.lt_or_ge x t.nextId with hlt | hge
    · exact entry_attach_of_ne hparent hlt side child
    · have hne : t.nextId < x := Nat.lt_of_le_of_ne hge (Ne.symm hnew)
      rw [entry_of_le hge, entry_of_le]
      rw [nextId_attach]
      exact hne

/-- Parents and children agree, and parents come first. -/
structure Linked (t : Tree) : Prop where
  root_lt : root < t.nextId
  mem_children_iff : ∀ {p c}, c ∈ (t.entry p).children ↔ (t.entry c).parent = some p
  parent_lt : ∀ {p c}, (t.entry c).parent = some p → p < c
  left_ne_right : ∀ {p c}, (t.entry p).left = some c → (t.entry p).right ≠ some c

namespace Linked

variable {t : Tree}

theorem root_parent (h : t.Linked) : (t.entry root).parent = none := by
  cases hp : (t.entry root).parent with
  | none => rfl
  | some p => exact absurd (h.parent_lt hp) (Nat.not_lt_zero p)

theorem parent_of_child (h : t.Linked) {p c : NodeId} {side : Side}
    (hc : (t.entry p).child side = some c) : (t.entry c).parent = some p :=
  h.mem_children_iff.mp (Entry.mem_children_iff_child.mpr ⟨side, hc⟩)

theorem side_unique (h : t.Linked) {p c : NodeId} {side other : Side}
    (hs : (t.entry p).child side = some c) (ho : (t.entry p).child other = some c) :
    side = other := by
  cases side <;> cases other
  · rfl
  · exact absurd ho (h.left_ne_right hs)
  · exact absurd hs (h.left_ne_right ho)
  · rfl

end Linked

theorem linked_ofFormulae (fs : List Formula) : (ofFormulae fs).Linked := by
  have hentry : ∀ id, (ofFormulae fs).entry id =
      if id = 0 then { formulae := fs } else default := by
    intro id
    cases id with
    | zero => rfl
    | succ id => exact entry_of_le (by simp [nextId, ofFormulae])
  have hnone : ∀ id, ((ofFormulae fs).entry id).parent = none ∧
      ((ofFormulae fs).entry id).left = none ∧ ((ofFormulae fs).entry id).right = none := by
    intro id
    rw [hentry]
    split_ifs <;> exact ⟨rfl, rfl, rfl⟩
  constructor
  · exact Nat.zero_lt_one
  · intro p c
    simp [Entry.mem_children, hnone]
  · intro p c hp
    simp [hnone] at hp
  · intro p c hl
    simp [hnone] at hl

theorem Linked.update {t : Tree} (h : t.Linked) (id : NodeId) {f : Entry → Entry}
    (hf : ∀ e, (f e).parent = e.parent ∧ (f e).left = e.left ∧ (f e).right = e.right) :
    (t.update id f).Linked := by
  have hentry : ∀ x, ((t.update id f).entry x).parent = (t.entry x).parent ∧
      ((t.update id f).entry x).left = (t.entry x).left ∧
      ((t.update id f).entry x).right = (t.entry x).right := by
    intro x
    rcases Nat.lt_or_ge id t.nextId with hid | hid
    · rw [entry_update t hid]
      split_ifs with hx
      · rw [hx]
        exact hf (t.entry id)
      · exact ⟨rfl, rfl, rfl⟩
    · by_cases hx : id = x
      · rw [← hx, entry_of_le hid, entry_of_le (by simpa using hid)]
        exact ⟨rfl, rfl, rfl⟩
      · rw [entry_update_of_ne hx]
        exact ⟨rfl, rfl, rfl⟩
  constructor
  · simpa using h.root_lt
  · intro p c
    rw [Entry.mem_children, (hentry p).2.1, (hentry p).2.2, (hentry c).1, ← Entry.mem_children]
    exact h.mem_children_iff
  · intro p c hp
    rw [(hentry c).1] at hp
    exact h.parent_lt hp
  · intro p c hl
    rw [(hentry p).2.1] at hl
    rw [(hentry p).2.2]
    exact h.left_ne_right hl

theorem Linked.close {t : Tree} (h : t.Linked) (id : NodeId) : (t.close id).Linked :=
  h.update id fun _ => ⟨rfl, rfl, rfl⟩

theorem Linked.tick {t : Tree} (h : t.Linked) (id : NodeId) (f : Formula) :
    (t.tick id f).Linked :=
  h.update id fun _ => ⟨rfl, rfl, rfl⟩

theorem Linked.attach {t : Tree} (h : t.Linked) {parent : NodeId} (hp : parent < t.nextId)
    {side : Side} (hs : (t.entry parent).child side = none) (child : Entry) :
    (t.attach parent side child).Linked := by
  have hnew : t.entry t.nextId = default := entry_of_le (Nat.le_refl _)
  have hparent : ∀ x, ((t.attach parent side child).entry x).parent =
      if x = t.nextId then some parent else (t.entry x).parent := by
    intro x
    rw [entry_attach hp]
    split_ifs with hx hxp
    · rfl
    · rw [Entry.parent_setChild, hxp]
    · rfl
  have hchild : ∀ x s, ((t.attach parent side child).entry x).child s =
      if x = parent ∧ s = side then some t.nextId else (t.entry x).child s := by
    intro x s
    rw [entry_attach hp]
    split_ifs with hx hxp hxp hxs hxs
    · exact absurd (hxp.1.symm.trans hx) (Nat.ne_of_lt hp)
    · rw [hx, hnew]
      cases s <;> rfl
    · rw [hxs.2, Entry.child_setChild_self]
    · rw [hxp, Entry.child_setChild_of_ne _ fun hs => hxs ⟨hxp, hs⟩]
    · exact absurd hxs.1 hxp
    · rfl
  constructor
  · rw [nextId_attach]
    exact Nat.lt_succ_of_lt h.root_lt
  · intro p c
    rw [Entry.mem_children_iff_child, hparent]
    have hold := h.mem_children_iff (p := p) (c := c)
    rw [Entry.mem_children_iff_child] at hold
    split_ifs with hc
    · subst hc
      constructor
      · rintro ⟨s, hcs⟩
        rw [hchild] at hcs
        split_ifs at hcs with hps
        · rw [hps.1]
        · exact absurd (lt_of_parent (h.parent_of_child hcs)) (Nat.lt_irrefl _)
      · intro hpp
        exact ⟨side, by rw [hchild, if_pos ⟨(Option.some.inj hpp).symm, rfl⟩]⟩
    · rw [← hold]
      constructor
      · rintro ⟨s, hcs⟩
        rw [hchild] at hcs
        split_ifs at hcs with hps
        · exact absurd (Option.some.inj hcs).symm hc
        · exact ⟨s, hcs⟩
      · rintro ⟨s, hcs⟩
        refine ⟨s, ?_⟩
        rw [hchild, if_neg]
        · exact hcs
        · rintro ⟨rfl, rfl⟩
          rw [hs] at hcs
          cases hcs
  · intro p c hpc
    rw [hparent] at hpc
    split_ifs at hpc with hc
    · cases hpc
      rw [hc]
      exact hp
    · exact h.parent_lt hpc
  · intro p c hl hr
    have hl : ((t.attach parent side child).entry p).child .left = some c := hl
    have hr : ((t.attach parent side child).entry p).child .right = some c := hr
    rw [hchild] at hl hr
    -- the new number is in no place of the old tree
    have hfresh : ∀ s, (t.entry p).child s ≠ some t.nextId := by
      intro s hcs
      exact Nat.lt_irrefl _ (lt_of_parent (h.parent_of_child hcs))
    split_ifs at hl hr with hpl hpr hpr
    · cases hpl.2.trans hpr.2.symm
    · rw [← hl] at hr
      exact hfresh _ hr
    · rw [← hr] at hl
      exact hfresh _ hl
    · exact h.left_ne_right hl hr

end Tree

end TruthTrees
