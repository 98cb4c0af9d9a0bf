import TruthTrees.Tree.Drawing
import TruthTrees.Proofs.Applications

/-!
# What does not depend on ticks

Preferences, grafts and drawings do not look at ticks. Two trees that differ in nothing but ticks
satisfy the same preferences, they still differ in nothing else when the same expansion is grafted
to both, and they are drawn alike.
-/

namespace TruthTrees

def Entry.unticked (e : Entry) : Entry :=
  { e with ticked := [] }

theorem Entry.unticked_setChild (e : Entry) (side : Side) (c : Option NodeId) :
    (e.setChild side c).unticked = e.unticked.setChild side c := by
  cases side <;> rfl

namespace Tree

theorem sameShape_of_unticked {t u : Tree} (hnext : u.nextId = t.nextId)
    (h : ∀ id, (u.entry id).unticked = (t.entry id).unticked) : t.SameShape u := by
  have hfield : ∀ {α : Type} (field : Entry → α), (∀ e, field e.unticked = field e) →
      ∀ id, field (u.entry id) = field (t.entry id) := by
    intro α field hkeep id
    rw [← hkeep, h id, hkeep]
  refine ⟨hnext, ?_, ?_, ?_, ?_⟩
  · exact hfield (fun e => e.formulae) fun _ => rfl
  · exact hfield (fun e => e.closed) fun _ => rfl
  · exact hfield Entry.parent fun _ => rfl
  · intro id side
    exact hfield (fun e => e.child side) (fun e => by cases side <;> rfl) id

theorem nextId_hangAll (t : Tree) (e : Expansion) (leaf : NodeId) :
    (t.hangAll e leaf).nextId = t.nextId + e.sides.length := by
  unfold hangAll
  generalize e.sides = sides
  induction sides generalizing t with
  | nil => rfl
  | cons s sides ih =>
    rw [List.foldl_cons, ih, nextId_hang, List.length_cons, Nat.add_assoc, Nat.add_comm 1]

namespace SameShape

variable {t u : Tree}

theorem unticked_eq (h : t.SameShape u) (id : NodeId) :
    (u.entry id).unticked = (t.entry id).unticked := by
  have hl : (u.entry id).left = (t.entry id).left := h.child_eq id .left
  have hr : (u.entry id).right = (t.entry id).right := h.child_eq id .right
  simp only [Entry.unticked, h.formulae_eq, h.closed_eq, h.parent_eq, hl, hr]

/-! ### Preferences -/

theorem wouldClose_eq (h : t.SameShape u) (leaf : NodeId) (n : Node) :
    u.wouldClose leaf n = t.wouldClose leaf n := by
  simp only [wouldClose, Node.contradicts, h.ancestors_eq, h.formulae_eq]

theorem closesEveryBranch_eq (h : t.SameShape u) (id : NodeId) (f : Formula) :
    u.closesEveryBranch id f = t.closesEveryBranch id f := by
  have hcloses : ∀ e, u.closesAt e = t.closesAt e := by
    intro e
    funext leaf
    simp only [closesAt, h.wouldClose_eq]
  simp only [closesEveryBranch, h.ruleFor?_eq, h.growingLeaves_eq, hcloses]

theorem holds_eq (h : t.SameShape u) (p : Preference) (id : NodeId) (f : Formula) :
    p.holds u id f = p.holds t id f := by
  cases p with
  | contradiction => exact h.closesEveryBranch_eq id f
  | _ => rfl

/-! ### Grafts -/

theorem contradictsBranch_eq (h : t.SameShape u) (id : NodeId) :
    u.contradictsBranch id = t.contradictsBranch id := by
  simp only [contradictsBranch, Node.contradicts, h.ancestors_eq, h.formulae_eq]

theorem attach (h : t.SameShape u) {parent : NodeId} (hp : parent < t.nextId) (side : Side)
    (child : Entry) : (t.attach parent side child).SameShape (u.attach parent side child) := by
  have hpu : parent < u.nextId := by rwa [h.nextId_eq]
  apply sameShape_of_unticked
  · rw [nextId_attach, nextId_attach, h.nextId_eq]
  · intro x
    rw [entry_attach hp, entry_attach hpu, h.nextId_eq]
    split_ifs
    · rfl
    · rw [Entry.unticked_setChild, Entry.unticked_setChild, h.unticked_eq]
    · exact h.unticked_eq x

theorem hang (h : t.SameShape u) {leaf : NodeId} (hl : leaf < t.nextId)
    (s : Side × List Formula) : (t.hang leaf s).SameShape (u.hang leaf s) := by
  have hlu : leaf < u.nextId := by rwa [h.nextId_eq]
  apply sameShape_of_unticked
  · rw [nextId_hang, nextId_hang, h.nextId_eq]
  · intro x
    rw [entry_hang hl, entry_hang hlu, h.nextId_eq,
      (h.attach hl s.1 (.ofFormulae s.2)).contradictsBranch_eq]
    split_ifs
    · rfl
    · rw [Entry.unticked_setChild, Entry.unticked_setChild, h.unticked_eq]
    · exact h.unticked_eq x

theorem hangAll (h : t.SameShape u) {leaf : NodeId} (hl : leaf < t.nextId) (e : Expansion) :
    (t.hangAll e leaf).SameShape (u.hangAll e leaf) := by
  unfold Tree.hangAll
  generalize e.sides = sides
  induction sides generalizing t u with
  | nil => exact h
  | cons s sides ih =>
    rw [List.foldl_cons, List.foldl_cons]
    refine ih (h.hang hl s) ?_
    rw [nextId_hang]
    exact Nat.lt_succ_of_lt hl

theorem graftAt (h : t.SameShape u) (e : Expansion) {leaves : List NodeId}
    (hleaves : ∀ l ∈ leaves, l < t.nextId) :
    (t.graftAt e leaves).1.SameShape (u.graftAt e leaves).1 := by
  induction leaves generalizing t u with
  | nil => exact h
  | cons leaf leaves ih =>
    obtain ⟨hleaf, hrest⟩ := List.forall_mem_cons.mp hleaves
    unfold Tree.graftAt
    rw [h.isRedundant_eq]
    split_ifs
    · exact ih h hrest
    · refine ih (h.hangAll hleaf e) ?_
      intro l hl
      rw [nextId_hangAll]
      exact Nat.lt_add_right _ (hrest l hl)

theorem graft (h : t.SameShape u) (ht : t.Linked) {id : NodeId} (hid : id < t.nextId)
    (e : Expansion) : (t.graft id e).1.SameShape (u.graft id e).1 := by
  unfold Tree.graft
  rw [h.leavesBelow_eq]
  apply h.graftAt
  intro l hl
  exact ((mem_leavesBelow ht hid).mp hl).1.lt_nextId hid

/-- A rule grafts its expansion, and its tick makes no difference to that. -/
theorem carryOut (h : t.SameShape u) (ht : t.Linked) {id : NodeId} (hid : id < t.nextId)
    (f : Formula) (a : Application) :
    (t.graft id a.expansion).1.SameShape (u.carryOut id f a).1 :=
  (h.trans (sameShape_ticked u id f a)).graft ht hid a.expansion

/-! ### Drawings -/

theorem outline_eq (h : t.SameShape u) : u.outline = t.outline := by
  have hbelow : ∀ levels depth id,
      u.outlineBelow levels depth id = t.outlineBelow levels depth id := by
    intro levels
    induction levels with
    | zero => exact fun _ _ => rfl
    | succ levels ih =>
      intro depth id
      simp only [outlineBelow, h.children_eq, funext (ih (depth + 1))]
  rw [outline, outline, h.nextId_eq, hbelow]

theorem size_eq (h : t.SameShape u) : u.size = t.size := by
  rw [size, size, ← map_snd_outline, ← map_snd_outline, h.outline_eq]

theorem draw_eq (h : t.SameShape u) (style : Style) : u.draw style = t.draw style := by
  simp only [draw, line, Node.write, h.outline_eq, h.formulae_eq, h.closed_eq]

theorem closes_eq (h : t.SameShape u) : u.closes = t.closes := by
  simp only [closes, closesBelow, h.leavesBelow_eq]

end SameShape

end Tree

end TruthTrees
