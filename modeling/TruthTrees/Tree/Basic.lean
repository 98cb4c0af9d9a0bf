import TruthTrees.Tree.Node

/-!
# Trees

The nodes of a tree are numbered in the order in which they were added, the root being number
zero. Every node has a left and a right place for a child. A node that has been detached keeps its
number and its own children.
-/

namespace TruthTrees

abbrev NodeId := Nat

inductive Side where
  | left
  | right
  deriving DecidableEq

/-- A node in its place in the tree. -/
structure Entry extends Node where
  parent : Option NodeId := none
  left : Option NodeId := none
  right : Option NodeId := none
  deriving DecidableEq, Inhabited

namespace Entry

/-- A node that has no place yet. -/
instance : Coe Node Entry where
  coe node := { toNode := node }

def ofFormulae (formulae : List Formula) : Entry :=
  Node.ofFormulae formulae

def child (e : Entry) : Side → Option NodeId
  | .left => e.left
  | .right => e.right

def setChild (e : Entry) : Side → Option NodeId → Entry
  | .left, id => { e with left := id }
  | .right, id => { e with right := id }

def children (e : Entry) : List NodeId :=
  e.left.toList ++ e.right.toList

def isLeaf (e : Entry) : Bool :=
  e.left.isNone && e.right.isNone

def freeSide? (e : Entry) : Option Side :=
  if e.left.isNone then some .left else if e.right.isNone then some .right else none

def sideOf? (e : Entry) (child : NodeId) : Option Side :=
  if e.left = some child then some .left
  else if e.right = some child then some .right
  else none

end Entry

structure Tree where
  entries : Array Entry
  deriving DecidableEq

inductive TreeFault where
  | tooManyChildren
  deriving DecidableEq

def TreeFault.message : TreeFault → String
  | .tooManyChildren => "invalid operation: too many children"

/-- A change that was refused, and the tree that is left. -/
structure Refusal where
  fault : TreeFault
  tree : Tree
  deriving DecidableEq

def Refusal.message (r : Refusal) : String :=
  r.fault.message

namespace Tree

def root : NodeId := 0

def ofFormulae (formulae : List Formula) : Tree :=
  ⟨#[{ formulae }]⟩

def entry (t : Tree) (id : NodeId) : Entry :=
  t.entries.getD id default

/-- The number that the next new node gets. -/
def nextId (t : Tree) : NodeId :=
  t.entries.size

def update (t : Tree) (id : NodeId) (f : Entry → Entry) : Tree :=
  ⟨t.entries.modify id f⟩

def close (t : Tree) (id : NodeId) : Tree :=
  t.update id fun e => { e with toNode := e.close }

def tick (t : Tree) (id : NodeId) (f : Formula) : Tree :=
  t.update id fun e => { e with toNode := e.tick f }

/-- Put a new node into a place below `parent`. The links that it has from elsewhere, as a copy of
another node does, are dropped. -/
def attach (t : Tree) (parent : NodeId) (side : Side) (child : Entry) : Tree :=
  update ⟨t.entries.push { child with parent := some parent, left := none, right := none }⟩ parent
    fun e => e.setChild side (some t.nextId)

/-- Put a new node into the first free place below `parent`. -/
def addChild (t : Tree) (parent : NodeId) (child : Entry) : Except Refusal (Tree × NodeId) :=
  match (t.entry parent).freeSide? with
  | some side => .ok (t.attach parent side child, t.nextId)
  | none => .error ⟨.tooManyChildren, t⟩

/-- Detach a child from `parent`, if it is one of its children. -/
def removeChild? (t : Tree) (parent child : NodeId) : Option Tree :=
  ((t.entry parent).sideOf? child).map fun side =>
    (t.update parent fun e => e.setChild side none).update child
      fun e => { e with parent := none }

@[simp] theorem nextId_update (t : Tree) (id : NodeId) (f : Entry → Entry) :
    (t.update id f).nextId = t.nextId := by
  simp [update, nextId]

@[simp] theorem nextId_attach (t : Tree) (parent : NodeId) (side : Side) (child : Entry) :
    (t.attach parent side child).nextId = t.nextId + 1 := by
  simp [attach, update, nextId]

theorem entry_update_self {t : Tree} {id : NodeId} (h : id < t.nextId) (f : Entry → Entry) :
    (t.update id f).entry id = f (t.entry id) := by
  simp only [nextId] at h
  simp [update, entry, h, Array.getElem_modify]

theorem entry_update_of_ne {t : Tree} {id other : NodeId} (h : id ≠ other) (f : Entry → Entry) :
    (t.update id f).entry other = t.entry other := by
  simp only [update, entry, Array.getD_eq_getD_getElem?]
  rw [Array.getElem?_modify, if_neg h]

/-- The new node has no children yet, whatever its links were. -/
theorem entry_attach_new {t : Tree} {parent : NodeId} (h : parent < t.nextId) (side : Side)
    (child : Entry) :
    (t.attach parent side child).entry t.nextId =
      { toNode := child.toNode, parent := some parent } := by
  have hne : parent ≠ t.nextId := Nat.ne_of_lt h
  rw [attach, entry_update_of_ne hne]
  simp [entry, nextId]

theorem entry_attach_of_ne {t : Tree} {parent id : NodeId} (h : id ≠ parent) (hid : id < t.nextId)
    (side : Side) (child : Entry) :
    (t.attach parent side child).entry id = t.entry id := by
  rw [attach, entry_update_of_ne (Ne.symm h)]
  simp only [nextId] at hid
  simp [entry, Array.getD_eq_getD_getElem?, Array.getElem?_push, Nat.ne_of_lt hid]

theorem entry_attach_parent {t : Tree} {parent : NodeId} (h : parent < t.nextId) (side : Side)
    (child : Entry) :
    (t.attach parent side child).entry parent =
      (t.entry parent).setChild side (some t.nextId) := by
  rw [attach, entry_update_self (by simpa [nextId] using Nat.lt_succ_of_lt h)]
  simp only [nextId] at h
  simp [entry, Array.getD_eq_getD_getElem?, Array.getElem?_push, Nat.ne_of_lt h]

end Tree

end TruthTrees
