import TruthTrees.Argument.Basic
import TruthTrees.Proofs.Runs
import TruthTrees.Proofs.Vocabulary

/-!
# Witnesses

A quantifier asks for a witness if it is existential and in a positive position, or universal and
in a negative one. If no other quantifier has one of these in its range, then no formula from which
instances are taken again and again asks for witnesses, and every branch uses at most as many of
them as there are quantifiers that ask for one.
-/

namespace TruthTrees

/-- Does the rule for the quantifier introduce a constant, once it has come to the front? -/
def Quantifier.asksWitness : Quantifier → (positive : Bool) → Bool
  | existential, positive => positive
  | universal, positive => !positive

@[simp] theorem Quantifier.asksWitness_dual (q : Quantifier) (positive : Bool) :
    q.dual.asksWitness positive = q.asksWitness !positive := by
  cases q <;> simp [dual, asksWitness]

namespace Formula

/-- The number of quantifiers that ask for a witness. The operands of a biconditional are in both
positions. -/
def witnesses : (positive : Bool) → Formula → Nat
  | _, atom _ _ => 0
  | p, neg f => f.witnesses !p
  | p, bin .conj l r => l.witnesses p + r.witnesses p
  | p, bin .disj l r => l.witnesses p + r.witnesses p
  | p, bin .impl l r => (l.witnesses !p) + r.witnesses p
  | _, bin .iff l r =>
    l.witnesses true + l.witnesses false + (r.witnesses true + r.witnesses false)
  | p, quant q _ f => f.witnesses p + if q.asksWitness p then 1 else 0

/-- No quantifier that asks for a witness is in the range of one that does not. -/
def isTame : (positive : Bool) → Formula → Bool
  | _, atom _ _ => true
  | p, neg f => f.isTame !p
  | p, bin .conj l r => l.isTame p && r.isTame p
  | p, bin .disj l r => l.isTame p && r.isTame p
  | p, bin .impl l r => (l.isTame !p) && r.isTame p
  | _, bin .iff l r => l.isTame true && l.isTame false && (r.isTame true && r.isTame false)
  | p, quant q _ f => f.isTame p && (q.asksWitness p || f.witnesses p == 0)

theorem witnesses_shape (p : Bool) (f : Formula) : f.shape.witnesses p = f.witnesses p := by
  induction f generalizing p with
  | atom c ts => rfl
  | neg f ih => exact ih !p
  | bin c l r ihl ihr => cases c <;> simp only [shape, witnesses, ihl, ihr]
  | quant q v f ih => simp only [shape, witnesses, ih]

@[simp] theorem witnesses_substitute (p : Bool) (f : Formula) (x c : Term) :
    (f.substitute x c).witnesses p = f.witnesses p := by
  rw [← witnesses_shape, shape_substitute, witnesses_shape]

theorem isTame_shape (p : Bool) (f : Formula) : f.shape.isTame p = f.isTame p := by
  induction f generalizing p with
  | atom c ts => rfl
  | neg f ih => exact ih !p
  | bin c l r ihl ihr => cases c <;> simp only [shape, isTame, ihl, ihr]
  | quant q v f ih => simp only [shape, isTame, ih, witnesses_shape]

@[simp] theorem isTame_substitute (p : Bool) (f : Formula) (x c : Term) :
    (f.substitute x c).isTame p = f.isTame p := by
  rw [← isTame_shape, shape_substitute, isTame_shape]

theorem witnesses_body_eq_zero {v : Term} {f : Formula} (h : (quant .universal v f).isTame true) :
    f.witnesses true = 0 := by
  simpa [isTame, Quantifier.asksWitness] using (Bool.and_eq_true_iff.mp h).2

theorem isTame_of_witnesses_eq_zero {p : Bool} {f : Formula} (h : f.witnesses p = 0) :
    f.isTame p := by
  induction f generalizing p with
  | atom c ts => rfl
  | neg f ih => exact ih h
  | bin c l r ihl ihr =>
    cases c <;> simp only [witnesses, Nat.add_eq_zero_iff] at h <;> simp [isTame, *]
  | quant q v f ih =>
    simp only [witnesses, Nat.add_eq_zero_iff] at h
    simp [isTame, ih h.1, h.1]

/-- A formula in which all quantifiers ask for a witness is tame. The others are those that would
ask for one in the other position. -/
theorem isTame_of_witnesses_not_eq_zero {p : Bool} {f : Formula} (h : (f.witnesses !p) = 0) :
    f.isTame p := by
  induction f generalizing p with
  | atom c ts => rfl
  | neg f ih => exact ih h
  | bin c l r ihl ihr =>
    have ihl' := @ihl !p
    have ihr' := @ihr !p
    cases c <;> cases p <;> simp_all [witnesses, isTame]
  | quant q v f ih =>
    have hf : f.isTame p := ih (by simp only [witnesses] at h; omega)
    have hq : q.asksWitness p := by
      simp only [witnesses, Nat.add_eq_zero_iff] at h
      cases q <;> cases p <;> simp_all [Quantifier.asksWitness]
    simp [isTame, hf, hq]

/-- What a formula on a branch counts for: the constant that its rule has introduced, or all the
witnesses that it may yet ask for. -/
def load (f : Formula) (ticked : Bool) : Nat :=
  if ticked then if f.ruleKind = .existential then 1 else 0 else f.witnesses true

theorem load_le_witnesses (f : Formula) (ticked : Bool) : f.load ticked ≤ f.witnesses true := by
  unfold load
  split_ifs with _ hkind
  · obtain ⟨q, v, body, rfl⟩ := eq_quant_of_ruleKind (.inr hkind)
    cases q with
    | existential => simp [witnesses, Quantifier.asksWitness]
    | universal => cases hkind
  · exact Nat.zero_le _
  · exact Nat.le_refl _

end Formula

namespace Tree

variable {t : Tree} {id : NodeId} {f : Formula} {a : Application}

theorem isTame_of_rule (hrule : t.ruleFor? id f = some a) (hf : f.isTame true) :
    ∀ b ∈ a.expansion.branches, ∀ g ∈ b, g.isTame true := by
  cases f with
  | atom p ts => cases hrule
  | neg f =>
    cases f with
    | atom p ts => cases hrule
    | neg f =>
      cases hrule
      simpa [Application.linear, Formula.isTame] using hf
    | bin c l r =>
      cases c <;> cases hrule <;>
        simp_all [Application.linear, Application.split, Formula.isTame]
    | quant q v f =>
      cases hrule
      simpa [Application.linear, Formula.isTame, Formula.witnesses] using hf
  | bin c l r =>
    cases c <;> cases hrule <;> simp_all [Application.linear, Application.split, Formula.isTame]
  | quant q v body =>
    have hbody : body.isTame true := by
      simp only [Formula.isTame, Bool.and_eq_true] at hf
      exact hf.1
    intro b hb g hg
    cases yields_of_rule hrule b hb g hg with
    | witness => rwa [Formula.isTame_substitute]
    | inst => rwa [Formula.isTame_substitute]

theorem load_add_sum_le (hrule : t.ruleFor? id f = some a) (hf : f.isTame true) :
    ∀ b ∈ a.expansion.branches,
      f.load a.ticks + (b.map (Formula.witnesses true)).sum ≤ f.witnesses true := by
  cases f with
  | atom p ts => cases hrule
  | neg f =>
    cases f with
    | atom p ts => cases hrule
    | neg f =>
      cases hrule
      simp [Application.linear, Formula.load, Formula.ruleKind, RuleKind.ofNegated,
        Formula.witnesses]
    | bin c l r =>
      cases c with
      | iff =>
        cases hrule
        simp [Application.split, Formula.load, Formula.ruleKind, RuleKind.ofNegated,
          Formula.witnesses]
        omega
      | _ =>
        cases hrule
        simp [Application.linear, Application.split, Formula.load, Formula.ruleKind,
          RuleKind.ofNegated, Formula.witnesses]
    | quant q v f =>
      cases hrule
      simp [Application.linear, Formula.load, Formula.ruleKind, RuleKind.ofNegated,
        Formula.witnesses]
  | bin c l r =>
    cases c with
    | iff =>
      cases hrule
      simp [Application.split, Formula.load, Formula.ruleKind, Formula.witnesses]
      omega
    | _ =>
      cases hrule
      simp [Application.linear, Application.split, Formula.load, Formula.ruleKind,
        Formula.witnesses]
  | quant q v body =>
    cases q with
    | existential =>
      cases hrule
      simp [Application.linear, Formula.load, Formula.ruleKind, Formula.witnesses,
        Quantifier.asksWitness]
      omega
    | universal =>
      have hsum : ((t.instances id v body).map (Formula.witnesses true)).sum = 0 := by
        apply List.sum_eq_zero
        simp only [List.mem_map]
        rintro _ ⟨g, hg, rfl⟩
        obtain ⟨c, rfl, -⟩ := mem_instances hg
        rw [Formula.witnesses_substitute, Formula.witnesses_body_eq_zero hf]
      cases hrule
      simp [Formula.load, hsum]

/-! ### Witnesses on a branch -/

def loadAt (t : Tree) (id : NodeId) : Nat :=
  ((t.entry id).formulae.map fun f => f.load ((t.entry id).isTicked f)).sum

/-- What the formulae on the path from a node to the root count for. -/
def loadAbove (t : Tree) (id : NodeId) : Nat :=
  ((t.ancestors id).map t.loadAt).sum

theorem sum_map_add_le {α : Type} {l : List α} {g h : α → Nat} (hle : ∀ x ∈ l, g x ≤ h x)
    {y : α} (hy : y ∈ l) {d : Nat} (hd : g y + d ≤ h y) :
    (l.map g).sum + d ≤ (l.map h).sum := by
  induction l with
  | nil => cases hy
  | cons x l ih =>
    obtain ⟨hx, hl⟩ := List.forall_mem_cons.mp hle
    simp only [List.map_cons, List.sum_cons]
    rcases List.mem_cons.mp hy with rfl | hy
    · have hrest := List.sum_le_sum hl
      omega
    · have hrest := ih hl hy
      omega

section CarryOut

variable (h : t.Linked) (ha : t.Applicable id f a)

include h ha

theorem load_isTicked_carryOut_le (x : NodeId) (g : Formula) :
    g.load (((t.carryOut id f a).1.entry x).isTicked g) ≤ g.load ((t.entry x).isTicked g) := by
  have hiff := isTicked_carryOut (ha.lt_nextId h) ha.mem (a := a) (x := x) (g := g)
  cases hold : (t.entry x).isTicked g with
  | true => rw [hiff.mpr (.inl hold)]
  | false => exact g.load_le_witnesses _

theorem loadAt_carryOut_le {x : NodeId} (hx : x < t.nextId) :
    (t.carryOut id f a).1.loadAt x ≤ t.loadAt x := by
  unfold loadAt
  rw [(ha.grafted h).keeps.formulae_eq hx]
  exact List.sum_le_sum fun g _ => load_isTicked_carryOut_le h ha x g

theorem loadAt_carryOut_add_le :
    (t.carryOut id f a).1.loadAt id + (f.witnesses true - f.load a.ticks) ≤ t.loadAt id := by
  have hid := ha.lt_nextId h
  unfold loadAt
  rw [(ha.grafted h).keeps.formulae_eq hid]
  refine sum_map_add_le (fun g _ => load_isTicked_carryOut_le h ha id g) ha.mem ?_
  have hticked : ((t.carryOut id f a).1.entry id).isTicked f = a.ticks := by
    rw [Bool.eq_iff_iff, isTicked_carryOut hid ha.mem]
    simp [ha.unticked]
  have hle := f.load_le_witnesses a.ticks
  rw [hticked, ha.unticked]
  simp only [Formula.load, Bool.false_eq_true, if_false] at hle ⊢
  omega

theorem loadAbove_carryOut_le {x : NodeId} (hx : x < t.nextId) :
    (t.carryOut id f a).1.loadAbove x ≤ t.loadAbove x := by
  have hgraft := ha.grafted h
  unfold loadAbove
  rw [hgraft.keeps.ancestors_eq h hgraft.linked hx]
  refine List.sum_le_sum fun y hy => loadAt_carryOut_le h ha ?_
  exact Nat.lt_of_le_of_lt (le_of_mem_ancestors h hy) hx

theorem loadAbove_carryOut_add_le {x : NodeId} (hx : x < t.nextId) (hid : id ∈ t.ancestors x) :
    (t.carryOut id f a).1.loadAbove x + (f.witnesses true - f.load a.ticks) ≤ t.loadAbove x := by
  have hgraft := ha.grafted h
  unfold loadAbove
  rw [hgraft.keeps.ancestors_eq h hgraft.linked hx]
  refine sum_map_add_le (fun y hy => loadAt_carryOut_le h ha ?_) hid (loadAt_carryOut_add_le h ha)
  exact Nat.lt_of_le_of_lt (le_of_mem_ancestors h hy) hx

end CarryOut

section Run

variable {premises : List Formula} {conclusion : Formula}

theorem Reachable.isTame (h : Reachable premises conclusion t)
    (hroot : ∀ f ∈ premises ++ [.neg conclusion], f.isTame true) :
    ∀ id, ∀ f ∈ (t.entry id).formulae, f.isTame true :=
  h.forall_formulae hroot fun hrule hf => isTame_of_rule hrule hf

/-- No branch ever counts for more than the root did at the start. -/
theorem Reachable.loadAbove_le (h : Reachable premises conclusion t)
    (hroot : ∀ f ∈ premises ++ [.neg conclusion], f.isTame true) :
    ∀ x < t.nextId, t.loadAbove x ≤
      ((premises ++ [Formula.neg conclusion]).map (Formula.witnesses true)).sum := by
  induction h with
  | start =>
    intro x hx
    obtain rfl := eq_root_of_lt_start hx
    have hl : (Prover.start premises conclusion).tree.Linked := Reachable.start.linked
    rw [loadAbove, ancestors_of_orphan hl hl.root_parent]
    simp only [List.map_cons, List.map_nil, List.sum_cons, List.sum_nil, Nat.add_zero, loadAt]
    rw [Reachable.start.formulae_root]
    exact List.sum_le_sum fun f _ => f.load_le_witnesses _
  | @apply t id f a h ha ih =>
    have hl := h.linked
    have hgraft := ha.grafted hl
    intro x hx
    rcases Nat.lt_or_ge x t.nextId with hlt | hge
    · exact Nat.le_trans (loadAbove_carryOut_le hl ha hlt) (ih x hlt)
    · -- the new node counts for no more than its formula has come to count less
      obtain ⟨s, hs, -, hgrown⟩ := hgraft.new hge hx
      obtain ⟨hgrows, hb⟩ := mem_graftShoots hs
      have hbelow := (mem_growingLeaves.mp hgrows).1
      have hup := ((mem_leavesBelow hl (ha.lt_nextId hl)).mp hbelow).1.mem_ancestors hl
      have hdrop := loadAbove_carryOut_add_le hl ha (hgraft.leaf_lt s hs) hup
      have hrule := load_add_sum_le ha.rule (h.isTame hroot id f ha.mem) s.formulae hb
      have hnew : (t.carryOut id f a).1.loadAt x ≤
          (s.formulae.map (Formula.witnesses true)).sum := by
        rw [loadAt, hgrown.formulae_eq]
        exact List.sum_le_sum fun g _ => g.load_le_witnesses _
      have hsplit : (t.carryOut id f a).1.loadAbove x =
          (t.carryOut id f a).1.loadAt x + (t.carryOut id f a).1.loadAbove s.leaf := by
        rw [loadAbove, ancestors_of_parent hgraft.linked hgrown.parent_eq]
        rfl
      have hleaf := ih s.leaf (hgraft.leaf_lt s hs)
      omega

end Run

/-- The existential formulae above a node that have had their witness. -/
def witnessed (t : Tree) (id : NodeId) : List Formula :=
  (t.ancestors id).flatMap fun x =>
    (t.entry x).formulae.filter fun f => f.ruleKind = .existential ∧ (t.entry x).isTicked f

theorem length_witnessed_le (t : Tree) (id : NodeId) :
    (t.witnessed id).length ≤ t.loadAbove id := by
  have hcount : ∀ (x : NodeId) (fs : List Formula),
      (fs.filter fun f => f.ruleKind = .existential ∧ (t.entry x).isTicked f).length ≤
        (fs.map fun f => f.load ((t.entry x).isTicked f)).sum := by
    intro x fs
    induction fs with
    | nil => exact Nat.le_refl _
    | cons f fs ih =>
      rw [List.filter_cons, List.map_cons, List.sum_cons]
      split_ifs with hf
      · obtain ⟨hkind, hticked⟩ := of_decide_eq_true hf
        have hload : f.load ((t.entry x).isTicked f) = 1 := by
          simp [Formula.load, hkind, hticked]
        rw [List.length_cons, hload]
        omega
      · omega
  unfold witnessed loadAbove
  rw [List.length_flatMap]
  exact List.sum_le_sum fun x _ => hcount x _

end Tree

end TruthTrees
