import TruthTrees.Proofs.Ticks

/-!
# Passes over the formulae

A step tries one formula after the other and leaves ticks on its way, by one preference after the
other. Only formulae whose rules have nothing to add get such ticks, and preferences and rules do
not look at ticks. So what the step ends up with is already settled by the tree before it.
-/

namespace TruthTrees

namespace Tree

def RedundantBelow (t : Tree) (id : NodeId) (f : Formula) : Prop :=
  ∃ a, t.ruleFor? id f = some a ∧ ∀ leaf ∈ t.leavesBelow id, t.isRedundant leaf a.expansion

/-- A formula without tick satisfies the preference, and its rule adds nodes at some open leaf. -/
def isProductive (t : Tree) (p : Preference) (q : NodeId × Formula) : Bool :=
  !(t.entry q.1).isTicked q.2 && p.holds t q.1 q.2 &&
    (t.ruleFor? q.1 q.2).any fun a =>
      (t.leavesBelow q.1).any fun leaf => !t.isRedundant leaf a.expansion

/-- The first preference of a list that has productive formulae, with the first of these in the
order of the nodes. -/
def choiceBy? (t : Tree) (ps : List Preference) : Option (Preference × NodeId × Formula) :=
  ps.findSome? fun p => (t.openFormulae.find? (t.isProductive p)).map fun q => (p, q)

def choice? (t : Tree) : Option (Preference × NodeId × Formula) :=
  t.choiceBy? Preference.all

theorem choiceBy?_eq_none_iff {t : Tree} {ps : List Preference} :
    t.choiceBy? ps = none ↔ ∀ p ∈ ps, ∀ q ∈ t.openFormulae, t.isProductive p q = false := by
  simp [choiceBy?, List.findSome?_eq_none_iff]

theorem choice?_eq_none_iff {t : Tree} :
    t.choice? = none ↔
      ∀ p ∈ Preference.all, ∀ q ∈ t.openFormulae, t.isProductive p q = false :=
  choiceBy?_eq_none_iff

theorem choice?_isSome_iff {t : Tree} :
    t.choice?.isSome ↔ ∃ p ∈ Preference.all, ∃ q ∈ t.openFormulae, t.isProductive p q := by
  rw [Option.isSome_iff_ne_none, ne_eq, choice?_eq_none_iff]
  simp

/-! ### What is productive -/

theorem redundantBelow_iff {t : Tree} {id : NodeId} {f : Formula} :
    t.RedundantBelow id f ↔
      ∃ a, t.ruleFor? id f = some a ∧ t.growingLeaves id a.expansion = [] := by
  simp [RedundantBelow, growingLeaves]

theorem isProductive_of_rule {t : Tree} {p : Preference} {id : NodeId} {f : Formula}
    {a : Application} (ha : t.ruleFor? id f = some a) :
    t.isProductive p (id, f) = (!(t.entry id).isTicked f && p.holds t id f &&
      !(t.growingLeaves id a.expansion).isEmpty) := by
  have hany : (!(t.growingLeaves id a.expansion).isEmpty) =
      (t.leavesBelow id).any fun leaf => !t.isRedundant leaf a.expansion := by
    rw [growingLeaves, Bool.eq_iff_iff]
    simp
  rw [hany]
  simp [isProductive, ha]

theorem isProductive_of_no_rule {t : Tree} {p : Preference} {id : NodeId} {f : Formula}
    (h : t.ruleFor? id f = none) : t.isProductive p (id, f) = false := by
  simp [isProductive, h]

theorem RedundantBelow.isProductive_eq_false {t : Tree} {id : NodeId} {f : Formula}
    (h : t.RedundantBelow id f) (p : Preference) : t.isProductive p (id, f) = false := by
  obtain ⟨a, ha, hnone⟩ := redundantBelow_iff.mp h
  simp [isProductive_of_rule ha, hnone]

theorem spent_of_isProductive_eq_false {t : Tree} {id : NodeId} {f : Formula}
    (hf : f.isLiteral = false) (h : t.isProductive .wildcard (id, f) = false) : t.Spent id f := by
  obtain ⟨a, ha⟩ := t.exists_ruleFor? id hf
  rw [isProductive_of_rule ha] at h
  cases hticked : (t.entry id).isTicked f with
  | true => exact .inl hticked
  | false => exact .inr ⟨a, ha, by simpa [Preference.holds, hf, hticked] using h⟩

theorem redundantBelow_of_carryOut {t : Tree} (h : t.Linked) {id : NodeId} {f : Formula}
    {a : Application} (ha : t.Applicable id f a) (hgrew : (t.carryOut id f a).2 = false) :
    t.RedundantBelow id f := by
  have hnone := (grafted_carryOut h (ha.lt_nextId h) f a).2
  rw [hgrew] at hnone
  exact redundantBelow_iff.mpr ⟨a, ha.rule, by simpa using hnone.symm⟩

namespace Idles

variable {t u : Tree}

theorem isTicked_cases (h : t.Idles u) (ht : t.Linked) {id : NodeId} {f : Formula}
    (hf : (u.entry id).isTicked f) : (t.entry id).isTicked f ∨ t.RedundantBelow id f := by
  induction h with
  | refl => exact .inl hf
  | @apply u x g a h ha hv ih =>
    have hl := h.linked ht
    rcases (isTicked_carryOut (ha.lt_nextId hl) ha.mem).mp hf with hold | ⟨-, rfl, rfl⟩
    · exact ih hold
    · obtain ⟨b, hb, hnone⟩ := redundantBelow_iff.mp (redundantBelow_of_carryOut hl ha hv)
      rw [h.sameShape.ruleFor?_eq] at hb
      rw [h.sameShape.growingLeaves_eq] at hnone
      exact .inr (redundantBelow_iff.mpr ⟨b, hb, hnone⟩)

/-- Rules that add no nodes do not change what is productive. -/
theorem isProductive_eq (h : t.Idles u) (ht : t.Linked) (p : Preference) :
    u.isProductive p = t.isProductive p := by
  funext ⟨id, f⟩
  have hshape := h.sameShape
  cases hrule : t.ruleFor? id f with
  | none =>
    rw [isProductive_of_no_rule hrule, isProductive_of_no_rule (by rw [hshape.ruleFor?_eq, hrule])]
  | some a =>
    rw [isProductive_of_rule hrule, isProductive_of_rule (by rw [hshape.ruleFor?_eq, hrule]),
      hshape.holds_eq, hshape.growingLeaves_eq]
    cases hold : (t.entry id).isTicked f with
    | true => rw [h.isTicked ht hold]
    | false =>
      cases hnew : (u.entry id).isTicked f with
      | false => rfl
      | true =>
        -- the tick is new, so the rule has nothing to add
        rcases h.isTicked_cases ht hnew with hticked | hred
        · rw [hold] at hticked
          cases hticked
        · obtain ⟨b, hb, hnone⟩ := redundantBelow_iff.mp hred
          rw [hrule] at hb
          cases hb
          simp [hnone]

theorem choiceBy?_eq (h : t.Idles u) (ht : t.Linked) (ps : List Preference) :
    u.choiceBy? ps = t.choiceBy? ps := by
  simp only [choiceBy?, h.sameShape.openFormulae_eq, h.isProductive_eq ht]

end Idles

/-- The tree `u` is left of `t` when formulae have been tried by a preference and no rule added a
node: the formulae that are done with are ticked. -/
structure InVain (t : Tree) (p : Preference) (pairs : List (NodeId × Formula)) (u : Tree) :
    Prop where
  idles : t.Idles u
  ticked : ∀ q ∈ pairs, p.holds t q.1 q.2 → ∀ a, t.ruleFor? q.1 q.2 = some a → a.ticks →
    (u.entry q.1).isTicked q.2

namespace InVain

variable {t u v : Tree} {p : Preference} {pairs : List (NodeId × Formula)}

theorem idles_trans (h : t.InVain p pairs u) (ht : t.Linked) (h' : u.Idles v) :
    t.InVain p pairs v := by
  refine ⟨h.idles.trans h', ?_⟩
  intro q hq hholds a ha hticks
  exact h'.isTicked (h.idles.linked ht) (h.ticked q hq hholds a ha hticks)

theorem of_idles (h : t.Idles u) (h' : u.InVain p pairs v) : t.InVain p pairs v := by
  refine ⟨h.trans h'.idles, ?_⟩
  intro q hq hholds a ha hticks
  rw [← h.sameShape.holds_eq] at hholds
  rw [← h.sameShape.ruleFor?_eq] at ha
  exact h'.ticked q hq hholds a ha hticks

theorem cons {q : NodeId × Formula} (h : t.InVain p [q] u) (ht : t.Linked)
    (h' : u.InVain p pairs v) : t.InVain p (q :: pairs) v := by
  refine ⟨h.idles.trans h'.idles, ?_⟩
  intro r hr
  rcases List.mem_cons.mp hr with rfl | hr
  · exact (h.idles_trans ht h'.idles).ticked r (List.mem_singleton_self r)
  · exact (of_idles h.idles h').ticked r hr

end InVain

/-- The tree `v` comes from `t` by rules that add no nodes and then the rule for the formula `f` at
the node `id`, which does. -/
def AdvancesAt (t : Tree) (id : NodeId) (f : Formula) (v : Tree) : Prop :=
  ∃ u a, t.Idles u ∧ u.Applicable id f a ∧ (u.carryOut id f a).2 = true ∧
    v = (u.carryOut id f a).1

theorem Idles.advancesAt {t u v : Tree} {id : NodeId} {f : Formula} (h : t.Idles u)
    (h' : u.AdvancesAt id f v) : t.AdvancesAt id f v := by
  obtain ⟨w, a, hw, ha, hgrew, rfl⟩ := h'
  exact ⟨w, a, h.trans hw, ha, hgrew, rfl⟩

theorem AdvancesAt.advances {t v : Tree} {id : NodeId} {f : Formula} (h : t.AdvancesAt id f v) :
    t.Advances v := by
  obtain ⟨u, a, hu, ha, hgrew, rfl⟩ := h
  exact ⟨u, id, f, a, hu, ha, hgrew, rfl⟩

end Tree

namespace Prover

/-! ### Trying formulae -/

theorem attempt_cases (s : Prover) (p : Preference) (id : NodeId) (f : Formula) :
    ((s.attempt p id f).2 = false ∧ (s.attempt p id f).1.tree = s.tree ∧
      ((s.tree.entry id).isTicked f ∨ p.holds s.tree id f = false ∨
        s.tree.ruleFor? id f = none)) ∨
    ∃ a, (s.tree.entry id).isTicked f = false ∧ p.holds s.tree id f = true ∧
      s.tree.ruleFor? id f = some a ∧
      (s.attempt p id f).1.tree = (s.tree.carryOut id f a).1 ∧
      (s.attempt p id f).2 = (s.tree.carryOut id f a).2 := by
  unfold attempt
  dsimp only
  split_ifs with htick hholds
  · exact .inl ⟨rfl, rfl, .inl htick⟩
  · cases hrule : s.tree.ruleFor? id f with
    | none => exact .inl ⟨rfl, rfl, .inr (.inr rfl)⟩
    | some a =>
      refine .inr ⟨a, eq_false_of_ne_true htick, hholds, rfl, ?_⟩
      cases hout : s.tree.carryOut id f a with
      | mk t grew => cases grew <;> simp [hout]
  · exact .inl ⟨rfl, rfl, .inr (.inl (eq_false_of_ne_true hholds))⟩

theorem applied_attempt (s : Prover) (p : Preference) (id : NodeId) (f : Formula) :
    (s.attempt p id f).1.stats.applied = s.stats.applied := by
  have hlook : (s.stats.look p).applied = s.stats.applied := by
    unfold Stats.look
    split_ifs <;> rfl
  unfold attempt
  dsimp only
  split_ifs
  · rfl
  · cases s.tree.ruleFor? id f with
    | none => exact hlook
    | some a =>
      dsimp only
      split
      · exact hlook
      · exact hlook
  · exact hlook

theorem attempt_snd (s : Prover) (hl : s.tree.Linked) (p : Preference) {id : NodeId}
    (hid : id < s.tree.nextId) (f : Formula) :
    (s.attempt p id f).2 = s.tree.isProductive p (id, f) := by
  rcases s.attempt_cases p id f with ⟨hflag, -, hwhy⟩ | ⟨a, hun, hholds, hrule, -, hflag⟩
  · rw [hflag]
    rcases hwhy with htick | hholds | hnone
    · simp [Tree.isProductive, htick]
    · simp [Tree.isProductive, hholds]
    · exact (Tree.isProductive_of_no_rule hnone).symm
  · rw [hflag, Tree.isProductive_of_rule hrule, hun, hholds, (Tree.grafted_carryOut hl hid f a).2]
    rfl

theorem inVain_attempt {s : Prover} (hl : s.tree.Linked) {p : Preference} {id : NodeId}
    {f : Formula} (hq : (id, f) ∈ s.tree.openFormulae) (h : (s.attempt p id f).2 = false) :
    s.tree.InVain p [(id, f)] (s.attempt p id f).1.tree := by
  obtain ⟨hopen, hmem⟩ := (Tree.mem_openFormulae hl).mp hq
  rcases s.attempt_cases p id f with ⟨-, htree, hwhy⟩ | ⟨a, hun, -, hrule, htree, hflag⟩
  · rw [htree]
    refine ⟨.refl, ?_⟩
    intro q hq hholds a ha _
    obtain rfl := List.mem_singleton.mp hq
    rcases hwhy with htick | hfails | hnone
    · exact htick
    · rw [hfails] at hholds
      cases hholds
    · rw [hnone] at ha
      cases ha
  · have happ : s.tree.Applicable id f a := ⟨hopen, hmem, hun, hrule⟩
    rw [htree]
    refine ⟨.apply .refl happ (hflag ▸ h), ?_⟩
    intro q hq _ b hb hticks
    obtain rfl := List.mem_singleton.mp hq
    rw [hrule] at hb
    cases hb
    exact (Tree.isTicked_carryOut (happ.lt_nextId hl) hmem).mpr (.inr ⟨hticks, rfl, rfl⟩)

theorem advancesAt_attempt {s : Prover} (hl : s.tree.Linked) {p : Preference} {id : NodeId}
    {f : Formula} (hq : (id, f) ∈ s.tree.openFormulae) (h : (s.attempt p id f).2 = true) :
    s.tree.AdvancesAt id f (s.attempt p id f).1.tree := by
  obtain ⟨hopen, hmem⟩ := (Tree.mem_openFormulae hl).mp hq
  rcases s.attempt_cases p id f with ⟨hflag, -, -⟩ | ⟨a, hun, -, hrule, htree, hflag⟩
  · rw [hflag] at h
    cases h
  · exact ⟨s.tree, a, .refl, ⟨hopen, hmem, hun, hrule⟩, hflag ▸ h, htree⟩

/-! ### Passes -/

theorem attemptAll_cons (s : Prover) (p : Preference) (id : NodeId) (f : Formula)
    (pairs : List (NodeId × Formula)) :
    s.attemptAll p ((id, f) :: pairs) =
      if (s.attempt p id f).2 then ((s.attempt p id f).1, true)
      else (s.attempt p id f).1.attemptAll p pairs := by
  rw [attemptAll]
  obtain ⟨s', grew⟩ := s.attempt p id f
  cases grew <;> rfl

theorem applied_attemptAll (s : Prover) (p : Preference) (pairs : List (NodeId × Formula)) :
    (s.attemptAll p pairs).1.stats.applied = s.stats.applied := by
  induction pairs generalizing s with
  | nil => rfl
  | cons q pairs ih =>
    obtain ⟨id, f⟩ := q
    rw [attemptAll_cons]
    split_ifs
    · exact s.applied_attempt p id f
    · rw [ih, applied_attempt]

theorem attemptAll_of_find?_eq_none {s : Prover} (hl : s.tree.Linked) {p : Preference}
    {pairs : List (NodeId × Formula)} (hpairs : ∀ q ∈ pairs, q ∈ s.tree.openFormulae)
    (h : pairs.find? (s.tree.isProductive p) = none) :
    (s.attemptAll p pairs).2 = false ∧
      s.tree.InVain p pairs (s.attemptAll p pairs).1.tree := by
  induction pairs generalizing s with
  | nil => exact ⟨rfl, .refl, fun q hq => absurd hq List.not_mem_nil⟩
  | cons q pairs ih =>
    obtain ⟨id, f⟩ := q
    obtain ⟨hq, hrest⟩ := List.forall_mem_cons.mp hpairs
    have hid := Tree.lt_nextId_of_mem ((Tree.mem_openFormulae hl).mp hq).2
    rw [List.find?_cons] at h
    split at h
    · cases h
    · next hvain =>
      rw [← s.attempt_snd hl p hid] at hvain
      have hfirst := inVain_attempt hl hq hvain
      rw [attemptAll_cons, hvain, if_neg Bool.false_ne_true]
      rw [← hfirst.idles.isProductive_eq hl] at h
      obtain ⟨hflag, hlast⟩ := ih (hfirst.idles.linked hl)
        (by rwa [hfirst.idles.sameShape.openFormulae_eq]) h
      exact ⟨hflag, hfirst.cons hl hlast⟩

theorem attemptAll_of_find?_eq_some {s : Prover} (hl : s.tree.Linked) {p : Preference}
    {pairs : List (NodeId × Formula)} (hpairs : ∀ q ∈ pairs, q ∈ s.tree.openFormulae)
    {id : NodeId} {f : Formula} (h : pairs.find? (s.tree.isProductive p) = some (id, f)) :
    (s.attemptAll p pairs).2 = true ∧
      s.tree.AdvancesAt id f (s.attemptAll p pairs).1.tree := by
  induction pairs generalizing s with
  | nil => cases h
  | cons q pairs ih =>
    obtain ⟨x, g⟩ := q
    obtain ⟨hq, hrest⟩ := List.forall_mem_cons.mp hpairs
    have hx := Tree.lt_nextId_of_mem ((Tree.mem_openFormulae hl).mp hq).2
    rw [List.find?_cons] at h
    rw [attemptAll_cons, s.attempt_snd hl p hx]
    split at h
    · next hprod =>
      cases h
      rw [hprod, if_pos rfl]
      rw [← s.attempt_snd hl p hx] at hprod
      exact ⟨rfl, advancesAt_attempt hl hq hprod⟩
    · next hvain =>
      rw [hvain, if_neg Bool.false_ne_true]
      rw [← s.attempt_snd hl p hx] at hvain
      have hfirst := (inVain_attempt hl hq hvain).idles
      rw [← hfirst.isProductive_eq hl] at h
      obtain ⟨hflag, hadv⟩ := ih (hfirst.linked hl)
        (by rwa [hfirst.sameShape.openFormulae_eq]) h
      exact ⟨hflag, hfirst.advancesAt hadv⟩

/-! ### Steps by a list of preferences -/

theorem stepBy_cons (s : Prover) (p : Preference) (ps : List Preference) :
    s.stepBy (p :: ps) =
      if (s.attemptAll p s.tree.openFormulae).2 then
        (⟨(s.attemptAll p s.tree.openFormulae).1.tree,
          (s.attemptAll p s.tree.openFormulae).1.stats.addStep p⟩, some p)
      else (s.attemptAll p s.tree.openFormulae).1.stepBy ps := by
  rw [stepBy]
  obtain ⟨s', grew⟩ := s.attemptAll p s.tree.openFormulae
  cases grew <;> rfl

theorem applied_stepBy (s : Prover) (ps : List Preference) :
    (s.stepBy ps).1.stats.applied = (s.stepBy ps).2.toList ++ s.stats.applied := by
  induction ps generalizing s with
  | nil => rfl
  | cons p ps ih =>
    rw [stepBy_cons]
    split_ifs
    · exact congrArg (p :: ·) (s.applied_attemptAll p s.tree.openFormulae)
    · rw [ih, applied_attemptAll]

/-- A step in vain has tried all formulae by all preferences. -/
theorem stepBy_of_choiceBy?_eq_none {s : Prover} (hl : s.tree.Linked) {ps : List Preference}
    (h : s.tree.choiceBy? ps = none) :
    (s.stepBy ps).2 = none ∧ s.tree.Idles (s.stepBy ps).1.tree ∧
      ∀ p ∈ ps, s.tree.InVain p s.tree.openFormulae (s.stepBy ps).1.tree := by
  induction ps generalizing s with
  | nil => exact ⟨rfl, .refl, fun p hp => absurd hp List.not_mem_nil⟩
  | cons p ps ih =>
    rw [Tree.choiceBy?, List.findSome?_cons] at h
    split at h
    · cases h
    · next hnone =>
      obtain ⟨hflag, hfirst⟩ := attemptAll_of_find?_eq_none hl (fun q hq => hq)
        (Option.map_eq_none_iff.mp hnone)
      rw [stepBy_cons, hflag, if_neg Bool.false_ne_true]
      generalize (s.attemptAll p s.tree.openFormulae).1 = s' at hfirst
      have hl' := hfirst.idles.linked hl
      have h' : s'.tree.choiceBy? ps = none := by rwa [hfirst.idles.choiceBy?_eq hl]
      obtain ⟨hstep, hidle, hall⟩ := ih hl' h'
      refine ⟨hstep, hfirst.idles.trans hidle, ?_⟩
      intro q hq
      rcases List.mem_cons.mp hq with rfl | hq
      · exact hfirst.idles_trans hl hidle
      · rw [← hfirst.idles.sameShape.openFormulae_eq]
        exact .of_idles hfirst.idles (hall q hq)

theorem stepBy_of_choiceBy?_eq_some {s : Prover} (hl : s.tree.Linked) {ps : List Preference}
    {p : Preference} {id : NodeId} {f : Formula} (h : s.tree.choiceBy? ps = some (p, id, f)) :
    (s.stepBy ps).2 = some p ∧ s.tree.AdvancesAt id f (s.stepBy ps).1.tree := by
  induction ps generalizing s with
  | nil => cases h
  | cons q ps ih =>
    rw [Tree.choiceBy?, List.findSome?_cons] at h
    rw [stepBy_cons]
    split at h
    · next hfound =>
      obtain ⟨r, hr, hchoice⟩ := Option.map_eq_some_iff.mp hfound
      cases h
      cases hchoice
      obtain ⟨hflag, hadv⟩ := attemptAll_of_find?_eq_some hl (fun q hq => hq) hr
      rw [hflag, if_pos rfl]
      exact ⟨rfl, hadv⟩
    · next hnone =>
      obtain ⟨hflag, hfirst⟩ := attemptAll_of_find?_eq_none hl (fun q hq => hq)
        (Option.map_eq_none_iff.mp hnone)
      rw [hflag, if_neg Bool.false_ne_true]
      generalize (s.attemptAll q s.tree.openFormulae).1 = s' at hfirst
      have h' : s'.tree.choiceBy? ps = some (p, id, f) := by rwa [hfirst.idles.choiceBy?_eq hl]
      obtain ⟨hstep, hadv⟩ := ih (hfirst.idles.linked hl) h'
      exact ⟨hstep, hfirst.idles.advancesAt hadv⟩

/-! ### Steps by all preferences -/

theorem step_of_choice?_eq_none {s : Prover} (hl : s.tree.Linked) (h : s.tree.choice? = none) :
    s.step.2 = none ∧ s.tree.Idles s.step.1.tree ∧
      ∀ p ∈ Preference.all, s.tree.InVain p s.tree.openFormulae s.step.1.tree :=
  stepBy_of_choiceBy?_eq_none hl h

theorem step_of_choice?_eq_some {s : Prover} (hl : s.tree.Linked) {p : Preference} {id : NodeId}
    {f : Formula} (h : s.tree.choice? = some (p, id, f)) :
    s.step.2 = some p ∧ s.tree.AdvancesAt id f s.step.1.tree :=
  stepBy_of_choiceBy?_eq_some hl h

theorem applied_step (s : Prover) :
    s.step.1.stats.applied = s.step.2.toList ++ s.stats.applied :=
  s.applied_stepBy Preference.all

end Prover

end TruthTrees
