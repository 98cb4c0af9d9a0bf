import TruthTrees.Proofs.Building

/-!
# The choice of a step

A step grafts what could have been chosen by looking at the tree before it: the expansion for the
first formula whose rule adds nodes, for the strongest preference that any such formula satisfies.
-/

namespace TruthTrees

namespace Tree.AdvancesAt

variable {t v : Tree} {id : NodeId} {f : Formula}

/-- Apart from ticks, the outcome is a graft to the tree that was there at first. -/
theorem exists_graft (h : t.AdvancesAt id f v) (ht : t.Linked) :
    ∃ a, t.ruleFor? id f = some a ∧ (t.graft id a.expansion).1.SameShape v := by
  obtain ⟨u, a, hu, ha, -, rfl⟩ := h
  have hid := ha.lt_nextId (hu.linked ht)
  rw [hu.sameShape.nextId_eq] at hid
  refine ⟨a, ?_, hu.sameShape.carryOut ht hid f a⟩
  rw [← hu.sameShape.ruleFor?_eq, ha.rule]

theorem isTicked (h : t.AdvancesAt id f v) (ht : t.Linked) {x : NodeId} {g : Formula}
    (hg : (t.entry x).isTicked g) : (v.entry x).isTicked g := by
  obtain ⟨u, a, hu, ha, -, rfl⟩ := h
  have hid := ha.lt_nextId (hu.linked ht)
  exact (isTicked_carryOut hid ha.mem).mpr (.inl (hu.isTicked ht hg))

theorem isTicked_cases (h : t.AdvancesAt id f v) (ht : t.Linked) {x : NodeId} {g : Formula}
    (hg : (v.entry x).isTicked g) :
    (t.entry x).isTicked g ∨ (x = id ∧ g = f) ∨ t.RedundantBelow x g := by
  obtain ⟨u, a, hu, ha, -, rfl⟩ := h
  have hid := ha.lt_nextId (hu.linked ht)
  rcases (isTicked_carryOut hid ha.mem).mp hg with hold | ⟨-, happlied⟩
  · exact (hu.isTicked_cases ht hold).imp_right .inr
  · exact .inr (.inl happlied)

end Tree.AdvancesAt

namespace Prover

theorem isSome_step_iff {s : Prover} (hl : s.tree.Linked) :
    s.step.2.isSome ↔ ∃ p ∈ Preference.all, ∃ q ∈ s.tree.openFormulae, s.tree.isProductive p q := by
  rw [← Tree.choice?_isSome_iff]
  cases hchoice : s.tree.choice? with
  | none => rw [(step_of_choice?_eq_none hl hchoice).1]; rfl
  | some choice => rw [(step_of_choice?_eq_some hl hchoice).1]; rfl

theorem count_step (s : Prover) (q : Preference) :
    s.step.1.stats.count q = s.stats.count q + if s.step.2 = some q then 1 else 0 := by
  rw [Stats.count, applied_step]
  cases s.step.2 with
  | none => rfl
  | some p => simp [Stats.count, List.count_cons]

/-- Every step takes the choice that is there in the tree before it. Whenever some formula is
productive for some preference, the step grafts the expansion for the first of these by the
strongest preference, which is counted, and the tree gets larger. Otherwise the step comes to
nothing but ticks. All new ticks are on the chosen formula, or on formulae whose rules are
redundant at all open leaves. -/
theorem step_takes_choice (premises : List Formula) (conclusion : Formula) (n : Nat) :
    let s := after n (start premises conclusion)
    let t := s.tree
    let u := s.step.1.tree
    (s.step.2.isSome ↔ ∃ p ∈ Preference.all, ∃ q ∈ t.openFormulae, t.isProductive p q) ∧
    (∀ x g, (t.entry x).isTicked g → (u.entry x).isTicked g) ∧
    match t.choice? with
    | some (p, id, f) =>
      s.step.2 = some p ∧
      (∃ a, t.ruleFor? id f = some a ∧ (t.graft id a.expansion).1.SameShape u) ∧
      (∀ q, s.step.1.stats.count q = s.stats.count q + if q = p then 1 else 0) ∧
      t.size < u.size ∧
      ∀ x g, (u.entry x).isTicked g →
        (t.entry x).isTicked g ∨ (x = id ∧ g = f) ∨ t.RedundantBelow x g
    | none =>
      s.step.2 = none ∧
      t.SameShape u ∧
      (∀ q, s.step.1.stats.count q = s.stats.count q) ∧
      ∀ x g, (u.entry x).isTicked g → (t.entry x).isTicked g ∨ t.RedundantBelow x g := by
  intro s t u
  have ht : Tree.Reachable premises conclusion t := reachable_after premises conclusion n
  have hl := ht.linked
  refine ⟨isSome_step_iff hl, ?_⟩
  cases hchoice : t.choice? with
  | none =>
    obtain ⟨hstep, hidle, -⟩ := step_of_choice?_eq_none (s := s) hl hchoice
    refine ⟨fun x g => hidle.isTicked hl, hstep, hidle.sameShape, ?_, ?_⟩
    · intro q
      rw [s.count_step, hstep]
      rfl
    · intro x g hg
      exact hidle.isTicked_cases hl hg
  | some choice =>
    obtain ⟨p, id, f⟩ := choice
    obtain ⟨hstep, hadv⟩ := step_of_choice?_eq_some (s := s) hl hchoice
    refine ⟨fun x g => hadv.isTicked hl, hstep, hadv.exists_graft hl, ?_, ?_, ?_⟩
    · intro q
      rw [s.count_step, hstep]
      simp only [Option.some.injEq, eq_comm]
    · exact ht.size_lt_step (by rw [hstep]; rfl)
    · intro x g hg
      exact hadv.isTicked_cases hl hg

def conjunction : Formula :=
  .bin .conj (.atom 'P' []) (.atom 'Q' [])

def disjunction : Formula :=
  .bin .disj (.atom 'R' []) (.atom 'S' [])

/-- The search from `P ∧ Q`, `P`, `Q` and `R ∨ S` to `T`. -/
def offered : Prover :=
  start [conjunction, .atom 'P' [], .atom 'Q' [], disjunction] (.atom 'T' [])

/-- The conjunction is tried first and has nothing to add. The choice is the disjunction. -/
theorem step_takes_disjunction :
    offered.tree.choice? = some (.branching, Tree.root, disjunction) ∧
      offered.step.2 = some .branching ∧ offered.tree.size < offered.step.1.tree.size ∧
      (offered.step.1.tree.entry Tree.root).isTicked conjunction ∧
      ¬(offered.tree.entry Tree.root).isTicked conjunction ∧
      offered.tree.RedundantBelow Tree.root conjunction := by
  have hchoice : offered.tree.choice? = some (.branching, Tree.root, disjunction) := by
    decide +kernel
  have hnew : (offered.step.1.tree.entry Tree.root).isTicked conjunction := by decide +kernel
  have hold : ¬(offered.tree.entry Tree.root).isTicked conjunction := by decide +kernel
  obtain ⟨-, -, h⟩ :=
    step_takes_choice [conjunction, .atom 'P' [], .atom 'Q' [], disjunction] (.atom 'T' []) 0
  rw [show (after 0 (start _ _)).tree.choice? = _ from hchoice] at h
  obtain ⟨hstep, -, -, hsize, hticks⟩ := h
  refine ⟨hchoice, hstep, hsize, hnew, hold, ?_⟩
  rcases hticks Tree.root conjunction hnew with hticked | hchosen | hred
  · exact absurd hticked hold
  · exact absurd hchosen.2 (by decide)
  · exact hred

end Prover

end TruthTrees
