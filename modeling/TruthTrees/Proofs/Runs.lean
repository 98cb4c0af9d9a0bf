import TruthTrees.Search.Report
import TruthTrees.Proofs.Passes

/-!
# Runs of the prover

A step of the prover is a row of rules that add no nodes, followed by one that does unless the
search is over. What holds of the first tree and is kept by every application of a rule therefore
holds at every moment of a run. A whole search is described by the number of its steps, whatever
budget it was given.
-/

namespace TruthTrees

namespace Prover

/-- A step applies rules in vain and then one that adds nodes. If there is none of the latter, all
formulae of open nodes are spent, except literals. -/
theorem step_cases (s : Prover) (hl : s.tree.Linked) :
    ((∃ p, s.step.2 = some p) ∧ s.tree.Advances s.step.1.tree) ∨
    (s.step.2 = none ∧ s.tree.Idles s.step.1.tree ∧
      ∀ id f, s.step.1.tree.OpenPath Tree.root id → f ∈ (s.step.1.tree.entry id).formulae →
        f.isLiteral = false → s.step.1.tree.Spent id f) := by
  cases hchoice : s.tree.choice? with
  | some choice =>
    obtain ⟨p, id, f⟩ := choice
    obtain ⟨hstep, hadv⟩ := step_of_choice?_eq_some hl hchoice
    exact .inl ⟨⟨p, hstep⟩, hadv.advances⟩
  | none =>
    obtain ⟨hstep, hidle, -⟩ := step_of_choice?_eq_none hl hchoice
    refine .inr ⟨hstep, hidle, ?_⟩
    intro id f hid hf hlit
    have hq : (id, f) ∈ s.tree.openFormulae := by
      rw [← hidle.sameShape.openFormulae_eq]
      exact (Tree.mem_openFormulae (hidle.linked hl)).mpr ⟨hid, hf⟩
    -- the weakest preference takes all that has a rule
    have hvain := Tree.choice?_eq_none_iff.mp hchoice .wildcard (by decide) _ hq
    exact (Tree.spent_of_isProductive_eq_false hlit hvain).idles hidle hl

theorem reachable_step {premises : List Formula} {conclusion : Formula} {s : Prover}
    (h : Tree.Reachable premises conclusion s.tree) :
    Tree.Reachable premises conclusion s.step.1.tree := by
  rcases s.step_cases h.linked with ⟨-, hadv⟩ | ⟨-, hidle, -⟩
  · exact hadv.reachable h
  · exact hidle.reachable h

theorem reachable_after_of {premises : List Formula} {conclusion : Formula} {s : Prover}
    (h : Tree.Reachable premises conclusion s.tree) (n : Nat) :
    Tree.Reachable premises conclusion (after n s).tree := by
  induction n with
  | zero => exact h
  | succ n ih => exact reachable_step ih

theorem reachable_after (premises : List Formula) (conclusion : Formula) (n : Nat) :
    Tree.Reachable premises conclusion (after n (start premises conclusion)).tree :=
  reachable_after_of .start n

/-! ### The search as a whole -/

theorem after_step (n : Nat) (s : Prover) : after n s.step.1 = after (n + 1) s := by
  induction n with
  | zero => rfl
  | succ n ih =>
    simp only [after] at ih ⊢
    rw [ih]

/-- A search makes `n` steps and ends: at the limit, or with one more step that finds no rule. -/
inductive Ends (limit : Option Nat) : Nat → Prover → Prover × Bool → Prop where
  | atLimit {s : Prover} (h : s.atLimit limit = true) : Ends limit 0 s (s, false)
  | finished {s : Prover} (h : s.atLimit limit = false) (hstep : s.step.2 = none) :
      Ends limit 0 s (s.step.1, true)
  | more {n : Nat} {s : Prover} {r : Prover × Bool} (h : s.atLimit limit = false)
      (hstep : s.step.2.isSome) (hrest : Ends limit n s.step.1 r) : Ends limit (n + 1) s r

theorem search_succ (limit : Option Nat) (budget : Nat) (s : Prover) :
    search limit (budget + 1) s =
      if s.atLimit limit then some (s, false)
      else if s.step.2.isSome then search limit budget s.step.1
      else some (s.step.1, true) := by
  rw [search]
  obtain ⟨next, found⟩ := s.step
  cases found <;> rfl

/-- The budget has to be larger than the number of steps, and makes no other difference. -/
theorem search_eq_some_iff {limit : Option Nat} {budget : Nat} {s : Prover} {r : Prover × Bool} :
    search limit budget s = some r ↔ ∃ n < budget, Ends limit n s r := by
  induction budget generalizing s with
  | zero => simp [search]
  | succ budget ih =>
    rw [search_succ]
    constructor
    · intro h
      split_ifs at h with hlimit hstep
      · cases h
        exact ⟨0, Nat.succ_pos _, .atLimit hlimit⟩
      · obtain ⟨n, hn, hends⟩ := ih.mp h
        exact ⟨n + 1, Nat.succ_lt_succ hn, .more (eq_false_of_ne_true hlimit) hstep hends⟩
      · cases h
        exact ⟨0, Nat.succ_pos _, .finished (eq_false_of_ne_true hlimit) (by simpa using hstep)⟩
    · rintro ⟨n, hn, hends⟩
      cases hends with
      | atLimit h => rw [if_pos h]
      | finished h hstep => simp [h, hstep]
      | more h hstep hrest =>
        rw [h, if_neg Bool.false_ne_true, if_pos hstep]
        exact ih.mpr ⟨_, Nat.lt_of_succ_lt_succ hn, hrest⟩

theorem Ends.state_cases {limit : Option Nat} {n : Nat} {s : Prover} {r : Prover × Bool}
    (h : Ends limit n s r) :
    (r.2 = false ∧ r.1 = after n s) ∨ (r.2 = true ∧ (after n s).step = (r.1, none)) := by
  induction h with
  | atLimit _ => exact .inl ⟨rfl, rfl⟩
  | finished _ hstep => exact .inr ⟨rfl, Prod.ext rfl hstep⟩
  | more _ _ _ ih => rwa [after_step] at ih

theorem search_cases {limit : Option Nat} {budget : Nat} {s s' : Prover} {complete : Bool}
    (h : search limit budget s = some (s', complete)) :
    ∃ n, (complete = false ∧ s' = after n s) ∨
      (complete = true ∧ (after n s).step = (s', none)) := by
  obtain ⟨n, -, hends⟩ := search_eq_some_iff.mp h
  exact ⟨n, hends.state_cases⟩

theorem reachable_search {premises : List Formula} {conclusion : Formula} {limit : Option Nat}
    {budget : Nat} {s : Prover} {complete : Bool}
    (h : search limit budget (start premises conclusion) = some (s, complete)) :
    Tree.Reachable premises conclusion s.tree := by
  obtain ⟨n, ⟨-, rfl⟩ | ⟨-, hstep⟩⟩ := search_cases h
  · exact reachable_after premises conclusion n
  · have hs : s = (after n (start premises conclusion)).step.1 := by rw [hstep]
    rw [hs]
    exact reachable_step (reachable_after premises conclusion n)

theorem exists_ends_of_step_eq_none {s : Prover} {n : Nat} (h : (after n s).step.2 = none) :
    ∃ m ≤ n, ∃ r, Ends none m s r := by
  induction n generalizing s with
  | zero => exact ⟨0, Nat.le_refl _, _, .finished rfl h⟩
  | succ n ih =>
    rw [← after_step] at h
    cases hstep : s.step.2 with
    | none => exact ⟨0, Nat.zero_le _, _, .finished rfl hstep⟩
    | some p =>
      obtain ⟨m, hm, r, hends⟩ := ih h
      exact ⟨m + 1, Nat.succ_le_succ hm, r, .more rfl (by rw [hstep]; rfl) hends⟩

theorem search_isSome {s : Prover} {n budget : Nat} (h : (after n s).step.2 = none)
    (hn : n < budget) : (search none budget s).isSome := by
  obtain ⟨m, hm, r, hends⟩ := exists_ends_of_step_eq_none h
  rw [search_eq_some_iff.mpr ⟨m, Nat.lt_of_le_of_lt hm hn, hends⟩]
  rfl

end Prover

theorem Argument.judge_cases {a : Argument} {limit : Option Nat} {budget : Nat} {t : Tree}
    {r : Report} (h : a.judge limit budget = some (t, r)) :
    ∃ s complete, a.prover.search limit budget = some (s, complete) ∧ t = s.tree ∧
      r.verdict = t.verdict complete := by
  obtain ⟨⟨s, complete⟩, hsearch, hr⟩ := Option.map_eq_some_iff.mp h
  cases hr
  exact ⟨s, complete, hsearch, rfl, rfl⟩

theorem Tree.verdict_eq_valid {t : Tree} {complete : Bool} :
    t.verdict complete = .valid ↔ t.closes := by
  unfold verdict
  split_ifs <;> simp_all

theorem Tree.verdict_eq_invalid {t : Tree} {complete : Bool} :
    t.verdict complete = .invalid ↔ t.closes = false ∧ complete = true := by
  unfold verdict
  split_ifs <;> simp_all

theorem Tree.verdict_eq_unknown {t : Tree} {complete : Bool} :
    t.verdict complete = .unknown ↔ t.closes = false ∧ complete = false := by
  unfold verdict
  split_ifs <;> simp_all

end TruthTrees
