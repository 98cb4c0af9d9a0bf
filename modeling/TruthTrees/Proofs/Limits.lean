import TruthTrees.Proofs.Building
import TruthTrees.Proofs.Fixpoints

/-!
# Limits

A search makes the same steps under every limit and only stops earlier under a lower one. If it
stops with a verdict, then a step has found no rule, or the tree closes. In the first case the limit
has played no part. In the second a longer search goes through all formulae once more and sets
ticks, but there is no leaf left to which it could add a node.
-/

namespace TruthTrees

namespace Prover

/-- With a limit there is always an answer, since every step brings the tree closer to it. -/
theorem exists_ends_of_limit {premises : List Formula} {conclusion : Formula} {s : Prover}
    (hs : Tree.Reachable premises conclusion s.tree) {limit k : Nat}
    (hk : limit ≤ s.tree.size + k) : ∃ n ≤ k, ∃ r, Ends (some limit) n s r := by
  induction k generalizing s with
  | zero => exact ⟨0, Nat.le_refl _, _, .atLimit (decide_eq_true hk)⟩
  | succ k ih =>
    cases hlimit : s.atLimit (some limit) with
    | true => exact ⟨0, Nat.zero_le _, _, .atLimit hlimit⟩
    | false =>
      cases hstep : s.step.2 with
      | none => exact ⟨0, Nat.zero_le _, _, .finished hlimit hstep⟩
      | some p =>
        have hsome : s.step.2.isSome := by rw [hstep]; rfl
        have hsize := hs.size_lt_step hsome
        obtain ⟨n, hn, r, hends⟩ := ih (reachable_step hs) (by omega)
        exact ⟨n + 1, Nat.succ_le_succ hn, r, .more hlimit hsome hends⟩

theorem atLimit_of_le {s : Prover} {L : Nat} {limit : Option Nat} (hle : ∀ n ∈ limit, L ≤ n)
    (h : s.atLimit limit) : s.atLimit (some L) := by
  cases limit with
  | none => cases h
  | some n => exact decide_eq_true (Nat.le_trans (hle n rfl) (of_decide_eq_true h))

namespace Ends

variable {limit : Option Nat} {n : Nat} {s : Prover} {r : Prover × Bool}

/-- Under a higher limit the search makes the same steps to the same verdict, and only ticks can be
different in the end. -/
theorem raise {premises : List Formula} {conclusion : Formula} {limit' : Option Nat}
    (h : Ends limit n s r) (hs : Tree.Reachable premises conclusion s.tree)
    (hlimit : ∀ s : Prover, s.atLimit limit' → s.atLimit limit)
    (hverdict : r.1.tree.verdict r.2 ≠ .unknown) :
    ∃ r', Ends limit' n s r' ∧ r.1.tree.SameShape r'.1.tree ∧
      r'.1.tree.verdict r'.2 = r.1.tree.verdict r.2 := by
  have hbelow : ∀ {s : Prover}, s.atLimit limit = false → s.atLimit limit' = false := by
    intro s hs
    by_contra h
    rw [hlimit s (by simpa using h)] at hs
    cases hs
  induction h with
  | @atLimit s _ =>
    cases hat : s.atLimit limit' with
    | true => exact ⟨_, .atLimit hat, .refl _, rfl⟩
    | false =>
      have hcloses : s.tree.closes := by
        by_contra hopen
        exact hverdict (Tree.verdict_eq_unknown.mpr ⟨by simpa using hopen, rfl⟩)
      obtain ⟨hstep, hshape⟩ := step_of_closes hs.linked hcloses
      refine ⟨_, .finished hat hstep, hshape, ?_⟩
      rw [Tree.verdict_eq_valid.mpr hcloses, Tree.verdict_eq_valid, hshape.closes_eq]
      exact hcloses
  | finished hat hstep => exact ⟨_, .finished (hbelow hat) hstep, .refl _, rfl⟩
  | more hat hstep _ ih =>
    obtain ⟨r', hends, hsame⟩ := ih (reachable_step hs) hverdict
    exact ⟨r', .more (hbelow hat) hstep hends, hsame⟩

theorem atLimit_of_incomplete (h : Ends limit n s r) (hr : r.2 = false) : r.1.atLimit limit := by
  induction h with
  | atLimit hat => exact hat
  | finished _ _ => cases hr
  | more _ _ _ ih => exact ih hr

theorem atLimit_eq_false_of_lt (h : Ends limit n s r) {m : Nat} (hm : m < n) :
    (after m s).atLimit limit = false := by
  induction h generalizing m with
  | atLimit _ => exact absurd hm (Nat.not_lt_zero m)
  | finished _ _ => exact absurd hm (Nat.not_lt_zero m)
  | more hat _ _ ih =>
    cases m with
    | zero => exact hat
    | succ m =>
      rw [← after_step]
      exact ih (Nat.lt_of_succ_lt_succ hm)

theorem steps_eq (h : Ends limit n s r) : r.1.stats.steps = s.stats.steps + n := by
  induction h with
  | atLimit _ => rfl
  | @finished s _ hstep => rw [Stats.steps, s.applied_step, hstep]; rfl
  | @more n s r _ hstep _ ih =>
    obtain ⟨p, hp⟩ := Option.isSome_iff_exists.mp hstep
    rw [ih, Stats.steps, s.applied_step, hp]
    simp only [Option.toList_some, List.singleton_append, List.length_cons, Stats.steps]
    omega

end Ends

end Prover

theorem Argument.judge_of_ends {a : Argument} {limit : Option Nat} {n budget : Nat}
    {r : Prover × Bool} (h : a.prover.Ends limit n r) (hn : n < budget) :
    a.judge limit budget = some (r.1.tree, .ofSearch r.1 r.2) := by
  rw [judge, Prover.search_eq_some_iff.mpr ⟨n, hn, h⟩]
  rfl

/-- A search with a limit always ends. If there is a verdict, every higher limit and none at all
lead to the same verdict and to a tree of the same drawing and size. If there is none, the tree has
an open leaf and has reached the limit with the last step, or before the first one. -/
theorem Argument.verdict_of_higher_limit (a : Argument) (L : Nat) (limit : Option Nat)
    (hle : ∀ n ∈ limit, L ≤ n) :
    ∃ t r, (∀ budget > L, a.judge (some L) budget = some (t, r)) ∧
      (r.verdict = .valid ∨ r.verdict = .invalid →
        ∃ t' r', (∀ budget > L, a.judge limit budget = some (t', r')) ∧ r'.verdict = r.verdict ∧
          (∀ style, t'.draw style = t.draw style) ∧ t'.size = t.size ∧ r'.size = r.size) ∧
      (r.verdict = .unknown →
        (∃ leaf, leaf ∈ t.leavesBelow Tree.root) ∧ L ≤ t.size ∧
          t = (a.prover.after r.stats.steps).tree ∧
          ∀ n, r.stats.steps = n + 1 → (a.prover.after n).tree.size < L) := by
  obtain ⟨n, hn, r, hends⟩ :=
    Prover.exists_ends_of_limit (s := a.prover) .start (Nat.le_add_left L _)
  refine ⟨r.1.tree, .ofSearch r.1 r.2, ?_, ?_, ?_⟩
  · intro budget hbudget
    exact judge_of_ends hends (Nat.lt_of_le_of_lt hn hbudget)
  · intro hverdict
    have hknown : r.1.tree.verdict r.2 ≠ .unknown := by
      intro hunknown
      change r.1.tree.verdict r.2 = _ ∨ r.1.tree.verdict r.2 = _ at hverdict
      simp [hunknown] at hverdict
    obtain ⟨r', hends', hshape, hsame⟩ :=
      hends.raise .start (fun s => Prover.atLimit_of_le hle) hknown
    refine ⟨r'.1.tree, .ofSearch r'.1 r'.2, ?_, hsame, hshape.draw_eq, hshape.size_eq,
      hshape.size_eq⟩
    intro budget hbudget
    exact judge_of_ends hends' (Nat.lt_of_le_of_lt hn hbudget)
  · intro hverdict
    obtain ⟨hopen, hcomplete⟩ := Tree.verdict_eq_unknown.mp hverdict
    have hsteps : r.1.stats.steps = n := hends.steps_eq.trans (Nat.zero_add n)
    have hlast : r.1 = a.prover.after n := by
      rcases hends.state_cases with ⟨-, hlast⟩ | ⟨htrue, -⟩
      · exact hlast
      · rw [hcomplete] at htrue
        cases htrue
    refine ⟨?_, of_decide_eq_true (hends.atLimit_of_incomplete hcomplete), ?_, ?_⟩
    · exact List.isEmpty_eq_false_iff_exists_mem.mp hopen
    · change r.1.tree = (a.prover.after r.1.stats.steps).tree
      rw [hsteps, hlast]
    · intro m hm
      change r.1.stats.steps = m + 1 at hm
      have hbelow := hends.atLimit_eq_false_of_lt (m := m) (by omega)
      exact Nat.lt_of_not_le (of_decide_eq_false hbelow)

/-- From `P → Q`, `P` and `R ∧ S` to `Q`. -/
def Argument.detachment : Argument :=
  ⟨[.bin .impl (.atom 'P' []) (.atom 'Q' []), .atom 'P' [],
    .bin .conj (.atom 'R' []) (.atom 'S' [])], .atom 'Q' []⟩

/-- From `∀x∃y Rxy` to `P`. The search adds one node with every step and has no end. -/
def Argument.succession : Argument :=
  let x := Term.candidate 23
  let y := Term.candidate 24
  ⟨[.quant .universal x (.quant .existential y (.atom 'R' [x, y]))], .atom 'P' []⟩

/-- The limit keeps the first search from ticking the conjunction, which is not drawn. The second
stops with its third node. -/
theorem Argument.verdict_of_detachment :
    (∃ t r t' r', detachment.judge (some 3) 4 = some (t, r) ∧ r.verdict = .valid ∧
      (∀ budget > 3, detachment.judge none budget = some (t', r')) ∧ r'.verdict = .valid ∧
      t' ≠ t ∧ (∀ style, t'.draw style = t.draw style) ∧ t'.size = t.size) ∧
    ∃ t r, succession.judge (some 3) 4 = some (t, r) ∧ r.verdict = .unknown ∧
      (∃ leaf, leaf ∈ t.leavesBelow Tree.root) ∧ 3 ≤ t.size ∧ r.stats.steps = 2 ∧
      (succession.prover.after 1).tree.size < 3 := by
  constructor
  · obtain ⟨t, r, hjudge, hknown, -⟩ := verdict_of_higher_limit detachment 3 none
      fun n hn => absurd hn (Option.not_mem_none n)
    have hvalid : (detachment.judge (some 3) 4).map (·.2.verdict) = some .valid := by
      decide +kernel
    have hticks : (detachment.judge none 4).map Prod.fst ≠
        (detachment.judge (some 3) 4).map Prod.fst := by decide +kernel
    rw [hjudge 4 (by decide)] at hvalid hticks
    have hr : r.verdict = .valid := Option.some.inj hvalid
    obtain ⟨t', r', hjudge', hsame, hdraw, hsize, -⟩ := hknown (.inl hr)
    rw [hjudge' 4 (by decide)] at hticks
    exact ⟨t, r, t', r', hjudge 4 (by decide), hr, hjudge', hsame.trans hr,
      fun h => hticks (congrArg some h), hdraw, hsize⟩
  · obtain ⟨t, r, hjudge, -, hunknown⟩ := verdict_of_higher_limit succession 3 none
      fun n hn => absurd hn (Option.not_mem_none n)
    have hreport : (succession.judge (some 3) 4).map (fun x => (x.2.verdict, x.2.stats.steps)) =
        some (.unknown, 2) := by decide +kernel
    rw [hjudge 4 (by decide)] at hreport
    obtain ⟨hr, hsteps⟩ := Prod.mk.inj (Option.some.inj hreport)
    obtain ⟨hleaf, hsize, -, hbefore⟩ := hunknown hr
    exact ⟨t, r, hjudge 4 (by decide), hr, hleaf, hsize, hsteps, hbefore 1 hsteps⟩

end TruthTrees
