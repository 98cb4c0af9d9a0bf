import TruthTrees.Argument.Validity
import TruthTrees.Proofs.Closure
import TruthTrees.Proofs.Decomposition
import TruthTrees.Proofs.TermSupply

/-!
# Open branches are countermodels

When no rule adds anything, the formulae of an open branch contain no contradiction and are closed
under the rules. The constants of the branch then form a domain in which all its formulae are true
if the atoms on the branch are taken for the true ones.
-/

namespace TruthTrees

/-! ### Saturated sets of formulae -/

/-- The formulae contain no contradiction and with every formula a branch of its expansion. For a
universal formula these are the instances for all constants, and at least one. -/
structure Saturated (fs : List Formula) : Prop where
  consistent : ∀ f ∈ fs, ∀ g ∈ fs, f.contradicts g = false
  sentential : ∀ f ∈ fs, f.isLiteral = false → (∀ q v body, f ≠ .quant q v body) →
    ∃ t id a, Tree.ruleFor? t id f = some a ∧ ∃ b ∈ a.expansion.branches, ∀ g ∈ b, g ∈ fs
  existential : ∀ v body, .quant .existential v body ∈ fs → ∃ c, body.substitute v c ∈ fs
  universal : ∀ v body, .quant .universal v body ∈ fs →
    (∃ c, body.substitute v c ∈ fs) ∧
      ∀ f ∈ fs, ∀ c ∈ f.freeOccurrences, body.substitute v c ∈ fs

/-- The constants of the formulae, or some term if there are none. -/
def domain (fs : List Formula) : List Term :=
  match fs.flatMap Formula.freeOccurrences with
  | [] => [Term.fresh []]
  | cs => cs

theorem domain_ne_nil (fs : List Formula) : domain fs ≠ [] := by
  unfold domain
  split
  · exact List.cons_ne_nil _ _
  · assumption

theorem mem_domain_of_free {fs : List Formula} {f : Formula} (hf : f ∈ fs) {c : Term}
    (hc : c ∈ f.freeOccurrences) : c ∈ domain fs := by
  have hmem : c ∈ fs.flatMap Formula.freeOccurrences := List.mem_flatMap.mpr ⟨f, hf, hc⟩
  unfold domain
  split
  · next hnil =>
    rw [hnil] at hmem
    cases hmem
  · exact hmem

theorem mem_domain_cases {fs : List Formula} {c : Term} (hc : c ∈ domain fs) :
    (∃ f ∈ fs, c ∈ f.freeOccurrences) ∨ ∀ d ∈ domain fs, d = c := by
  unfold domain at hc ⊢
  split at hc
  · next hnil =>
    refine .inr fun d hd => ?_
    rw [List.mem_singleton.mp hc]
    simpa [hnil] using hd
  · exact .inl (List.mem_flatMap.mp hc)

/-- Every constant stands for itself, and the true atoms are those among the formulae. -/
def Interpretation.ofFormulae (fs : List Formula) : Interpretation {c // c ∈ domain fs} where
  value c :=
    if h : c ∈ domain fs then ⟨c, h⟩
    else ⟨(domain fs).head (domain_ne_nil fs), List.head_mem _⟩
  relation p cs := .atom p (cs.map Subtype.val) ∈ fs

theorem Interpretation.value_ofFormulae {fs : List Formula} {c : Term} (hc : c ∈ domain fs) :
    (ofFormulae fs).value c = ⟨c, hc⟩ := by
  simp [ofFormulae, hc]

namespace Saturated

variable {fs : List Formula}

theorem holds_atom_iff {p : Char} {ts : List Term} (hts : ∀ c ∈ ts, c ∈ domain fs) :
    (Formula.atom p ts).Holds (Interpretation.ofFormulae fs) ↔ .atom p ts ∈ fs := by
  have hvalues : (ts.map (Interpretation.ofFormulae fs).value).map Subtype.val = ts := by
    rw [List.map_map]
    conv_rhs => rw [← List.map_id ts]
    apply List.map_congr_left
    intro c hc
    rw [Function.comp_apply, Interpretation.value_ofFormulae (hts c hc)]
    rfl
  have hholds : (Formula.atom p ts).Holds (Interpretation.ofFormulae fs) ↔
      .atom p ((ts.map (Interpretation.ofFormulae fs).value).map Subtype.val) ∈ fs := Iff.rfl
  rw [hholds, hvalues]

theorem holds (h : Saturated fs)
    (hroom : ∀ q v body, .quant q v body ∈ fs → ∀ c, body.Roomy v c) {f : Formula}
    (hf : f ∈ fs) : f.Holds (Interpretation.ofFormulae fs) := by
  generalize hn : f.rank = n
  induction n using Nat.strongRecOn generalizing f with
  | ind n ih =>
    have hsentential : f.isLiteral = false → (∀ q v body, f ≠ .quant q v body) →
        f.Holds (Interpretation.ofFormulae fs) := by
      intro hlit hquant
      obtain ⟨t, id, a, ha, b, hb, hbfs⟩ := h.sentential f hf hlit hquant
      refine (Tree.holds_ruleFor?_iff ha hquant).mp ⟨b, hb, fun g hg => ?_⟩
      exact ih g.rank (hn ▸ (Tree.yields_of_rule ha b hb g hg).rank_lt) (hbfs g hg) rfl
    have hinstance : ∀ {q v body c}, f = .quant q v body → body.substitute v c ∈ fs →
        body.Holds ((Interpretation.ofFormulae fs).assign v
          ((Interpretation.ofFormulae fs).value c)) := by
      rintro q v body c rfl hc
      refine (Formula.holds_substitute (hroom q v body hf c) _).mp ?_
      exact ih _ (hn ▸ Formula.rank_substitute_lt q v body c) hc rfl
    cases f with
    | atom p ts => exact (holds_atom_iff fun c hc => mem_domain_of_free hf hc).mpr hf
    | neg g =>
      cases g with
      | atom p ts =>
        intro hatom
        have hmem : .atom p ts ∈ fs :=
          (holds_atom_iff fun c hc => mem_domain_of_free hf hc).mp hatom
        have hcons := h.consistent _ hf _ hmem
        simp [Formula.contradicts, Formula.isLiteral] at hcons
      | _ => exact hsentential rfl (by simp)
    | bin c l r => exact hsentential rfl (by simp)
    | quant q v body =>
      cases q with
      | existential =>
        obtain ⟨c, hc⟩ := h.existential v body hf
        exact ⟨_, hinstance rfl hc⟩
      | universal =>
        obtain ⟨⟨c, hc⟩, hall⟩ := h.universal v body hf
        rintro ⟨d, hd⟩
        rcases mem_domain_cases hd with ⟨g, hg, hdg⟩ | honly
        · have hd' := hinstance rfl (hall g hg d hdg)
          rwa [Interpretation.value_ofFormulae hd] at hd'
        · -- the one instance is about the one member
          have hvalue : (Interpretation.ofFormulae fs).value c = ⟨d, hd⟩ :=
            Subtype.ext (honly _ (Subtype.property _))
          exact hvalue ▸ hinstance rfl hc

end Saturated

/-! ### Trees to which no rule adds anything -/

namespace Tree

section Fixpoint

variable {premises : List Formula} {conclusion : Formula} {t : Tree}

/-- A spent formula without a tick has a branch of its expansion above every open leaf. -/
theorem Spent.cases {id leaf : NodeId} {f : Formula} (hs : t.Spent id f) (hl : t.Linked)
    (hid : t.OpenPath root id) (hleaf : leaf ∈ t.leavesBelow id) :
    (t.entry id).isTicked f ∨ ∃ a, t.ruleFor? id f = some a ∧
      ∃ b ∈ a.expansion.branches, ∀ g ∈ b, g ∈ t.branch leaf := by
  refine hs.imp_right ?_
  rintro ⟨a, ha, hnone⟩
  refine ⟨a, ha, ?_⟩
  have hpath := ((mem_leavesBelow hl (hid.lt_nextId hl.root_lt)).mp hleaf).1
  rw [← isRedundant_iff hl (hid.trans hpath)]
  by_contra hred
  have hgrows := mem_growingLeaves.mpr ⟨hleaf, eq_false_of_ne_true hred⟩
  rw [hnone] at hgrows
  cases hgrows

theorem Spent.decomposedAt {id leaf : NodeId} {f : Formula} (hs : t.Spent id f) (hl : t.Linked)
    (hd : t.Decomposed) (hid : t.OpenPath root id) (hleaf : leaf ∈ t.leavesBelow id)
    (hkind : f.ruleKind ≠ .universal) : t.DecomposedAt id leaf f := by
  rcases hs.cases hl hid hleaf with hticked | ⟨a, ha, b, hb, hbranch⟩
  · exact (hd id f hticked).2.2.2 leaf hleaf
  · exact decomposedAt_of_rule ha ((ticks_iff ha).mpr hkind) hb hbranch

theorem saturated_branch (h : Reachable premises conclusion t)
    (hspent : ∀ id f, t.OpenPath root id → f ∈ (t.entry id).formulae → f.isLiteral = false →
      t.Spent id f) {leaf : NodeId} (hleaf : leaf ∈ t.leavesBelow root) :
    Saturated (t.branch leaf) := by
  have hl := h.linked
  have hd := h.decomposed
  obtain ⟨hpath, hend⟩ := (mem_leavesBelow hl hl.root_lt).mp hleaf
  have hplace : ∀ {f}, f ∈ t.branch leaf → f.isLiteral = false →
      ∃ id, t.OpenPath root id ∧ leaf ∈ t.leavesBelow id ∧ t.Spent id f := by
    intro f hf hlit
    obtain ⟨id, hid, hfid⟩ := mem_branch.mp hf
    obtain ⟨habove, hbelow⟩ := hpath.split hl hid
    have hlt := habove.lt_nextId hl.root_lt
    exact ⟨id, habove, (mem_leavesBelow hl hlt).mpr ⟨hbelow, hend⟩, hspent id f habove hfid hlit⟩
  constructor
  · intro f hf g hg
    exact h.closesContradictions.contradicts_eq_false hl hpath hf hg
  · intro f hf hlit hquant
    obtain ⟨id, hid, hbelow, hs⟩ := hplace hf hlit
    have hkind : f.ruleKind ≠ .universal := by
      intro hkind
      obtain ⟨q, v, body, rfl⟩ := Formula.eq_quant_of_ruleKind (.inl hkind)
      exact hquant q v body rfl
    have hdec := hs.decomposedAt hl hd hid hbelow hkind
    unfold DecomposedAt at hdec
    split at hdec
    · exact absurd rfl (hquant _ _ _)
    · obtain ⟨a, ha, hb⟩ := hdec
      exact ⟨t, id, a, ha, hb⟩
  · intro v body hf
    obtain ⟨id, hid, hbelow, hs⟩ := hplace hf rfl
    exact hs.decomposedAt hl hd hid hbelow RuleKind.noConfusion
  · intro v body hf
    obtain ⟨id, hid, hbelow, hs⟩ := hplace hf rfl
    have hall : ∀ g ∈ t.instances id v body, g ∈ t.branch leaf := by
      rcases hs.cases hl hid hbelow with hticked | ⟨a, ha, b, hb, hbranch⟩
      · exact absurd rfl (hd id _ hticked).2.2.1
      · cases ha
        obtain rfl := List.mem_singleton.mp hb
        exact hbranch
    constructor
    · obtain ⟨c, hc⟩ := exists_mem_instances t id v body
      exact ⟨c, hall _ hc⟩
    · intro f hf c hc
      have hconst := (mem_constantsAt hl hpath).mpr ⟨f, hf, hc⟩
      exact hall _ (substitute_mem_instances hbelow hconst v body)

theorem isCountermodel_of_saturated (h : Reachable premises conclusion t) (hw : t.WithinSupply)
    {leaf : NodeId} (hleaf : leaf ∈ t.leavesBelow root) (hsat : Saturated (t.branch leaf)) :
    Argument.IsCountermodel ⟨premises, conclusion⟩ (.ofFormulae (t.branch leaf)) := by
  have hl := h.linked
  have hpath := ((mem_leavesBelow hl hl.root_lt).mp hleaf).1
  have hholds : ∀ f ∈ premises ++ [.neg conclusion],
      f.Holds (Interpretation.ofFormulae (t.branch leaf)) := by
    intro f hf
    refine hsat.holds ?_ (mem_branch.mpr ⟨root, hpath.mem_ancestors hl, ?_⟩)
    · intro q v body hq c
      obtain ⟨id, -, hid⟩ := mem_branch.mp hq
      exact hw.roomy hid c
    · rw [h.formulae_root]
      exact hf
  constructor
  · intro p hp
    exact hholds p (List.mem_append_left _ hp)
  · exact hholds (.neg conclusion) (List.mem_append_right _ (List.mem_singleton_self _))

end Fixpoint

end Tree

namespace Argument

theorem exists_countermodel {a : Argument} {s : Prover}
    (h : Tree.Reachable a.premises a.conclusion s.tree) (hnone : s.step.2 = none)
    (hopen : s.step.1.tree.closes = false) (hw : s.step.1.tree.WithinSupply) :
    ∃ (D : Type) (I : Interpretation D), a.IsCountermodel I := by
  have hreach := Prover.reachable_step h
  rcases s.step_cases h.linked with ⟨⟨p, hsome⟩, -⟩ | ⟨-, -, hspent⟩
  · rw [hnone] at hsome
    cases hsome
  · rw [Tree.closes, Tree.closesBelow, List.isEmpty_eq_false_iff_exists_mem] at hopen
    obtain ⟨leaf, hleaf⟩ := hopen
    have hsat := Tree.saturated_branch hreach hspent hleaf
    exact ⟨_, _, Tree.isCountermodel_of_saturated hreach hw hleaf hsat⟩

/-- If a step finds no rule that adds anything and the tree does not close, there is an
interpretation that makes the premises true and the conclusion false. So no report calls a valid
argument invalid. -/
theorem exists_countermodel_of_fixpoint (a : Argument) :
    (∀ n, (a.prover.after n).step.2 = none → (a.prover.after n).step.1.tree.closes = false →
      (a.prover.after n).step.1.tree.WithinSupply →
      ∃ (D : Type) (I : Interpretation D), a.IsCountermodel I) ∧
    (∀ limit budget t r, a.judge limit budget = some (t, r) → r.verdict = .invalid →
      t.WithinSupply →
      (∃ (D : Type) (I : Interpretation D), a.IsCountermodel I) ∧ ¬Valid.{0} a) := by
  have hreach := Prover.reachable_after a.premises a.conclusion
  constructor
  · intro n hnone hopen hw
    exact exists_countermodel (hreach n) hnone hopen hw
  · intro limit budget t r hjudge hverdict hw
    obtain ⟨s, complete, hsearch, rfl, hr⟩ := judge_cases hjudge
    rw [hr, Tree.verdict_eq_invalid] at hverdict
    obtain ⟨hopen, rfl⟩ := hverdict
    obtain ⟨n, ⟨hfalse, -⟩ | ⟨-, hstep⟩⟩ := Prover.search_cases hsearch
    · cases hfalse
    have hs : s = (a.prover.after n).step.1 := by rw [hstep]
    have hnone : (a.prover.after n).step.2 = none := by rw [hstep]
    obtain ⟨D, I, hI⟩ := exists_countermodel (hreach n) hnone (hs ▸ hopen) (hs ▸ hw)
    exact ⟨⟨D, I, hI⟩, fun hvalid => (valid_iff_no_countermodel a).mp hvalid D I hI⟩

/-- From `∀x (Fx ∨ Gx)` to `∀x Fx`. -/
def halved : Argument :=
  let x := Term.candidate 23
  { premises := [.quant .universal x (.bin .disj (.atom 'F' [x]) (.atom 'G' [x]))]
    conclusion := .quant .universal x (.atom 'F' [x]) }

/-- After four steps the branch with the second disjunct is open, and no rule adds to it. -/
theorem halved_not_valid :
    ((halved.prover.after 4).step.2 = none ∧ (halved.prover.after 4).step.1.tree.closes = false ∧
      (halved.prover.after 4).step.1.tree.WithinSupply ∧
      ∃ (D : Type) (I : Interpretation D), halved.IsCountermodel I) ∧
    ∃ t r, halved.judge none 5 = some (t, r) ∧ r.verdict = .invalid ∧ t.WithinSupply ∧
      ¬Valid.{0} halved := by
  have hfix : (halved.prover.after 4).step.2 = none ∧
      (halved.prover.after 4).step.1.tree.closes = false ∧
      (halved.prover.after 4).step.1.tree.WithinSupply := by decide +kernel
  have hjudge : ∃ t r, halved.judge none 5 = some (t, r) ∧ r.verdict = .invalid ∧
      t.WithinSupply := ⟨_, _, rfl, by decide +kernel⟩
  have h := exists_countermodel_of_fixpoint halved
  obtain ⟨hnone, hopen, hw⟩ := hfix
  obtain ⟨t, r, hsome, hinvalid, hw'⟩ := hjudge
  refine ⟨⟨hnone, hopen, hw, h.1 4 hnone hopen hw⟩, t, r, hsome, hinvalid, hw', ?_⟩
  exact (h.2 none 5 t r hsome hinvalid hw').2

end Argument

end TruthTrees
