import Mathlib.Data.Multiset.DershowitzManna
import Mathlib.Data.Set.Card
import TruthTrees.Proofs.TermSupply
import TruthTrees.Proofs.Witnesses

/-!
# Termination

The search for a tame argument comes to an end. A formula that asks for witnesses is not universal,
so it is ticked once its rule has been applied, and what it leaves is of lower rank. All other rules
bring no new constants. Between two rules of the first kind there are therefore only finitely many
formulae that a branch can get, and every rule adds one of them to each branch that grows. How many
terms there are in all plays no part in this.
-/

namespace TruthTrees

/-- A finite set gets smaller if some members are replaced by others for which a smaller number
stands. -/
theorem isDershowitzMannaLT_map {ι : Type} [DecidableEq ι] {A B : Finset ι} {k k' : ι → Nat}
    (hkept : ∀ x ∈ B, x ∈ A → k' x = k x)
    (hnew : ∀ x ∈ B, x ∉ A → ∃ y ∈ A, y ∉ B ∧ k' x < k y) (hgone : ∃ y ∈ A, y ∉ B) :
    Multiset.IsDershowitzMannaLT (B.val.map k') (A.val.map k) := by
  have hsplit : ∀ S T : Finset ι, S.val = (S ∩ T).val + (S \ T).val := by
    intro S T
    have hd := Finset.disjoint_sdiff_inter S T
    have h : S = (S ∩ T).disjUnion (S \ T) hd.symm := by
      rw [Finset.disjUnion_eq_union, Finset.union_comm, Finset.sdiff_union_inter]
    exact congrArg Finset.val h
  refine ⟨(A ∩ B).val.map k, (B \ A).val.map k', (A \ B).val.map k, ?_, ?_, ?_, ?_⟩
  · obtain ⟨y, hy, hyB⟩ := hgone
    have hmem := Multiset.mem_map_of_mem k (Finset.mem_sdiff.mpr ⟨hy, hyB⟩ : y ∈ (A \ B).val)
    intro hempty
    rw [hempty] at hmem
    exact Multiset.notMem_zero _ hmem
  · have hsame : (B ∩ A).val.map k' = (A ∩ B).val.map k := by
      rw [Finset.inter_comm]
      refine Multiset.map_congr rfl fun x hx => ?_
      obtain ⟨hxA, hxB⟩ := Finset.mem_inter.mp hx
      exact hkept x hxB hxA
    rw [hsplit B A, Multiset.map_add, hsame]
  · rw [hsplit A B, Multiset.map_add]
  · intro n hn
    obtain ⟨x, hx, rfl⟩ := Multiset.mem_map.mp hn
    obtain ⟨hxB, hxA⟩ := Finset.mem_sdiff.mp hx
    obtain ⟨y, hyA, hyB, hlt⟩ := hnew x hxB hxA
    exact ⟨k y, Multiset.mem_map_of_mem k (Finset.mem_sdiff.mpr ⟨hyA, hyB⟩), hlt⟩

namespace Tree

/-! ### Formulae that ask for witnesses -/

/-- The formulae without a tick that ask for witnesses, with their nodes. -/
def pending (t : Tree) : Finset (NodeId × Formula) :=
  ((List.range t.nextId).flatMap fun id =>
    ((t.entry id).formulae.filter fun f =>
      (t.entry id).isTicked f = false ∧ 0 < f.witnesses true).map fun f => (id, f)).toFinset

theorem mem_pending {t : Tree} {id : NodeId} {f : Formula} :
    (id, f) ∈ t.pending ↔
      f ∈ (t.entry id).formulae ∧ (t.entry id).isTicked f = false ∧ 0 < f.witnesses true := by
  simp only [pending, List.mem_toFinset, List.mem_flatMap, List.mem_range, List.mem_map,
    List.mem_filter, Prod.mk.injEq, decide_eq_true_eq]
  constructor
  · rintro ⟨x, -, g, hg, rfl, rfl⟩
    exact hg
  · intro h
    exact ⟨id, lt_nextId_of_mem h.1, f, h, rfl, rfl⟩

theorem Idles.pending_subset {t u : Tree} (h : t.Idles u) (hl : t.Linked) :
    u.pending ⊆ t.pending := by
  rintro ⟨id, f⟩ hf
  obtain ⟨hmem, hticked, hpos⟩ := mem_pending.mp hf
  rw [h.sameShape.formulae_eq] at hmem
  refine mem_pending.mpr ⟨hmem, ?_, hpos⟩
  by_contra hold
  rw [h.isTicked hl (by simpa using hold)] at hticked
  cases hticked

section CarryOut

variable {t : Tree} {id : NodeId} {f : Formula} {a : Application} {b : Bounds}

theorem mem_pending_carryOut (h : t.Linked) (ha : t.Applicable id f a) {x : NodeId} {g : Formula}
    (hg : (x, g) ∈ (t.carryOut id f a).1.pending) :
    ((x, g) ∈ t.pending ∧ ¬(a.ticks ∧ x = id ∧ g = f)) ∨
      ∃ b ∈ a.expansion.branches, g ∈ b ∧ 0 < g.witnesses true := by
  have hgraft := ha.grafted h
  obtain ⟨hmem, hticked, hpos⟩ := mem_pending.mp hg
  rw [← Bool.not_eq_true, isTicked_carryOut (ha.lt_nextId h) ha.mem, not_or] at hticked
  rcases Nat.lt_or_ge x t.nextId with hlt | hge
  · rw [hgraft.keeps.formulae_eq hlt] at hmem
    exact .inl ⟨mem_pending.mpr ⟨hmem, eq_false_of_ne_true hticked.1, hpos⟩, hticked.2⟩
  · obtain ⟨s, hs, -, hgrown⟩ := hgraft.new hge (lt_nextId_of_mem (mem_pending.mp hg).1)
    rw [hgrown.formulae_eq] at hmem
    exact .inr ⟨s.formulae, (mem_graftShoots hs).2, hmem, hpos⟩

theorem ticks_of_witnesses_pos (hrule : t.ruleFor? id f = some a) (hf : f.isTame true)
    (hpos : 0 < f.witnesses true) : a.ticks := by
  rw [ticks_iff hrule]
  intro hkind
  obtain ⟨q, v, body, rfl⟩ := Formula.eq_quant_of_ruleKind (.inl hkind)
  cases q with
  | existential => cases hkind
  | universal =>
    simp [Formula.witnesses, Quantifier.asksWitness, Formula.witnesses_body_eq_zero hf] at hpos

theorem witnesses_eq_zero_of_rule (hrule : t.ruleFor? id f = some a) (hf : f.isTame true)
    (hquiet : f.witnesses true = 0) :
    ∀ b ∈ a.expansion.branches, ∀ g ∈ b, g.witnesses true = 0 := by
  intro b hb g hg
  have hsum := load_add_sum_le hrule hf b hb
  have hle : g.witnesses true ≤ (b.map (Formula.witnesses true)).sum :=
    List.le_sum_of_mem (List.mem_map_of_mem hg)
  omega

theorem pending_carryOut_subset (h : t.Linked) (ha : t.Applicable id f a) (hf : f.isTame true)
    (hquiet : f.witnesses true = 0) : (t.carryOut id f a).1.pending ⊆ t.pending := by
  rintro ⟨x, g⟩ hg
  rcases mem_pending_carryOut h ha hg with ⟨hold, -⟩ | ⟨b, hb, hgb, hpos⟩
  · exact hold
  · rw [witnesses_eq_zero_of_rule ha.rule hf hquiet b hb g hgb] at hpos
    cases hpos

theorem notMem_pending_carryOut (h : t.Linked) (ha : t.Applicable id f a) (hf : f.isTame true)
    (hpos : 0 < f.witnesses true) : (id, f) ∉ (t.carryOut id f a).1.pending := by
  intro hstill
  rcases mem_pending_carryOut h ha hstill with ⟨-, hnot⟩ | ⟨b, hb, hfb, -⟩
  · exact hnot ⟨ticks_of_witnesses_pos ha.rule hf hpos, rfl, rfl⟩
  · exact Nat.lt_irrefl _ (yields_of_rule ha.rule b hb f hfb).rank_lt

/-! ### Formulae that a branch may get -/

/-- The terms of a tree and those that rules without witnesses may bring in. -/
def vocabulary (t : Tree) (b : Bounds) : Set Term :=
  {c | c ∈ t.terms ++ Term.spares b.length}

/-- The formulae over the vocabulary that are not on the branch. -/
def missing (t : Tree) (b : Bounds) (leaf : NodeId) : Set Formula :=
  {f ∈ Formula.bounded b.size b.predicates (t.vocabulary b) | f ∉ t.branch leaf}

theorem finite_missing (t : Tree) (b : Bounds) (leaf : NodeId) : (t.missing b leaf).Finite :=
  (Formula.finite_bounded _ _ (List.finite_toSet _)).subset (Set.sep_subset _ _)

theorem mem_vocabulary_of_yields {g : Formula} (hmem : f ∈ (t.entry id).formulae)
    (hfits : f.Fits b) (hquiet : f.witnesses true = 0) (h : t.Yields id f g) :
    ∀ c ∈ g.occurrences, c ∈ t.vocabulary b := by
  have hterms : ∀ c ∈ f.occurrences, c ∈ t.vocabulary b := fun c hc =>
    List.mem_append_left _ (occurrences_subset_terms hmem hc)
  have hpart : ∀ {l r : Formula}, g ∈ [l, .neg l, r, .neg r] →
      (∀ c ∈ l.occurrences ++ r.occurrences, c ∈ t.vocabulary b) →
      ∀ c ∈ g.occurrences, c ∈ t.vocabulary b := by
    intro l r hg hlr c hc
    apply hlr c
    simp only [List.mem_cons, List.not_mem_nil, or_false] at hg
    rcases hg with rfl | rfl | rfl | rfl
    · exact List.mem_append_left _ hc
    · exact List.mem_append_left _ hc
    · exact List.mem_append_right _ hc
    · exact List.mem_append_right _ hc
  cases h with
  | negated f => exact hterms
  | part hg => exact hpart hg hterms
  | negatedPart hg => exact hpart hg hterms
  | dual q v f => exact hterms
  | witness v f => simp [Formula.witnesses, Quantifier.asksWitness] at hquiet
  | @inst v f c hc =>
    intro x hx
    rcases Formula.mem_occurrences_substitute (Nat.le_of_succ_le hfits.length_le) hx with
      hx | rfl | hx
    · exact hterms x (List.mem_cons_of_mem v hx)
    · rcases hc with rfl | ⟨leaf, -, hleaf⟩
      · exact List.mem_append_right _ (Term.fresh_mem_spares (Nat.zero_le _))
      · exact List.mem_append_left _ (constantsAt_subset_terms t leaf hleaf)
    · exact List.mem_append_right _ hx

theorem vocabulary_carryOut (h : t.Linked) (ha : t.Applicable id f a) (hfits : f.Fits b)
    (hquiet : f.witnesses true = 0) : (t.carryOut id f a).1.vocabulary b = t.vocabulary b := by
  have hgraft := ha.grafted h
  ext c
  constructor
  · intro hc
    rcases List.mem_append.mp hc with hc | hc
    · obtain ⟨x, g, hg, hcg⟩ := mem_terms.mp hc
      rcases Nat.lt_or_ge x t.nextId with hlt | hge
      · rw [hgraft.keeps.formulae_eq hlt] at hg
        exact List.mem_append_left _ (mem_terms.mpr ⟨x, g, hg, hcg⟩)
      · obtain ⟨s, hs, -, hgrown⟩ := hgraft.new hge (lt_nextId_of_mem hg)
        rw [hgrown.formulae_eq] at hg
        have hyields := yields_of_rule ha.rule s.formulae (mem_graftShoots hs).2 g hg
        exact mem_vocabulary_of_yields ha.mem hfits hquiet hyields c hcg
    · exact List.mem_append_right _ hc
  · intro hc
    rcases List.mem_append.mp hc with hc | hc
    · exact List.mem_append_left _ (hgraft.keeps.terms_subset hc)
    · exact List.mem_append_right _ hc

/-- A leaf that grows gets a formula that it did not have. -/
theorem ncard_missing_lt (h : t.Linked) (ha : t.Applicable id f a) (hfits : f.Fits b)
    (hquiet : f.witnesses true = 0) {s : Shoot} (hs : s ∈ t.graftShoots id a.expansion)
    {x : NodeId} (hx : (t.carryOut id f a).1.IsGrown x s) :
    ((t.carryOut id f a).1.missing b x).ncard < (t.missing b s.leaf).ncard := by
  have hbranch := (ha.grafted h).branch_eq h hs hx
  obtain ⟨hgrows, hb⟩ := mem_graftShoots hs
  obtain ⟨hbelow, hred⟩ := mem_growingLeaves.mp hgrows
  have hpath := ((mem_leavesBelow h (ha.lt_nextId h)).mp hbelow).1
  have hnew : ∃ g ∈ s.formulae, g ∉ t.branch s.leaf := by
    by_contra hall
    rw [← Bool.not_eq_true, isRedundant_iff h (ha.openPath.trans hpath)] at hred
    refine hred ⟨s.formulae, hb, fun g hg => ?_⟩
    by_contra hnot
    exact hall ⟨g, hg, hnot⟩
  have hsub : (t.carryOut id f a).1.missing b x ⊆ t.missing b s.leaf := by
    rintro g ⟨hg, hmissing⟩
    rw [vocabulary_carryOut h ha hfits hquiet] at hg
    rw [hbranch] at hmissing
    exact ⟨hg, fun hold => hmissing (List.mem_append_right _ hold)⟩
  obtain ⟨g, hg, hnot⟩ := hnew
  have hyields := yields_of_rule ha.rule s.formulae hb g hg
  have hgfits := hfits.of_yields hyields
  have hmem : g ∈ t.missing b s.leaf :=
    ⟨⟨hgfits.size_le, hgfits.predicates_subset,
      mem_vocabulary_of_yields ha.mem hfits hquiet hyields⟩, hnot⟩
  refine Set.ncard_lt_ncard ((Set.ssubset_iff_of_subset hsub).mpr ⟨g, hmem, ?_⟩)
    (t.finite_missing b s.leaf)
  rintro ⟨-, hmissing⟩
  rw [hbranch] at hmissing
  exact hmissing (List.mem_append_left _ hg)

/-- How many formulae each open branch may still get. -/
noncomputable def room (t : Tree) (b : Bounds) : Multiset Nat :=
  (t.leavesBelow root).toFinset.val.map fun leaf => (t.missing b leaf).ncard

theorem SameShape.room_eq {u : Tree} (h : t.SameShape u) (b : Bounds) : u.room b = t.room b := by
  have hterms : u.vocabulary b = t.vocabulary b := by
    ext c
    simp only [vocabulary, Set.mem_ofPred_eq, List.mem_append, mem_terms, h.formulae_eq]
  simp only [room, missing, h.leavesBelow_eq, h.branch_eq, hterms]

theorem room_carryOut_lt (h : t.Linked) (ha : t.Applicable id f a) (hfits : f.Fits b)
    (hquiet : f.witnesses true = 0) (hgrew : (t.carryOut id f a).2 = true) :
    Multiset.IsDershowitzMannaLT ((t.carryOut id f a).1.room b) (t.room b) := by
  have hgraft := ha.grafted h
  have hid := ha.lt_nextId h
  have hopen : ∀ {leaf}, leaf ∈ t.growingLeaves id a.expansion →
      leaf ∈ t.leavesBelow root ∧ leaf ∉ (t.carryOut id f a).1.leavesBelow root := by
    intro leaf hleaf
    obtain ⟨hpath, hend⟩ := (mem_leavesBelow h hid).mp (mem_growingLeaves.mp hleaf).1
    refine ⟨(mem_leavesBelow h h.root_lt).mpr ⟨ha.openPath.trans hpath, hend⟩, ?_⟩
    obtain ⟨b, hb⟩ := a.expansion.exists_branch
    obtain ⟨s, hs, rfl, -⟩ := exists_graftShoot hleaf hb
    obtain ⟨x, -, hchild, -⟩ := hgraft.grown s hs
    intro hstill
    have hleaf' := ((mem_leavesBelow hgraft.linked hgraft.linked.root_lt).mp hstill).2
    rw [Entry.isLeaf_iff_child.mp hleaf'] at hchild
    cases hchild
  apply isDershowitzMannaLT_map
  · intro leaf hleaf hold
    have hlt := ((mem_leavesBelow h h.root_lt).mp (List.mem_toFinset.mp hold)).1.lt_nextId h.root_lt
    simp only [missing, vocabulary_carryOut h ha hfits hquiet,
      hgraft.keeps.branch_eq h hgraft.linked hlt]
  · intro x hx hnew
    rw [List.mem_toFinset] at hx hnew
    rcases hgraft.leavesBelow_cases h h.root_lt hx with ⟨hold, -⟩ | ⟨s, hs, hgrown, -, -⟩
    · exact absurd hold hnew
    · obtain ⟨hin, hout⟩ := hopen (mem_graftShoots hs).1
      refine ⟨s.leaf, List.mem_toFinset.mpr hin, fun hmem => hout (List.mem_toFinset.mp hmem), ?_⟩
      exact ncard_missing_lt h ha hfits hquiet hs hgrown
  · rw [(grafted_carryOut h hid f a).2] at hgrew
    obtain ⟨leaf, hleaf⟩ := List.exists_mem_of_ne_nil _ (by simpa using hgrew)
    obtain ⟨hin, hout⟩ := hopen hleaf
    exact ⟨leaf, List.mem_toFinset.mpr hin, fun hmem => hout (List.mem_toFinset.mp hmem)⟩

end CarryOut

/-! ### Steps -/

/-- What a step makes smaller: the ranks of the pending formulae, and if these stay the same, the
room on the branches. -/
noncomputable def measure (t : Tree) (b : Bounds) : Multiset Nat × Multiset Nat :=
  (t.pending.val.map fun q => q.2.rank, t.room b)

/-- A formula that asks for witnesses is done with after its rule, and any other leaves the pending
formulae as they are. -/
theorem Advances.measure_lt {premises : List Formula} {conclusion : Formula} {t v : Tree}
    (h : Reachable premises conclusion t)
    (hroot : ∀ f ∈ premises ++ [.neg conclusion], f.isTame true) (hadv : t.Advances v) :
    Prod.Lex Multiset.IsDershowitzMannaLT Multiset.IsDershowitzMannaLT
      (v.measure (.ofFormulae (premises ++ [.neg conclusion])))
      (t.measure (.ofFormulae (premises ++ [.neg conclusion]))) := by
  obtain ⟨u, id, f, a, hidle, ha, hgrew, rfl⟩ := hadv
  have hu := hidle.reachable h
  have htame := hu.isTame hroot id f ha.mem
  have hfits := hu.fits ha.mem
  have hsub := hidle.pending_subset h.linked
  unfold measure
  rcases Nat.eq_zero_or_pos (f.witnesses true) with hquiet | hpos
  · have hsub' := (pending_carryOut_subset hu.linked ha htame hquiet).trans hsub
    by_cases hsame : (u.carryOut id f a).1.pending = t.pending
    · rw [hsame, ← hidle.sameShape.room_eq]
      exact .right _ (room_carryOut_lt hu.linked ha hfits hquiet hgrew)
    · -- rules that added nothing have ticked pending formulae
      refine .left _ _ (isDershowitzMannaLT_map (fun _ _ _ => rfl) ?_ ?_)
      · intro q hq hnot
        exact absurd (hsub' hq) hnot
      · exact Finset.exists_of_ssubset (hsub'.ssubset_of_ne hsame)
  · have hmem : (id, f) ∈ t.pending := hsub (mem_pending.mpr ⟨ha.mem, ha.unticked, hpos⟩)
    have hgone := notMem_pending_carryOut hu.linked ha htame hpos
    refine .left _ _ (isDershowitzMannaLT_map (fun _ _ _ => rfl) ?_ ⟨_, hmem, hgone⟩)
    rintro ⟨x, g⟩ hg hnot
    rcases mem_pending_carryOut hu.linked ha hg with ⟨hold, -⟩ | ⟨b, hb, hgb, -⟩
    · exact absurd (hsub hold) hnot
    · exact ⟨_, hmem, hgone, (yields_of_rule ha.rule b hb g hgb).rank_lt⟩

end Tree

theorem Prover.exists_step_eq_none {premises : List Formula} {conclusion : Formula} {s : Prover}
    (h : Tree.Reachable premises conclusion s.tree)
    (hroot : ∀ f ∈ premises ++ [.neg conclusion], f.isTame true) :
    ∃ n, (after n s).step.2 = none := by
  have hwf : WellFounded (Prod.Lex (Multiset.IsDershowitzMannaLT (α := Nat))
      (Multiset.IsDershowitzMannaLT (α := Nat))) :=
    WellFounded.prod_lex Multiset.wellFounded_isDershowitzMannaLT
      Multiset.wellFounded_isDershowitzMannaLT
  generalize hm : s.tree.measure (.ofFormulae (premises ++ [.neg conclusion])) = m
  induction m using hwf.induction generalizing s with
  | _ m ih =>
    rcases s.step_cases h.linked with ⟨-, hadv⟩ | ⟨hnone, -, -⟩
    · have hlt := hadv.measure_lt h hroot
      obtain ⟨n, hn⟩ := ih _ (hm ▸ hlt) (reachable_step h) rfl
      rw [after_step] at hn
      exact ⟨n + 1, hn⟩
    · exact ⟨0, hnone⟩

namespace Argument

def isTame (a : Argument) : Bool :=
  a.premises.all (Formula.isTame true) && a.conclusion.isTame false

def witnesses (a : Argument) : Nat :=
  (a.premises.map (Formula.witnesses true)).sum + a.conclusion.witnesses false

/-- The number of quantifiers that ask for none. They are those that would ask for one in the other
position. -/
def universals (a : Argument) : Nat :=
  (a.premises.map (Formula.witnesses false)).sum + a.conclusion.witnesses true

theorem isTame_of_one_kind {a : Argument} (h : a.witnesses = 0 ∨ a.universals = 0) : a.isTame := by
  have hle : ∀ {p q}, q ∈ a.premises →
      q.witnesses p ≤ (a.premises.map (Formula.witnesses p)).sum :=
    fun hq => List.le_sum_of_mem (List.mem_map_of_mem hq)
  rw [isTame, Bool.and_eq_true, List.all_eq_true]
  rcases h with h | h
  · have hsum := Nat.add_eq_zero_iff.mp h
    refine ⟨fun q hq => ?_, Formula.isTame_of_witnesses_eq_zero hsum.2⟩
    exact Formula.isTame_of_witnesses_eq_zero (Nat.le_zero.mp (hsum.1 ▸ hle hq))
  · have hsum := Nat.add_eq_zero_iff.mp h
    refine ⟨fun q hq => ?_, Formula.isTame_of_witnesses_not_eq_zero hsum.2⟩
    exact Formula.isTame_of_witnesses_not_eq_zero (Nat.le_zero.mp (hsum.1 ▸ hle hq))

theorem isTame_rootFormulae {a : Argument} (h : a.isTame) :
    ∀ f ∈ a.premises ++ [.neg a.conclusion], f.isTame true := by
  rw [isTame, Bool.and_eq_true, List.all_eq_true] at h
  intro f hf
  rcases List.mem_append.mp hf with hf | hf
  · exact h.1 f hf
  · rw [List.mem_singleton.mp hf]
    exact h.2

/-- The search for a tame argument comes to a step that finds no rule, so that every run that is
given enough steps has a result. On no branch are there ever more witnesses than quantifiers that
ask for one. -/
theorem search_ends_of_isTame (a : Argument) :
    (a.witnesses = 0 ∨ a.universals = 0 → a.isTame) ∧
    (a.isTame →
      (∃ n, (a.prover.after n).step.2 = none ∧
        ∀ budget, n < budget → (a.prover.run budget).isSome) ∧
      ∀ n, ∀ id < (a.prover.after n).tree.nextId,
        ((a.prover.after n).tree.witnessed id).length ≤ a.witnesses) := by
  refine ⟨isTame_of_one_kind, fun h => ⟨?_, ?_⟩⟩
  · obtain ⟨n, hn⟩ := Prover.exists_step_eq_none (s := a.prover) .start (isTame_rootFormulae h)
    refine ⟨n, hn, fun budget hb => ?_⟩
    rw [Prover.run, Option.isSome_map]
    exact Prover.search_isSome hn hb
  · intro n id hid
    have hreach := Prover.reachable_after a.premises a.conclusion n
    have hbound := hreach.loadAbove_le (isTame_rootFormulae h) id hid
    refine Nat.le_trans (Tree.length_witnessed_le _ id) (Nat.le_trans hbound ?_)
    simp [witnesses, Formula.witnesses]

/-- From `∃x ∀y Rxy` to `∀y ∃x Rxy`. -/
def exchanged : Argument :=
  let x := Term.candidate 23
  let y := Term.candidate 24
  { premises := [.quant .existential x (.quant .universal y (.atom 'R' [x, y]))]
    conclusion := .quant .universal y (.quant .existential x (.atom 'R' [x, y])) }

theorem exchanged_search_ends :
    exchanged.isTame ∧ (∃ n, (exchanged.prover.after n).step.2 = none) ∧
      ∀ n, ∀ id < (exchanged.prover.after n).tree.nextId,
        ((exchanged.prover.after n).tree.witnessed id).length ≤ 2 := by
  have htame : exchanged.isTame := by decide
  obtain ⟨⟨n, hn, -⟩, hbound⟩ := (search_ends_of_isTame exchanged).2 htame
  exact ⟨htame, ⟨n, hn⟩, hbound⟩

end Argument

end TruthTrees
