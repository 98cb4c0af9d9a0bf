import TruthTrees.Proofs.Runs
import TruthTrees.Proofs.Substitution

/-!
# The supply of terms

There are only finitely many terms. As long as the terms of a tree leave some of them unused, the
constant of an existential formula is new on all branches that get it, and no new variable of a
substitution is in the way of another term.
-/

namespace TruthTrees

namespace Tree

def terms (t : Tree) : List Term :=
  t.entries.toList.flatMap fun e => e.formulae.flatMap Formula.occurrences

/-- The tree has fewer different terms than there are to choose fresh ones from. -/
def WithinSupply (t : Tree) : Prop :=
  (distinct t.terms).length < Term.supply

instance (t : Tree) : Decidable t.WithinSupply :=
  inferInstanceAs (Decidable ((distinct t.terms).length < Term.supply))

theorem mem_terms {t : Tree} {c : Term} :
    c ∈ t.terms ↔ ∃ id, ∃ f ∈ (t.entry id).formulae, c ∈ f.occurrences := by
  simp only [terms, List.mem_flatMap, Array.mem_toList_iff]
  constructor
  · rintro ⟨e, he, f, hf, hc⟩
    obtain ⟨id, hid, rfl⟩ := Array.getElem_of_mem he
    refine ⟨id, f, ?_, hc⟩
    rw [entry, Array.getD_eq_getD_getElem?, Array.getElem?_eq_getElem hid]
    exact hf
  · rintro ⟨id, f, hf, hc⟩
    have hid : id < t.entries.size := lt_nextId_of_mem hf
    rw [entry, Array.getD_eq_getD_getElem?, Array.getElem?_eq_getElem hid] at hf
    exact ⟨t.entries[id], Array.getElem_mem hid, f, hf, hc⟩

theorem occurrences_subset_terms {t : Tree} {id : NodeId} {f : Formula}
    (hf : f ∈ (t.entry id).formulae) : f.occurrences ⊆ t.terms := by
  intro c hc
  exact mem_terms.mpr ⟨id, f, hf, hc⟩

theorem Keeps.terms_subset {t u : Tree} (h : t.Keeps u) : t.terms ⊆ u.terms := by
  intro c hc
  obtain ⟨id, f, hf, hcf⟩ := mem_terms.mp hc
  refine mem_terms.mpr ⟨id, f, ?_, hcf⟩
  rw [h.formulae_eq (lt_nextId_of_mem hf)]
  exact hf

theorem Keeps.withinSupply {t u : Tree} (h : t.Keeps u) (hu : u.WithinSupply) :
    t.WithinSupply :=
  Nat.lt_of_le_of_lt (length_distinct_le_of_subset h.terms_subset) hu

theorem constantsAt_subset_terms (t : Tree) (id : NodeId) : t.constantsAt id ⊆ t.terms := by
  intro c hc
  obtain ⟨a, -, f, hf, hcf⟩ := mem_constantsAt_iff_openAncestors.mp hc
  exact occurrences_subset_terms hf (Formula.mem_occurrences_of_free hcf)

theorem mem_visible {t : Tree} {id : NodeId} {c : Term} :
    c ∈ t.visible id ↔
      c ∈ t.constantsAt id ∨ ∃ leaf ∈ t.leavesBelow id, c ∈ t.constantsAt leaf := by
  simp [visible]

theorem visible_subset_terms (t : Tree) (id : NodeId) : t.visible id ⊆ t.terms := by
  intro c hc
  rcases mem_visible.mp hc with hc | ⟨leaf, -, hc⟩
  · exact constantsAt_subset_terms t id hc
  · exact constantsAt_subset_terms t leaf hc

namespace WithinSupply

variable {t : Tree}

theorem fresh_notMem (h : t.WithinSupply) (id : NodeId) :
    Term.fresh (t.visible id) ∉ t.visible id := by
  apply Term.fresh_notMem
  have hle := length_distinct_le_of_subset (visible_subset_terms t id)
  exact Nat.lt_trans (Nat.lt_of_le_of_lt hle h) Term.supply_lt_total

/-- Every constant can be put in place of the variable of a quantified formula, even one that is
not in the tree. -/
theorem roomy (h : t.WithinSupply) {id : NodeId} {q : Quantifier} {v : Term} {body : Formula}
    (hf : .quant q v body ∈ (t.entry id).formulae) (c : Term) : body.Roomy v c := by
  have hsub : body.occurrences ++ [v, c] ⊆ c :: t.terms := by
    intro x hx
    have hquant := occurrences_subset_terms hf
    simp only [List.mem_append, List.mem_cons, List.not_mem_nil, or_false] at hx
    rcases hx with hx | rfl | rfl
    · exact List.mem_cons_of_mem _ (hquant (List.mem_cons_of_mem v hx))
    · exact List.mem_cons_of_mem _ (hquant List.mem_cons_self)
    · exact List.mem_cons_self
  have hle := length_distinct_le_of_subset hsub
  have hcons := length_distinct_cons_le c t.terms
  unfold WithinSupply Term.supply at h
  unfold Formula.Roomy Term.total
  omega

end WithinSupply

end Tree

end TruthTrees
