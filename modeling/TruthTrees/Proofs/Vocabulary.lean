import Mathlib.Algebra.GroupWithZero.Nat
import Mathlib.Algebra.Order.BigOperators.Group.List
import Mathlib.Algebra.Order.Group.Nat
import Mathlib.Data.Set.Finite.Lattice
import Mathlib.Data.Set.Finite.List
import TruthTrees.Proofs.Applications
import TruthTrees.Proofs.Rules
import TruthTrees.Proofs.FreshTerms

/-!
# Finitely many formulae

Substitution changes nothing but the terms of a formula, and the terms that it brings in are the
one that it substitutes and a few names for variables. Over finitely many terms there are only
finitely many formulae with a bound on their size and on their predicates.
-/

namespace TruthTrees

/-- The terms that can serve as new variables of formulae with at most `n` occurrences of terms. -/
def Term.spares (n : Nat) : List Term :=
  last :: (List.range (n + 3)).map candidate

theorem Term.fresh_mem_spares {visible : List Term} {n : Nat} (h : visible.length ≤ n + 2) :
    fresh visible ∈ spares n := by
  have hmem := fresh_mem visible
  simp only [spares, List.mem_cons, List.mem_map, List.mem_range] at hmem ⊢
  rcases hmem with hlast | ⟨k, hk, hfresh⟩
  · exact .inl hlast
  · exact .inr ⟨k, by omega, hfresh⟩

namespace Formula

/-! ### What substitution keeps -/

/-- The formula with all its terms made the same. -/
def shape : Formula → Formula
  | atom p ts => atom p (.replicate ts.length (Term.candidate 0))
  | neg f => neg f.shape
  | bin c l r => bin c l.shape r.shape
  | quant q _ f => quant q (Term.candidate 0) f.shape

theorem shape_rename (x c : Term) (f : Formula) : (f.rename x c).shape = f.shape := by
  induction f with
  | atom p ts => simp [rename, replaceTerm, shape]
  | neg f ih => simp only [rename, shape, ih]
  | bin b l r ihl ihr => simp only [rename, shape, ihl, ihr]
  | quant q v f ih =>
    unfold rename
    split <;> simp only [shape, ih]

theorem shape_substituteUnder (x c newName : Term) (f : Formula) :
    (f.substituteUnder x c newName).shape = f.shape := by
  induction f generalizing newName with
  | atom p ts => simp [substituteUnder, replaceTerm, shape]
  | neg f ih => simp only [substituteUnder, shape, ih]
  | bin b l r ihl ihr => simp only [substituteUnder, shape, ihl, ihr]
  | quant q v f ih =>
    unfold substituteUnder
    split
    · simp only [shape, shape_rename]
    · split
      · split <;> simp only [shape, ih]
      · simp only [shape, ih]

@[simp] theorem shape_substitute (f : Formula) (x c : Term) : (f.substitute x c).shape = f.shape :=
  shape_substituteUnder x c c f

def predicates : Formula → List (Char × Nat)
  | atom p ts => [(p, ts.length)]
  | neg f => f.predicates
  | bin _ l r => l.predicates ++ r.predicates
  | quant _ _ f => f.predicates

theorem predicates_shape (f : Formula) : f.shape.predicates = f.predicates := by
  induction f with
  | atom p ts => simp [shape, predicates]
  | neg f ih => exact ih
  | bin c l r ihl ihr => simp only [shape, predicates, ihl, ihr]
  | quant q v f ih => exact ih

@[simp] theorem predicates_substitute (f : Formula) (x c : Term) :
    (f.substitute x c).predicates = f.predicates := by
  rw [← predicates_shape, shape_substitute, predicates_shape]

theorem length_occurrences_shape (f : Formula) :
    f.shape.occurrences.length = f.occurrences.length := by
  induction f with
  | atom p ts => simp [shape, occurrences]
  | neg f ih => exact ih
  | bin c l r ihl ihr => simp only [shape, occurrences, List.length_append, ihl, ihr]
  | quant q v f ih => simp only [shape, occurrences, List.length_cons, ih]

@[simp] theorem length_occurrences_substitute (f : Formula) (x c : Term) :
    (f.substitute x c).occurrences.length = f.occurrences.length := by
  rw [← length_occurrences_shape, shape_substitute, length_occurrences_shape]

/-! ### The terms that substitution brings in -/

theorem mem_occurrences_rename {x c t : Term} {f : Formula}
    (h : t ∈ (f.rename x c).occurrences) : t ∈ f.occurrences ∨ t = c := by
  induction f with
  | atom p ts =>
    obtain ⟨s, hs, rfl⟩ := List.mem_map.mp h
    split
    · exact .inr rfl
    · exact .inl hs
  | neg f ih => exact ih h
  | bin b l r ihl ihr =>
    simp only [rename, occurrences, List.mem_append] at h ⊢
    rcases h with h | h
    · exact (ihl h).imp_left .inl
    · exact (ihr h).imp_left .inr
  | quant q v f ih =>
    unfold rename at h
    split at h
    · exact .inl h
    · simp only [occurrences, List.mem_cons] at h ⊢
      rcases h with h | h
      · exact .inl (.inl h)
      · exact (ih h).imp_left .inr

theorem mem_occurrences_substituteUnder {x c newName t : Term} {f : Formula} {n : Nat}
    (hn : f.occurrences.length ≤ n) (h : t ∈ (f.substituteUnder x c newName).occurrences) :
    t ∈ f.occurrences ∨ t = c ∨ t = newName ∨ t ∈ Term.spares n := by
  induction f generalizing newName with
  | atom p ts =>
    simp only [substituteUnder, occurrences, replaceTerm, List.map_map, List.mem_map,
      Function.comp_apply] at h ⊢
    obtain ⟨s, hs, rfl⟩ := h
    split_ifs <;> simp [hs]
  | neg f ih => exact ih hn h
  | bin b l r ihl ihr =>
    simp only [occurrences, List.length_append] at hn
    simp only [substituteUnder, occurrences, List.mem_append] at h ⊢
    rcases h with h | h
    · exact (ihl (by omega) h).imp_left .inl
    · exact (ihr (by omega) h).imp_left .inr
  | quant q v f ih =>
    simp only [occurrences, List.length_cons] at hn
    have hf : f.occurrences.length ≤ n := by omega
    unfold substituteUnder at h
    simp only [occurrences, List.mem_cons]
    split at h
    · simp only [occurrences, List.mem_cons] at h
      rcases h with h | h
      · exact .inl (.inl h)
      · rcases mem_occurrences_rename h with h | h
        · exact .inl (.inr h)
        · exact .inr (.inr (.inl h))
    · split at h
      · split at h
        · have hnew : newVariable x c f ∈ Term.spares n :=
            Term.fresh_mem_spares (by simpa using hf)
          simp only [occurrences, List.mem_cons] at h
          rcases h with rfl | h
          · exact .inr (.inr (.inr hnew))
          · rcases ih hf h with h | h | rfl | h
            · exact .inl (.inr h)
            · exact .inr (.inl h)
            · exact .inr (.inr (.inr hnew))
            · exact .inr (.inr (.inr h))
        · exact .inl (List.mem_cons.mp h)
      · simp only [occurrences, List.mem_cons] at h
        rcases h with h | h
        · exact .inl (.inl h)
        · exact (ih hf h).imp_left .inr

theorem mem_occurrences_substitute {x c t : Term} {f : Formula} {n : Nat}
    (hn : f.occurrences.length ≤ n) (h : t ∈ (f.substitute x c).occurrences) :
    t ∈ f.occurrences ∨ t = c ∨ t ∈ Term.spares n := by
  rcases mem_occurrences_substituteUnder hn h with h | h | h | h
  · exact .inl h
  · exact .inr (.inl h)
  · exact .inr (.inl h)
  · exact .inr (.inr h)

/-! ### Bounds -/

theorem finite_lists {ts : Set Term} (hts : ts.Finite) (n : Nat) :
    {l : List Term | l.length = n ∧ ∀ t ∈ l, t ∈ ts}.Finite := by
  induction n with
  | zero =>
    refine (Set.finite_singleton []).subset ?_
    rintro l ⟨hl, -⟩
    exact List.length_eq_zero_iff.mp hl
  | succ n ih =>
    refine (hts.image2 List.cons ih).subset ?_
    rintro l ⟨hl, hmem⟩
    cases l with
    | nil => cases hl
    | cons t l =>
      obtain ⟨ht, hrest⟩ := List.forall_mem_cons.mp hmem
      exact ⟨t, ht, l, ⟨Nat.succ.inj hl, hrest⟩, rfl⟩

def bounded (n : Nat) (ps : List (Char × Nat)) (ts : Set Term) : Set Formula :=
  {f | f.size ≤ n ∧ f.predicates ⊆ ps ∧ ∀ t ∈ f.occurrences, t ∈ ts}

theorem bounded_succ_subset (n : Nat) (ps : List (Char × Nat)) (ts : Set Term) :
    bounded (n + 1) ps ts ⊆
      (⋃ p ∈ {p | p ∈ ps}, atom p.1 '' {l | l.length = p.2 ∧ ∀ t ∈ l, t ∈ ts}) ∪
      neg '' bounded n ps ts ∪
      (⋃ c ∈ ({.conj, .disj, .impl, .iff} : Set Connective),
        Set.image2 (bin c) (bounded n ps ts) (bounded n ps ts)) ∪
      ⋃ q ∈ ({.universal, .existential} : Set Quantifier),
        Set.image2 (quant q) ts (bounded n ps ts) := by
  rintro f ⟨hsize, hps, hts⟩
  cases f with
  | atom p l =>
    left; left; left
    refine Set.mem_biUnion (hps List.mem_cons_self) ⟨l, ⟨rfl, hts⟩, rfl⟩
  | neg f =>
    left; left; right
    exact ⟨f, ⟨Nat.le_of_succ_le_succ hsize, hps, hts⟩, rfl⟩
  | bin c l r =>
    left; right
    simp only [size] at hsize
    obtain ⟨hpl, hpr⟩ := List.append_subset.mp hps
    have hl : l ∈ bounded n ps ts :=
      ⟨by omega, hpl, fun t ht => hts t (List.mem_append_left _ ht)⟩
    have hr : r ∈ bounded n ps ts :=
      ⟨by omega, hpr, fun t ht => hts t (List.mem_append_right _ ht)⟩
    exact Set.mem_biUnion (by cases c <;> simp) (Set.mem_image2_of_mem hl hr)
  | quant q v f =>
    right
    have hf : f ∈ bounded n ps ts :=
      ⟨Nat.le_of_succ_le_succ hsize, hps, fun t ht => hts t (List.mem_cons_of_mem v ht)⟩
    exact Set.mem_biUnion (by cases q <;> simp)
      (Set.mem_image2_of_mem (hts v List.mem_cons_self) hf)

theorem finite_bounded (n : Nat) (ps : List (Char × Nat)) {ts : Set Term} (hts : ts.Finite) :
    (bounded n ps ts).Finite := by
  induction n with
  | zero =>
    refine Set.finite_empty.subset ?_
    rintro f ⟨hsize, -⟩
    exact absurd f.size_pos (Nat.not_lt_of_le hsize)
  | succ n ih =>
    refine Set.Finite.subset ?_ (bounded_succ_subset n ps ts)
    refine ((Set.Finite.union ?_ (ih.image neg)).union ?_).union ?_
    · exact ps.finite_toSet.biUnion fun p _ => (finite_lists hts p.2).image (atom p.1)
    · exact (Set.toFinite _).biUnion fun c _ => ih.image2 (bin c) ih
    · exact (Set.toFinite _).biUnion fun q _ => hts.image2 (quant q) ih

end Formula

/-! ### Bounds that rules respect -/

/-- A bound on the size of formulae, one on the number of their occurrences of terms, and the
predicates that they may have. -/
structure Bounds where
  size : Nat
  length : Nat
  predicates : List (Char × Nat)

structure Formula.Fits (f : Formula) (b : Bounds) : Prop where
  size_le : f.size ≤ b.size
  length_le : f.occurrences.length ≤ b.length
  predicates_subset : f.predicates ⊆ b.predicates

namespace Formula.Fits

variable {f g l r : Formula} {b : Bounds}

theorem of_neg (h : (neg f).Fits b) : f.Fits b :=
  ⟨Nat.le_of_succ_le h.size_le, h.length_le, h.predicates_subset⟩

/-- There is room for a negation in front of each part. -/
theorem of_mem_parts {c : Connective} (h : (bin c l r).Fits b) (hg : g ∈ [l, neg l, r, neg r]) :
    g.Fits b := by
  have hsize := h.size_le
  have hlength := h.length_le
  obtain ⟨hpl, hpr⟩ := List.append_subset.mp h.predicates_subset
  have hl := l.size_pos
  have hr := r.size_pos
  simp only [size, occurrences, List.length_append] at hsize hlength
  have hl : (neg l).Fits b := ⟨by simp only [size]; omega, by simp only [occurrences]; omega, hpl⟩
  have hr : (neg r).Fits b := ⟨by simp only [size]; omega, by simp only [occurrences]; omega, hpr⟩
  simp only [List.mem_cons, List.not_mem_nil, or_false] at hg
  rcases hg with rfl | rfl | rfl | rfl
  · exact hl.of_neg
  · exact hl
  · exact hr.of_neg
  · exact hr

theorem substitute {q : Quantifier} {v : Term} (h : (quant q v f).Fits b) (c : Term) :
    (f.substitute v c).Fits b := by
  constructor
  · rw [size_substitute]
    exact Nat.le_of_succ_le h.size_le
  · rw [length_occurrences_substitute]
    exact Nat.le_of_succ_le h.length_le
  · rw [predicates_substitute]
    exact h.predicates_subset

theorem of_yields {t : Tree} {id : NodeId} (hf : f.Fits b) (h : t.Yields id f g) : g.Fits b := by
  cases h with
  | negated f => exact hf.of_neg.of_neg
  | part hg => exact hf.of_mem_parts hg
  | negatedPart hg => exact hf.of_neg.of_mem_parts hg
  | dual q v f => exact ⟨hf.size_le, hf.length_le, hf.predicates_subset⟩
  | witness v f => exact hf.substitute _
  | inst v f hc => exact hf.substitute _

end Formula.Fits

def Bounds.ofFormulae (fs : List Formula) : Bounds where
  size := (fs.map Formula.size).sum
  length := (fs.map fun f => f.occurrences.length).sum
  predicates := fs.flatMap Formula.predicates

theorem Bounds.fits_ofFormulae {fs : List Formula} {f : Formula} (hf : f ∈ fs) :
    f.Fits (ofFormulae fs) := by
  constructor
  · exact List.le_sum_of_mem (List.mem_map_of_mem hf)
  · exact List.le_sum_of_mem (List.mem_map_of_mem (f := fun f => f.occurrences.length) hf)
  · intro p hp
    exact List.mem_flatMap.mpr ⟨f, hf, hp⟩

theorem Tree.Reachable.fits {premises : List Formula} {conclusion : Formula} {t : Tree}
    (h : Reachable premises conclusion t) {id : NodeId} {f : Formula}
    (hf : f ∈ (t.entry id).formulae) :
    f.Fits (.ofFormulae (premises ++ [.neg conclusion])) :=
  h.forall_formulae (fun _ hroot => Bounds.fits_ofFormulae hroot)
    (fun hrule hfits b hb g hg => hfits.of_yields (yields_of_rule hrule b hb g hg)) id f hf

end TruthTrees
