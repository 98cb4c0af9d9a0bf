import TruthTrees.Language.Truth
import TruthTrees.Text.Polish
import TruthTrees.Proofs.FreshTerms

/-!
# What substitution means

Putting `c` in place of `x` has the same effect as giving `x` the value of `c`. The variables of
quantifiers over `c` are renamed on the way, and the new names stay out of the way as long as
there are terms left that do not occur in the formula.
-/

namespace TruthTrees

universe u

variable {D : Type u}

namespace Interpretation

@[simp] theorem assign_value_self (I : Interpretation D) (v : Term) :
    I.assign v (I.value v) = I := by
  have h : (fun t => if t = v then I.value v else I.value t) = I.value := by
    funext t
    split_ifs with htv
    · rw [htv]
    · rfl
  simp only [assign, h]

end Interpretation

@[simp] theorem replaceTerm_self (x : Term) (ts : List Term) : replaceTerm x x ts = ts := by
  unfold replaceTerm
  rw [List.map_congr_left (g := id), List.map_id]
  intro t _
  split_ifs with htx
  · exact htx.symm
  · rfl

theorem replaceTerm_of_notMem {x : Term} {ts : List Term} (h : x ∉ ts) (c : Term) :
    replaceTerm x c ts = ts := by
  unfold replaceTerm
  rw [List.map_congr_left (g := id), List.map_id]
  intro t ht
  have hne : t ≠ x := fun htx => h (htx ▸ ht)
  simp [hne]

theorem mem_replaceTerm {x c t : Term} {ts : List Term} :
    t ∈ replaceTerm x c ts ↔ (t ∈ ts ∧ t ≠ x) ∨ (t = c ∧ x ∈ ts) := by
  simp only [replaceTerm, List.mem_map]
  constructor
  · rintro ⟨s, hs, rfl⟩
    by_cases hsx : s = x
    · subst hsx
      simp [hs]
    · simp [hs, hsx]
  · rintro (⟨ht, hne⟩ | ⟨rfl, hx⟩)
    · exact ⟨t, ht, by simp [hne]⟩
    · exact ⟨x, hx, by simp⟩

theorem map_value_replaceTerm (I : Interpretation D) (x c : Term) (ts : List Term) :
    (replaceTerm x c ts).map I.value = ts.map (I.assign x (I.value c)).value := by
  simp only [replaceTerm, List.map_map]
  apply List.map_congr_left
  intro t _
  by_cases htx : t = x
  · simp [htx]
  · simp [htx, I.value_assign_of_ne htx]

namespace Formula

@[simp] theorem rename_self (x : Term) (f : Formula) : f.rename x x = f := by
  induction f with
  | atom p ts => simp [rename]
  | neg f ih => simp [rename, ih]
  | bin b l r ihl ihr => simp [rename, ihl, ihr]
  | quant q v f ih => simp [rename, ih]

theorem mem_freeOccurrences_quant {q : Quantifier} {v t : Term} {f : Formula} :
    t ∈ (quant q v f).freeOccurrences ↔ t ∈ f.freeOccurrences ∧ t ≠ v := by
  simp [freeOccurrences]

theorem mem_freeOccurrences_rename {x c t : Term} {f : Formula}
    (hc : c = x ∨ c ∉ f.occurrences) :
    t ∈ (f.rename x c).freeOccurrences ↔
      (t ∈ f.freeOccurrences ∧ t ≠ x) ∨ (t = c ∧ x ∈ f.freeOccurrences) := by
  induction f with
  | atom p ts => exact mem_replaceTerm
  | neg f ih => exact ih hc
  | bin b l r ihl ihr =>
    simp only [occurrences, List.mem_append, not_or] at hc
    simp only [rename, freeOccurrences, List.mem_append, ihl (hc.imp_right And.left),
      ihr (hc.imp_right And.right)]
    grind
  | quant q v f ih =>
    simp only [occurrences, List.mem_cons, not_or] at hc
    have ih := ih (hc.imp_right And.right)
    unfold rename
    split_ifs with hv
    · simp only [mem_freeOccurrences_quant]
      grind
    · simp only [mem_freeOccurrences_quant, ih]
      grind

theorem holds_rename {x c : Term} {f : Formula} (hc : c = x ∨ c ∉ f.occurrences)
    (I : Interpretation D) :
    (f.rename x c).Holds I ↔ f.Holds (I.assign x (I.value c)) := by
  induction f generalizing I with
  | atom p ts => simp only [rename, Holds, map_value_replaceTerm, Interpretation.relation_assign]
  | neg f ih => exact not_congr (ih hc I)
  | bin b l r ihl ihr =>
    simp only [occurrences, List.mem_append, not_or] at hc
    simp only [rename, Holds, ihl (hc.imp_right And.left), ihr (hc.imp_right And.right)]
  | quant q v f ih =>
    simp only [occurrences, List.mem_cons, not_or] at hc
    unfold rename
    split_ifs with hv
    · -- nothing below is a free occurrence, so the value of `x` does not matter
      subst hv
      refine holds_congr _ (by simp) fun t ht => ?_
      rw [I.value_assign_of_ne (mem_freeOccurrences_quant.mp ht).2]
    · have hcv : c ≠ v := by
        rcases hc with rfl | hc
        · exact Ne.symm hv
        · exact hc.1
      have h : ∀ d, (f.rename x c).Holds (I.assign v d) ↔
          f.Holds ((I.assign x (I.value c)).assign v d) := by
        intro d
        rw [ih (hc.imp_right And.right), Interpretation.value_assign_of_ne I hcv]
        refine holds_congr f (by simp) fun t _ => ?_
        simp only [Interpretation.assign]
        grind
      simp only [Holds, h]

/-- There is a term that neither occurs in the formula nor is one of `x` and `c`. -/
def Roomy (f : Formula) (x c : Term) : Prop :=
  (distinct (f.occurrences ++ [x, c])).length < Term.total

theorem Roomy.of_subset {f g : Formula} {x c : Term} (h : f.Roomy x c)
    (hsub : g.occurrences ⊆ f.occurrences) : g.Roomy x c := by
  refine Nat.lt_of_le_of_lt (length_distinct_le_of_subset ?_) h
  exact List.append_subset.mpr ⟨fun t ht => List.mem_append_left _ (hsub ht),
    List.subset_append_right _ _⟩

theorem Roomy.left {b : Connective} {l r : Formula} {x c : Term} (h : (bin b l r).Roomy x c) :
    l.Roomy x c :=
  h.of_subset (List.subset_append_left _ _)

theorem Roomy.right {b : Connective} {l r : Formula} {x c : Term} (h : (bin b l r).Roomy x c) :
    r.Roomy x c :=
  h.of_subset (List.subset_append_right _ _)

theorem Roomy.body {q : Quantifier} {v : Term} {f : Formula} {x c : Term}
    (h : (quant q v f).Roomy x c) : f.Roomy x c :=
  h.of_subset (List.subset_cons_self _ _)

theorem Roomy.newVariable_spec {f : Formula} {x c : Term} (h : f.Roomy x c) :
    newVariable x c f ∉ f.occurrences ∧ newVariable x c f ≠ x ∧ newVariable x c f ≠ c := by
  have hnot : newVariable x c f ∉ f.occurrences ++ [x, c] := Term.fresh_notMem h
  simpa using hnot

/-- `newName` can stand for `c` in the formula: it is `c`, or it is used nowhere else. -/
def CanRename (f : Formula) (x c newName : Term) : Prop :=
  newName = c ∨ (newName ∉ f.occurrences ∧ newName ≠ x ∧ newName ≠ c)

theorem CanRename.of_subset {f g : Formula} {x c newName : Term} (h : f.CanRename x c newName)
    (hsub : g.occurrences ⊆ f.occurrences) : g.CanRename x c newName :=
  h.imp_right fun hn => ⟨fun hg => hn.1 (hsub hg), hn.2⟩

theorem CanRename.ne_var {q : Quantifier} {v : Term} {f : Formula} {x c newName : Term}
    (h : (quant q v f).CanRename x c newName) (hv : v ≠ c) : newName ≠ v := by
  rcases h with rfl | ⟨hn, -, -⟩
  · exact Ne.symm hv
  · rintro rfl
    exact hn List.mem_cons_self

theorem CanRename.ne_source {f : Formula} {x c newName : Term} (h : f.CanRename x c newName)
    (hxc : x ≠ c) : newName ≠ x := by
  rcases h with rfl | ⟨-, hn, -⟩
  · exact Ne.symm hxc
  · exact hn

theorem CanRename.rename {f : Formula} {x c newName : Term} (h : f.CanRename x c newName) :
    newName = c ∨ newName ∉ f.occurrences :=
  h.imp_right And.left

/-- Below a quantifier over `c` with the new variable `newName`, a substitution sends `x` to `c`
and `c` to `newName`, both at once. -/
theorem holds_substituteUnder {f : Formula} {x c newName : Term} (hxc : x ≠ c)
    (hn : f.CanRename x c newName) (hroom : f.Roomy x c) (I : Interpretation D) :
    (f.substituteUnder x c newName).Holds I ↔
      f.Holds ((I.assign c (I.value newName)).assign x (I.value c)) := by
  induction f generalizing newName I with
  | atom p ts =>
    have hnx := hn.ne_source hxc
    have hmap : (replaceTerm x c (replaceTerm c newName ts)).map I.value =
        ts.map ((I.assign c (I.value newName)).assign x (I.value c)).value := by
      rw [map_value_replaceTerm, map_value_replaceTerm, Interpretation.value_assign_of_ne _ hnx]
      apply List.map_congr_left
      intro t _
      simp only [Interpretation.assign]
      grind
    simp only [substituteUnder, Holds, hmap, Interpretation.relation_assign]
  | neg f ih => exact not_congr (ih hn hroom I)
  | bin b l r ihl ihr =>
    have hl := ihl (hn.of_subset (List.subset_append_left _ _)) hroom.left I
    have hr := ihr (hn.of_subset (List.subset_append_right _ _)) hroom.right I
    simp only [substituteUnder, Holds, hl, hr]
  | quant q v f ih =>
    have hsub : f.occurrences ⊆ (quant q v f).occurrences := List.subset_cons_self _ _
    unfold substituteUnder
    split_ifs with hvx hvc hx
    · -- `x` is bound here, so only `c` is renamed below
      subst hvx
      have hnx := hn.ne_source hxc
      have h : ∀ d, (f.rename c newName).Holds (I.assign v d) ↔
          f.Holds (((I.assign c (I.value newName)).assign v (I.value c)).assign v d) := by
        intro d
        rw [holds_rename (hn.of_subset hsub).rename, Interpretation.value_assign_of_ne I hnx]
        refine holds_congr f (by simp) fun t _ => ?_
        simp only [Interpretation.assign]
        grind
      simp only [Holds, h]
    · -- the quantifier gets a new variable, whose old value does not matter
      subst hvc
      obtain ⟨hnew, hnewx, hnewc⟩ := hroom.body.newVariable_spec
      have h : ∀ d, (f.substituteUnder x v (newVariable x v f)).Holds
            (I.assign (newVariable x v f) d) ↔
          f.Holds (((I.assign v (I.value newName)).assign x (I.value v)).assign v d) := by
        intro d
        rw [ih (.inr ⟨hnew, hnewx, hnewc⟩) hroom.body, Interpretation.value_assign_self,
          Interpretation.value_assign_of_ne I (Ne.symm hnewc)]
        refine holds_congr f (by simp) fun t ht => ?_
        have htn : t ≠ newVariable x v f := fun h => hnew (h ▸ mem_occurrences_of_free ht)
        simp only [Interpretation.assign]
        grind
      simp only [Holds, h]
    · -- neither `x` nor `c` is free below
      subst hvc
      rw [mem_constants] at hx
      refine holds_congr _ (by simp) fun t ht => ?_
      obtain ⟨htf, htv⟩ := mem_freeOccurrences_quant.mp ht
      have htx : t ≠ x := fun h => hx (h ▸ htf)
      rw [Interpretation.value_assign_of_ne _ htx, Interpretation.value_assign_of_ne _ htv]
    · have hnv := hn.ne_var hvc
      have h : ∀ d, (f.substituteUnder x c newName).Holds (I.assign v d) ↔
          f.Holds (((I.assign c (I.value newName)).assign x (I.value c)).assign v d) := by
        intro d
        rw [ih (hn.of_subset hsub) hroom.body, Interpretation.value_assign_of_ne I hnv,
          Interpretation.value_assign_of_ne I (Ne.symm hvc)]
        refine holds_congr f (by simp) fun t _ => ?_
        simp only [Interpretation.assign]
        grind
      simp only [Holds, h]

theorem mem_freeOccurrences_substituteUnder {f : Formula} {x c newName t : Term} (hxc : x ≠ c)
    (hn : f.CanRename x c newName) (hroom : f.Roomy x c) :
    t ∈ (f.substituteUnder x c newName).freeOccurrences ↔
      (t ∈ f.freeOccurrences ∧ t ≠ x ∧ t ≠ c) ∨ (t = c ∧ x ∈ f.freeOccurrences) ∨
        (t = newName ∧ c ∈ f.freeOccurrences) := by
  induction f generalizing newName with
  | atom p ts =>
    have hnx := hn.ne_source hxc
    simp only [substituteUnder, freeOccurrences, mem_replaceTerm]
    grind
  | neg f ih => exact ih hn hroom
  | bin b l r ihl ihr =>
    have hl := ihl (hn.of_subset (List.subset_append_left _ _)) hroom.left
    have hr := ihr (hn.of_subset (List.subset_append_right _ _)) hroom.right
    simp only [substituteUnder, freeOccurrences, List.mem_append, hl, hr]
    grind
  | quant q v f ih =>
    have hsub : f.occurrences ⊆ (quant q v f).occurrences := List.subset_cons_self _ _
    unfold substituteUnder
    split_ifs with hvx hvc hx
    · have hnx := hn.ne_source hxc
      simp only [mem_freeOccurrences_quant,
        mem_freeOccurrences_rename (hn.of_subset hsub).rename]
      grind
    · subst hvc
      obtain ⟨hnew, hnewx, hnewc⟩ := hroom.body.newVariable_spec
      have hfree : newVariable x v f ∉ f.freeOccurrences := fun h =>
        hnew (mem_occurrences_of_free h)
      simp only [mem_freeOccurrences_quant, ih (.inr ⟨hnew, hnewx, hnewc⟩) hroom.body]
      grind
    · rw [mem_constants] at hx
      simp only [mem_freeOccurrences_quant]
      grind
    · have hnv := hn.ne_var hvc
      simp only [mem_freeOccurrences_quant, ih (hn.of_subset hsub) hroom.body]
      grind

/-! Even where new names are not new, a substitution makes no other term free than those that it
puts in. -/

theorem free_cases_of_rename {f : Formula} {x c t : Term}
    (ht : t ∈ (f.rename x c).freeOccurrences) : (t ∈ f.freeOccurrences ∧ t ≠ x) ∨ t = c := by
  induction f with
  | atom p ts => exact (mem_replaceTerm.mp ht).imp_right And.left
  | neg f ih => exact ih ht
  | bin b l r ihl ihr =>
    simp only [rename, freeOccurrences, List.mem_append] at ht ⊢
    grind
  | quant q v f ih =>
    unfold rename at ht
    split_ifs at ht with hv
    · simp only [mem_freeOccurrences_quant] at ht ⊢
      grind
    · simp only [mem_freeOccurrences_quant] at ht ⊢
      grind

theorem free_cases_of_substituteUnder {f : Formula} {x c newName t : Term}
    (ht : t ∈ (f.substituteUnder x c newName).freeOccurrences) :
    (t ∈ f.freeOccurrences ∧ t ≠ x) ∨ t = c ∨ t = newName := by
  induction f generalizing newName with
  | atom p ts =>
    simp only [substituteUnder, freeOccurrences, mem_replaceTerm] at ht ⊢
    grind
  | neg f ih => exact ih ht
  | bin b l r ihl ihr =>
    simp only [substituteUnder, freeOccurrences, List.mem_append] at ht ⊢
    grind
  | quant q v f ih =>
    unfold substituteUnder at ht
    split_ifs at ht with hvx hvc hx
    · simp only [mem_freeOccurrences_quant] at ht ⊢
      have hcases := free_cases_of_rename ht.1
      grind
    · -- the new name is bound again at once
      simp only [mem_freeOccurrences_quant] at ht ⊢
      have hcases := ih ht.1
      grind
    · rw [mem_constants] at hx
      simp only [mem_freeOccurrences_quant] at ht ⊢
      grind
    · simp only [mem_freeOccurrences_quant] at ht ⊢
      have hcases := ih ht.1
      grind

theorem free_cases_of_substitute {f : Formula} {x c t : Term}
    (ht : t ∈ (f.substitute x c).freeOccurrences) : (t ∈ f.freeOccurrences ∧ t ≠ x) ∨ t = c := by
  have hcases := free_cases_of_substituteUnder ht
  rwa [or_self] at hcases

@[simp] theorem substitute_atom (p : Char) (ts : List Term) (x c : Term) :
    (atom p ts).substitute x c = atom p (replaceTerm x c ts) := by
  rw [substitute, substituteUnder, replaceTerm_self]

@[simp] theorem isLiteral_substitute (f : Formula) (x c : Term) :
    (f.substitute x c).isLiteral = f.isLiteral := by
  unfold substitute
  cases f with
  | atom p ts => rfl
  | neg f =>
    cases f with
    | quant q v f =>
      simp only [substituteUnder]
      split_ifs <;> rfl
    | _ => rfl
  | bin b l r => rfl
  | quant q v f =>
    simp only [substituteUnder]
    split_ifs <;> rfl

/-- A literal has no quantifier that could catch the new term. -/
theorem mem_freeOccurrences_substitute_of_isLiteral {f : Formula} (hlit : f.isLiteral) {x : Term}
    (hx : x ∈ f.freeOccurrences) (c : Term) : c ∈ (f.substitute x c).freeOccurrences := by
  have hatom : ∀ p ts, x ∈ (atom p ts).freeOccurrences →
      c ∈ ((atom p ts).substitute x c).freeOccurrences := by
    intro p ts hx
    rw [substitute_atom]
    exact mem_replaceTerm.mpr (.inr ⟨rfl, hx⟩)
  cases f with
  | atom p ts => exact hatom p ts hx
  | neg f =>
    cases f with
    | atom p ts => exact hatom p ts hx
    | _ => cases hlit
  | bin b l r => cases hlit
  | quant q v f => cases hlit

theorem substitute_of_not_free {f : Formula} {x : Term} (h : x ∉ f.freeOccurrences) (c : Term) :
    f.substitute x c = f := by
  unfold substitute
  induction f with
  | atom p ts =>
    have hx : x ∉ ts := h
    rw [substituteUnder, replaceTerm_self, replaceTerm_of_notMem hx]
  | neg f ih =>
    simp only [substituteUnder, ih h]
  | bin b l r ihl ihr =>
    simp only [freeOccurrences, List.mem_append, not_or] at h
    simp only [substituteUnder, ihl h.1, ihr h.2]
  | quant q v f ih =>
    unfold substituteUnder
    split_ifs with hvx hvc hx
    · rw [rename_self]
    · have hne : x ≠ v := Ne.symm hvx
      exact absurd (mem_freeOccurrences_quant.mpr ⟨mem_constants.mp hx, hne⟩) h
    · rfl
    · have hx : x ∉ f.freeOccurrences := fun hx =>
        h (mem_freeOccurrences_quant.mpr ⟨hx, Ne.symm hvx⟩)
      rw [ih hx]

@[simp] theorem substitute_self (f : Formula) (x : Term) : f.substitute x x = f := by
  unfold substitute
  induction f with
  | atom p ts => simp [substituteUnder]
  | neg f ih => simp only [substituteUnder, ih]
  | bin b l r ihl ihr => simp only [substituteUnder, ihl, ihr]
  | quant q v f ih =>
    unfold substituteUnder
    split_ifs
    · rw [rename_self]
    · rw [ih]

theorem holds_substitute {f : Formula} {x c : Term} (hroom : f.Roomy x c)
    (I : Interpretation D) :
    (f.substitute x c).Holds I ↔ f.Holds (I.assign x (I.value c)) := by
  by_cases hxc : x = c
  · simp [hxc]
  · have h := holds_substituteUnder hxc (.inl rfl) hroom I
    rwa [Interpretation.assign_value_self] at h

theorem mem_freeOccurrences_substitute {f : Formula} {x c t : Term} (hroom : f.Roomy x c) :
    t ∈ (f.substitute x c).freeOccurrences ↔
      (t ∈ f.freeOccurrences ∧ t ≠ x) ∨ (t = c ∧ x ∈ f.freeOccurrences) := by
  by_cases hxc : x = c
  · subst hxc
    rw [substitute_self]
    grind
  · have h := mem_freeOccurrences_substituteUnder (t := t) hxc (.inl rfl) hroom
    rw [substitute, h]
    grind

/-- The substitution lemma. As long as there is a term left for new variables, `f.substitute x c` is
true exactly if `f` is true with the value of `c` for `x`, and its free terms are those of `f`
without `x`, and `c` if `x` was one of them. The number of tokens never changes, and no token does
if `x` is not free or is `c` itself. -/
theorem substitution_lemma (f : Formula) (x c : Term) :
    (f.Roomy x c →
      (∀ {D : Type u} (I : Interpretation D),
        (f.substitute x c).Holds I ↔ f.Holds (I.assign x (I.value c))) ∧
      ∀ t, t ∈ (f.substitute x c).constants ↔
        (t ∈ f.constants ∧ t ≠ x) ∨ (t = c ∧ x ∈ f.constants)) ∧
    (f.substitute x c).tokens.length = f.tokens.length ∧
    (x ∉ f.constants ∨ x = c → (f.substitute x c).tokens = f.tokens) := by
  refine ⟨?_, ?_, ?_⟩
  · intro hroom
    refine ⟨holds_substitute hroom, fun t => ?_⟩
    simp only [mem_constants]
    exact mem_freeOccurrences_substitute hroom
  · rw [length_tokens, length_tokens, size_substitute]
  · rintro (hx | rfl)
    · rw [substitute_of_not_free (fun h => hx (mem_constants.mpr h))]
    · rw [substitute_self]

/-- The formula `#y(Rxy & @y~Rxy)`, in which two quantifiers over `y` have `x` in their range. -/
def shadowed : Formula :=
  let x := Term.candidate 23
  let y := Term.candidate 24
  .quant .existential y (.bin .conj (.atom 'R' [x, y])
    (.quant .universal y (.neg (.atom 'R' [x, y]))))

/-- Both quantifiers get the same new variable, and `y` stays free in both ranges. -/
theorem substitution_lemma_shadowed :
    let x := Term.candidate 23
    let y := Term.candidate 24
    let a := Term.candidate 0
    let result : Formula := .quant .existential a (.bin .conj (.atom 'R' [y, a])
      (.quant .universal a (.neg (.atom 'R' [y, a]))))
    shadowed.Roomy x y ∧ shadowed.substitute x y = result ∧
      (∀ I : Interpretation Nat, result.Holds I ↔ shadowed.Holds (I.assign x (I.value y))) ∧
      y ∈ result.constants ∧ x ∉ result.constants ∧
      result.tokens.length = shadowed.tokens.length ∧
      y ∉ shadowed.constants ∧ (shadowed.substitute y x).tokens = shadowed.tokens := by
  intro x y a result
  have hroom : shadowed.Roomy x y := by
    unfold Roomy
    decide +kernel
  have hresult : shadowed.substitute x y = result := by decide +kernel
  obtain ⟨hmeaning, hlength, -⟩ := substitution_lemma.{0} shadowed x y
  obtain ⟨hholds, hfree⟩ := hmeaning hroom
  rw [hresult] at hholds hfree hlength
  have hy : y ∉ shadowed.constants := by decide +kernel
  refine ⟨hroom, hresult, hholds, ?_, ?_, hlength, hy, ?_⟩
  · exact (hfree y).mpr (.inr ⟨rfl, by decide +kernel⟩)
  · intro hx
    rcases (hfree x).mp hx with ⟨-, hne⟩ | ⟨heq, -⟩
    · exact hne rfl
    · exact absurd heq (by decide +kernel)
  · exact (substitution_lemma.{0} shadowed y x).2.2 (.inl hy)

end Formula

end TruthTrees
