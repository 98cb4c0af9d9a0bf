import Mathlib.Data.List.Induction
import TruthTrees.Proofs.Rows

/-!
# Free occurrences

Every occurrence of a term in a formula has an address: the way to it from the outermost sign. It is
free if no quantifier on the way is over the same term. The constants of a formula are the terms
with a free occurrence, in the order in which their first ones are met from left to right.
-/

namespace TruthTrees

section Distinct

variable {α β : Type _} [DecidableEq α]

theorem distinct_append_singleton (xs : List α) (y : α) :
    distinct (xs ++ [y]) = if y ∈ xs then distinct xs else distinct xs ++ [y] := by
  have hmem : y ∈ distinct xs ↔ y ∈ xs := mem_distinct
  rw [distinct, appendNew_append, ← distinct]
  simp only [appendNew, hmem]

/-- Elements come with marks that grow along the list. Of two collected elements, the one collected
first has a mark below all marks of the other. -/
theorem pairwise_distinct_map_fst {r : β → β → Prop} {ps : List (α × β)}
    (h : ps.Pairwise fun p q => r p.2 q.2) :
    (distinct (ps.map Prod.fst)).Pairwise
      fun x y => ∃ a, (x, a) ∈ ps ∧ ∀ b, (y, b) ∈ ps → r a b := by
  -- the collection grows at its end, so the induction takes off the last element
  induction ps using List.reverseRecOn with
  | nil => exact .nil
  | append_singleton ps p ih =>
    obtain ⟨y, b⟩ := p
    rw [List.pairwise_append] at h
    obtain ⟨hps, -, hlast⟩ := h
    -- the marks that were met before are below the last one too
    have hbefore : (distinct (ps.map Prod.fst)).Pairwise
        fun x z => ∃ a, (x, a) ∈ ps ++ [(y, b)] ∧ ∀ c, (z, c) ∈ ps ++ [(y, b)] → r a c := by
      refine (ih hps).imp ?_
      rintro x z ⟨a, ha, hz⟩
      refine ⟨a, List.mem_append_left _ ha, fun c hc => ?_⟩
      rcases List.mem_append.mp hc with hc | hc
      · exact hz c hc
      · exact hlast _ ha _ hc
    rw [List.map_append, List.map_singleton, distinct_append_singleton]
    split_ifs with hy
    · exact hbefore
    · refine List.pairwise_append.mpr ⟨hbefore, List.pairwise_singleton _ _, ?_⟩
      intro x hx z hz
      obtain rfl := List.mem_singleton.mp hz
      obtain ⟨⟨x, a⟩, ha, rfl⟩ := List.mem_map.mp (mem_distinct.mp hx)
      refine ⟨a, List.mem_append_left _ ha, fun c hc => ?_⟩
      rcases List.mem_append.mp hc with hc | hc
      · exact absurd (List.mem_map_of_mem hc) hy
      · exact hlast _ ha _ hc

end Distinct

/-- The parts that are entered one after the other, and then the place in the list of an atom. -/
abbrev Address := List Nat

/-- Two ways part, and the first one goes to a part or place further to the left. -/
def Address.LeftOf (a b : Address) : Prop :=
  ∃ (c : Address) (i j : Nat) (a' b' : Address), a = c ++ i :: a' ∧ b = c ++ j :: b' ∧ i < j

namespace Address.LeftOf

theorem of_lt {i j : Nat} (h : i < j) (a b : Address) : Address.LeftOf (i :: a) (j :: b) :=
  ⟨[], i, j, a, b, rfl, rfl, h⟩

theorem lex {a b : Address} (h : Address.LeftOf a b) : List.Lex (· < ·) a b := by
  obtain ⟨c, i, j, a', b', rfl, rfl, hlt⟩ := h
  induction c with
  | nil => exact .rel hlt
  | cons k c ih => exact .cons ih

theorem asymm {a b : Address} (h : Address.LeftOf a b) : ¬Address.LeftOf b a :=
  fun h' => List.lex_asymm Nat.lt_asymm h.lex h'.lex

theorem cons {a b : Address} (h : Address.LeftOf a b) (k : Nat) :
    Address.LeftOf (k :: a) (k :: b) := by
  obtain ⟨c, i, j, a', b', rfl, rfl, hlt⟩ := h
  exact ⟨k :: c, i, j, a', b', rfl, rfl, hlt⟩

end Address.LeftOf

namespace Formula

def termAt? : Formula → Address → Option Term
  | atom _ ts, [i] => ts[i]?
  | neg f, 0 :: a => f.termAt? a
  | bin _ l _, 0 :: a => l.termAt? a
  | bin _ _ r, 1 :: a => r.termAt? a
  | quant _ _ f, 0 :: a => f.termAt? a
  | _, _ => none

/-- The variables of the quantifiers on the way to an address. -/
def boundAt : Formula → Address → List Term
  | neg f, 0 :: a => f.boundAt a
  | bin _ l _, 0 :: a => l.boundAt a
  | bin _ _ r, 1 :: a => r.boundAt a
  | quant _ v f, 0 :: a => v :: f.boundAt a
  | _, _ => []

/-- The term stands at the address, and not in the range of a quantifier over it. -/
def FreeAt (f : Formula) (t : Term) (a : Address) : Prop :=
  f.termAt? a = some t ∧ t ∉ f.boundAt a

instance (f : Formula) (t : Term) (a : Address) : Decidable (f.FreeAt t a) :=
  inferInstanceAs (Decidable (f.termAt? a = some t ∧ t ∉ f.boundAt a))

section FreeAt

variable {t : Term} {a : Address}

theorem freeAt_atom {p : Char} {ts : List Term} :
    (atom p ts).FreeAt t a ↔ ∃ i, a = [i] ∧ ts[i]? = some t := by
  unfold FreeAt
  match a with
  | [] => simp [termAt?]
  | [i] => simp [termAt?, boundAt]
  | _ :: _ :: _ => simp [termAt?]

theorem freeAt_neg {f : Formula} : (neg f).FreeAt t a ↔ ∃ b, a = 0 :: b ∧ f.FreeAt t b := by
  unfold FreeAt
  match a with
  | [] => simp [termAt?]
  | 0 :: b => simp [termAt?, boundAt]
  | (_ + 1) :: _ => simp [termAt?]

theorem freeAt_bin {c : Connective} {l r : Formula} :
    (bin c l r).FreeAt t a ↔
      (∃ b, a = 0 :: b ∧ l.FreeAt t b) ∨ ∃ b, a = 1 :: b ∧ r.FreeAt t b := by
  unfold FreeAt
  match a with
  | [] => simp [termAt?]
  | 0 :: b => simp [termAt?, boundAt]
  | 1 :: b => simp [termAt?, boundAt]
  | (_ + 2) :: _ => simp [termAt?]

theorem freeAt_quant {q : Quantifier} {v : Term} {f : Formula} :
    (quant q v f).FreeAt t a ↔ t ≠ v ∧ ∃ b, a = 0 :: b ∧ f.FreeAt t b := by
  unfold FreeAt
  match a with
  | [] => simp [termAt?]
  | 0 :: b => simp [termAt?, boundAt, and_left_comm]
  | (_ + 1) :: _ => simp [termAt?]

end FreeAt

def freePlaces : Formula → List (Term × Address)
  | atom _ ts => ts.zipIdx.map fun p => (p.1, [p.2])
  | neg f => f.freePlaces.map fun p => (p.1, 0 :: p.2)
  | bin _ l r =>
    (l.freePlaces.map fun p => (p.1, 0 :: p.2)) ++ r.freePlaces.map fun p => (p.1, 1 :: p.2)
  | quant _ v f => (f.freePlaces.filter (·.1 ≠ v)).map fun p => (p.1, 0 :: p.2)

theorem map_fst_freePlaces (f : Formula) : f.freePlaces.map Prod.fst = f.freeOccurrences := by
  induction f with
  | atom p ts => simp [freePlaces, freeOccurrences, Function.comp_def]
  | neg f ih => simpa [freePlaces, freeOccurrences, Function.comp_def] using ih
  | bin b l r ihl ihr => simp [freePlaces, freeOccurrences, Function.comp_def, ← ihl, ← ihr]
  | quant q v f ih =>
    simp [freePlaces, freeOccurrences, Function.comp_def, ← ih, List.filter_map]

theorem mem_freePlaces {f : Formula} {t : Term} {a : Address} :
    (t, a) ∈ f.freePlaces ↔ f.FreeAt t a := by
  induction f generalizing a with
  | atom p ts =>
    simp only [freePlaces, freeAt_atom, List.mem_map, Prod.exists, List.mem_zipIdx_iff_getElem?,
      Prod.mk.injEq]
    grind
  | neg f ih =>
    simp only [freePlaces, freeAt_neg, List.mem_map, Prod.exists, Prod.mk.injEq, ← ih]
    grind
  | bin b l r ihl ihr =>
    simp only [freePlaces, freeAt_bin, List.mem_append, List.mem_map, Prod.exists, Prod.mk.injEq,
      ← ihl, ← ihr]
    grind
  | quant q v f ih =>
    simp only [freePlaces, freeAt_quant, List.mem_map, List.mem_filter, Prod.exists,
      Prod.mk.injEq, ← ih, decide_eq_true_eq]
    grind

theorem pairwise_freePlaces (f : Formula) :
    f.freePlaces.Pairwise fun p q => p.2.LeftOf q.2 := by
  induction f with
  | atom p ts =>
    have hplaces : ts.zipIdx.Pairwise fun p q => p.2 < q.2 := by
      rw [← List.pairwise_map (f := Prod.snd) (R := (· < ·)), List.zipIdx_map_snd]
      exact List.pairwise_lt_range'
    simp only [freePlaces, List.pairwise_map]
    exact hplaces.imp fun h => .of_lt h [] []
  | neg f ih =>
    simp only [freePlaces, List.pairwise_map]
    exact ih.imp fun h => h.cons 0
  | bin b l r ihl ihr =>
    simp only [freePlaces, List.pairwise_append, List.pairwise_map]
    refine ⟨ihl.imp fun h => h.cons 0, ihr.imp fun h => h.cons 1, ?_⟩
    intro p hp q hq
    obtain ⟨p, -, rfl⟩ := List.mem_map.mp hp
    obtain ⟨q, -, rfl⟩ := List.mem_map.mp hq
    exact .of_lt Nat.zero_lt_one p.2 q.2
  | quant q v f ih =>
    simp only [freePlaces, List.pairwise_map]
    exact (ih.filter _).imp fun h => h.cons 0

/-- One free occurrence of `s` is to the left of all free occurrences of `t`. -/
def FreeBefore (f : Formula) (s t : Term) : Prop :=
  ∃ a, f.FreeAt s a ∧ ∀ b, f.FreeAt t b → a.LeftOf b

theorem FreeBefore.asymm {f : Formula} {s t : Term} (h : f.FreeBefore s t) :
    ¬f.FreeBefore t s := by
  rintro ⟨b, hb, hs⟩
  obtain ⟨a, ha, ht⟩ := h
  exact (ht b hb).asymm (hs a ha)

theorem mem_constants_iff_freeAt {f : Formula} {t : Term} :
    t ∈ f.constants ↔ ∃ a, f.FreeAt t a := by
  rw [mem_constants, ← map_fst_freePlaces]
  simp [mem_freePlaces]

theorem pairwise_constants (f : Formula) : f.constants.Pairwise f.FreeBefore := by
  have h := pairwise_distinct_map_fst f.pairwise_freePlaces
  simp only [map_fst_freePlaces, mem_freePlaces] at h
  exact h

/-- The constants that are collected from the row of a formula are the terms with a free occurrence,
each once, in the order of their first ones; there is only one such list. -/
theorem constants_list_free_terms (f : Formula) :
    Row.constants? f.tokens = some f.constants ∧
      ∀ ts, ts = f.constants ↔
        ts.Nodup ∧ (∀ t, t ∈ ts ↔ ∃ a, f.FreeAt t a) ∧ ts.Pairwise f.FreeBefore := by
  refine ⟨Row.constants?_tokens f, fun ts => ⟨?_, ?_⟩⟩
  · rintro rfl
    exact ⟨f.nodup_constants, fun t => mem_constants_iff_freeAt, f.pairwise_constants⟩
  · rintro ⟨hnodup, hmem, hpairwise⟩
    have hperm : ts.Perm f.constants := by
      rw [List.perm_ext_iff_of_nodup hnodup f.nodup_constants]
      intro t
      rw [hmem, mem_constants_iff_freeAt]
    refine hperm.eq_of_pairwise ?_ hpairwise f.pairwise_constants
    intro s t _ _ hst hts
    exact absurd hts hst.asymm

/-- The formula `(@x(Rxa & #xSxb) & (#bTbx & Sb))`: `x` is bound twice before it is free, and `b` is
free before and after it is bound. -/
def reused : Formula :=
  let a := Term.candidate 0
  let b := Term.candidate 1
  let x := Term.candidate 23
  .bin .conj
    (.quant .universal x (.bin .conj (.atom 'R' [x, a]) (.quant .existential x (.atom 'S' [x, b]))))
    (.bin .conj (.quant .existential b (.atom 'T' [b, x])) (.atom 'S' [b]))

theorem constants_list_free_terms_reused :
    let b := Term.candidate 1
    let x := Term.candidate 23
    let ts := [Term.candidate 0, b, x]
    Row.constants? reused.tokens = some ts ∧ ts.Nodup ∧
      (∀ t, t ∈ ts ↔ ∃ a, reused.FreeAt t a) ∧ ts.Pairwise reused.FreeBefore ∧
      reused.FreeAt b [0, 0, 1, 0, 1] ∧ ¬reused.FreeAt b [1, 0, 0, 0] ∧
      ¬reused.FreeAt x [0, 0, 0, 0] ∧ reused.FreeAt x [1, 0, 0, 1] := by
  intro b x ts
  obtain ⟨hrow, hlist⟩ := constants_list_free_terms reused
  have hts : ts = reused.constants := rfl
  obtain ⟨hnodup, hmem, hpairwise⟩ := (hlist ts).mp hts
  rw [← hts] at hrow
  exact ⟨hrow, hnodup, hmem, hpairwise, by decide, by decide, by decide, by decide⟩

end Formula

end TruthTrees
