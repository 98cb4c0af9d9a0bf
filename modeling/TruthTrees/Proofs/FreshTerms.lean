import Mathlib.Data.Nat.Find
import TruthTrees.Language.Substitution

/-!
# Fresh terms

The enumeration of candidates meets every term once before it repeats any. As long as not all
terms are visible, the search for a fresh one therefore ends at the first candidate that is not
visible, after at most as many candidates as there are different visible terms.
-/

namespace TruthTrees

section Distinct

variable {α : Type _} [DecidableEq α]

theorem length_distinct_le_of_subset {xs ys : List α} (h : xs ⊆ ys) :
    (distinct xs).length ≤ (distinct ys).length := by
  apply (nodup_distinct xs).length_le_of_subset
  intro a ha
  exact mem_distinct.mpr (h (mem_distinct.mp ha))

theorem length_distinct_le (xs : List α) : (distinct xs).length ≤ xs.length := by
  apply (nodup_distinct xs).length_le_of_subset
  intro a ha
  exact mem_distinct.mp ha

theorem length_distinct_cons_le (a : α) (xs : List α) :
    (distinct (a :: xs)).length ≤ (distinct xs).length + 1 := by
  have hsub : distinct (a :: xs) ⊆ a :: distinct xs := by
    intro b hb
    rcases List.mem_cons.mp (mem_distinct.mp hb) with rfl | hb
    · exact List.mem_cons_self
    · exact List.mem_cons_of_mem a (mem_distinct.mpr hb)
  exact (nodup_distinct (a :: xs)).length_le_of_subset hsub

end Distinct

namespace Term

def total : Nat :=
  26 * UInt32.size

/-- The number of terms that may be in use while fresh ones are still asked for. The letters of
the last index are kept back. -/
def supply : Nat :=
  26 * (UInt32.size - 1)

theorem supply_lt_total : supply < total := by
  decide

theorem index_candidate {n : Nat} (h : n < total) : (candidate n).index.toNat = n / 26 := by
  have hdiv : n / 26 < UInt32.size := by
    unfold total at h
    omega
  simp only [candidate, UInt32.toNat_ofNat']
  exact Nat.mod_eq_of_lt hdiv

theorem candidate_injOn {m n : Nat} (hm : m < total) (hn : n < total)
    (h : candidate m = candidate n) : m = n := by
  have hletter : m % 26 = n % 26 := congrArg (fun t : Term => t.letter.val) h
  have hindex : m / 26 = n / 26 := by
    rw [← index_candidate hm, ← index_candidate hn, h]
  omega

theorem nodup_candidates {k : Nat} (h : k ≤ total) : ((List.range k).map candidate).Nodup := by
  rw [List.nodup_iff_pairwise_ne, List.pairwise_map]
  refine List.nodup_range.imp_of_mem ?_
  intro m n hm hn hne hc
  have hm := List.mem_range.mp hm
  have hn := List.mem_range.mp hn
  exact hne (candidate_injOn (by omega) (by omega) hc)

/-- The order of the candidates: by index, then by letter. -/
def Precedes (s t : Term) : Prop :=
  s.index < t.index ∨ (s.index = t.index ∧ s.letter < t.letter)

instance (s t : Term) : Decidable (s.Precedes t) :=
  inferInstanceAs (Decidable (s.index < t.index ∨ (s.index = t.index ∧ s.letter < t.letter)))

theorem exists_candidate (t : Term) : ∃ n < total, candidate n = t := by
  have hletter := t.letter.isLt
  have hindex : t.index.toNat < UInt32.size := t.index.toNat_lt_size
  have hmod : (26 * t.index.toNat + t.letter) % 26 = t.letter := by omega
  have hdiv : (26 * t.index.toNat + t.letter) / 26 = t.index.toNat := by omega
  refine ⟨26 * t.index.toNat + t.letter, ?_, ?_⟩
  · unfold total
    omega
  · simp only [candidate, hmod, hdiv, UInt32.ofNat_toNat]

theorem precedes_candidate {m n : Nat} (hm : m < total) (hn : n < total) :
    (candidate m).Precedes (candidate n) ↔ m < n := by
  unfold Precedes
  rw [UInt32.lt_iff_toNat_lt, ← UInt32.toNat_inj, index_candidate hm, index_candidate hn]
  change m / 26 < n / 26 ∨ (m / 26 = n / 26 ∧ m % 26 < n % 26) ↔ m < n
  omega

theorem precedes_candidate_iff {t : Term} {n : Nat} (hn : n < total) :
    t.Precedes (candidate n) ↔ ∃ m < n, candidate m = t := by
  obtain ⟨k, hk, rfl⟩ := exists_candidate t
  rw [precedes_candidate hk hn]
  constructor
  · intro hlt
    exact ⟨k, hlt, rfl⟩
  · rintro ⟨m, hm, hc⟩
    rwa [← candidate_injOn (Nat.lt_trans hm hn) hk hc]

/-- The search for a term that is not visible stops at the first one, however far it could go. -/
theorem find?_candidates {visible : List Term} {n k : Nat} (hnot : candidate n ∉ visible)
    (hbefore : ∀ m < n, candidate m ∈ visible) (hk : n < k) :
    ((List.range k).map candidate).find? (· ∉ visible) = some (candidate n) := by
  have hfind : (List.range k).find? ((fun t => decide (t ∉ visible)) ∘ candidate) = some n := by
    rw [List.find?_range_eq_some]
    refine ⟨?_, List.mem_range.mpr hk, ?_⟩
    · simpa using hnot
    · intro m hm
      simpa using hbefore m hm
  rw [List.find?_map, hfind]
  rfl

/-- Among one candidate more than there are different visible terms, one is not visible. -/
theorem exists_candidate_notMem {visible : List Term} (h : (distinct visible).length < total) :
    ∃ n ≤ (distinct visible).length, candidate n ∉ visible := by
  by_contra hall
  have hsub : (List.range ((distinct visible).length + 1)).map candidate ⊆ distinct visible := by
    intro t ht
    obtain ⟨n, hn, rfl⟩ := List.mem_map.mp ht
    have hn := List.mem_range.mp hn
    by_contra hnot
    exact hall ⟨n, by omega, fun hv => hnot (mem_distinct.mpr hv)⟩
  have hlen := (nodup_candidates (by omega)).length_le_of_subset hsub
  simp only [List.length_map, List.length_range] at hlen
  omega

theorem fresh_spec {visible : List Term} (h : (distinct visible).length < total) :
    ∃ n ≤ (distinct visible).length,
      fresh visible = candidate n ∧ candidate n ∉ visible ∧ ∀ m < n, candidate m ∈ visible := by
  -- the least such candidate is the one that the search meets first
  have hex : ∃ n, candidate n ∉ visible := by
    obtain ⟨n, -, hn⟩ := exists_candidate_notMem h
    exact ⟨n, hn⟩
  have hfirst : ∀ m < Nat.find hex, candidate m ∈ visible := by
    intro m hm
    have := Nat.find_min hex hm
    simpa using this
  have hle : Nat.find hex ≤ (distinct visible).length := by
    obtain ⟨n, hn, hnot⟩ := exists_candidate_notMem h
    exact Nat.le_trans (Nat.find_min' hex hnot) hn
  refine ⟨Nat.find hex, hle, ?_, Nat.find_spec hex, hfirst⟩
  have hlen := length_distinct_le visible
  unfold fresh
  rw [find?_candidates (Nat.find_spec hex) hfirst (by omega)]
  rfl

theorem fresh_notMem {visible : List Term} (h : (distinct visible).length < total) :
    fresh visible ∉ visible := by
  obtain ⟨n, -, hn, hnot, -⟩ := fresh_spec h
  rw [hn]
  exact hnot

theorem mem_of_precedes_fresh {visible : List Term} (h : (distinct visible).length < total)
    {d : Term} (hd : d.Precedes (fresh visible)) : d ∈ visible := by
  obtain ⟨n, hn, hfresh, -, hbefore⟩ := fresh_spec h
  rw [hfresh] at hd
  obtain ⟨m, hm, rfl⟩ := (precedes_candidate_iff (Nat.lt_of_le_of_lt hn h)).mp hd
  exact hbefore m hm

theorem fresh_mem (visible : List Term) :
    fresh visible ∈ last :: (List.range (visible.length + 1)).map candidate := by
  unfold fresh
  cases h : ((List.range (visible.length + 1)).map candidate).find? (· ∉ visible) with
  | none => exact List.mem_cons_self
  | some t => exact List.mem_cons_of_mem last (List.mem_of_find?_eq_some h)

theorem ne_last_of_lt_supply {n : Nat} (h : n < supply) : candidate n ≠ last := by
  intro hlast
  have hindex := index_candidate (Nat.lt_trans h supply_lt_total)
  rw [hlast] at hindex
  change UInt32.size - 1 = n / 26 at hindex
  unfold supply at h
  omega

/-- The fresh term is not visible, but all terms that precede it are. It comes after at most as many
candidates as there are different visible terms, and the search finds it among any number of
candidates beyond that, so that the last resort is never taken. -/
theorem fresh_is_first {visible : List Term} (h : visible.length < supply) :
    fresh visible ∉ visible ∧ (∀ t, t.Precedes (fresh visible) → t ∈ visible) ∧
      fresh visible ≠ last ∧
      ∃ n ≤ (distinct visible).length, candidate n = fresh visible ∧
        (∀ t, t.Precedes (fresh visible) ↔ ∃ m < n, candidate m = t) ∧
        ∀ k > n, ((List.range k).map candidate).find? (· ∉ visible) = some (fresh visible) := by
  have hsupply : (distinct visible).length < supply :=
    Nat.lt_of_le_of_lt (length_distinct_le visible) h
  have htotal : (distinct visible).length < total := Nat.lt_trans hsupply supply_lt_total
  obtain ⟨n, hn, hfresh, hnot, hbefore⟩ := fresh_spec htotal
  refine ⟨fresh_notMem htotal, ?_, ?_, n, hn, hfresh.symm, ?_, ?_⟩
  · intro t ht
    exact mem_of_precedes_fresh htotal ht
  · rw [hfresh]
    exact ne_last_of_lt_supply (Nat.lt_of_le_of_lt hn hsupply)
  · intro t
    rw [hfresh]
    exact precedes_candidate_iff (Nat.lt_of_le_of_lt hn htotal)
  · intro k hk
    rw [hfresh]
    exact find?_candidates hnot hbefore hk

/-- All letters without an index are visible, and so are `b1` and, twice, the last resort. -/
theorem fresh_is_first_indexed :
    let visible := last :: candidate 27 :: last :: (List.range 26).reverse.map candidate
    visible.length < supply ∧ (distinct visible).length = 28 ∧ fresh visible = candidate 26 ∧
      fresh visible ∉ visible ∧ (∀ t, t.Precedes (candidate 26) → t ∈ visible) ∧
      fresh visible ≠ last := by
  intro visible
  have hlen : visible.length < supply := by decide
  have hfresh : fresh visible = candidate 26 := by decide
  obtain ⟨hnot, hbefore, hlast, -⟩ := fresh_is_first hlen
  rw [hfresh] at hbefore
  exact ⟨hlen, by decide, hfresh, hnot, hbefore, hlast⟩

end Term

end TruthTrees
