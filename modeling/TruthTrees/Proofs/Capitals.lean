import TruthTrees.Proofs.Placement
import TruthTrees.Proofs.Runs
import TruthTrees.Proofs.Splitting
import TruthTrees.Proofs.Vocabulary
import TruthTrees.Proofs.Writing

/-!
# Capital letters

A formula that was read from a text has capital letters for its predicates, because the scanner
finds no others and no token comes from elsewhere. The rules bring in no predicates, so that a tree
that is searched for such formulae has no other ones either.
-/

namespace TruthTrees

/-! ### Reading -/

theorem SpelledOut.capitalized {ls : List Lexeme} {cs : List Char} (h : SpelledOut ls cs) :
    Capitalized (ls.filterMap Lexeme.token?) := by
  induction h with
  | nil =>
    intro p args ha
    cases ha
  | @cons l ls w cs hl _ ih =>
    intro p args ha
    obtain ⟨m, hm, htoken⟩ := List.mem_filterMap.mp ha
    rcases List.mem_cons.mp hm with rfl | hm
    · cases hl <;> cases htoken
      · assumption
      · assumption
    · exact ih p args (List.mem_filterMap.mpr ⟨m, hm, htoken⟩)

namespace Formula

theorem capitalized_of_ofLexemes {ls : List Lexeme} {f : Formula} (h : ofLexemes ls = .ok f)
    (hls : Capitalized (ls.filterMap Lexeme.token?)) : Capitalized f.tokens := by
  rcases ofLexemes_cases h with rfl | ⟨-, hpolish⟩
  · have htokens : (f.tokens.map Lexeme.token).filterMap Lexeme.token? = f.tokens := by
      simp [List.filterMap_map, Function.comp_def, Lexeme.token?]
    rwa [htokens] at hls
  · exact hls.mono (Conversion.perm_of_toPolish? hpolish).subset

theorem capitalized_of_read {text : List Char} {f : Formula} (h : read text = .ok f) :
    Capitalized f.tokens := by
  obtain ⟨ls, hls, hf⟩ := read_eq_ok.mp h
  exact capitalized_of_ofLexemes hf (spelledOut_of_lexemes hls).capitalized

/-! ### Searching -/

theorem mem_predicates {f : Formula} {p : Char} {n : Nat} :
    (p, n) ∈ f.predicates ↔ ∃ args, .atom p args ∈ f.tokens ∧ args.length = n := by
  induction f with
  | atom q ts =>
    simp only [predicates, tokens, List.mem_singleton, Prod.mk.injEq, Token.atom.injEq]
    constructor
    · rintro ⟨rfl, rfl⟩
      exact ⟨ts, ⟨rfl, rfl⟩, rfl⟩
    · rintro ⟨args, ⟨rfl, rfl⟩, rfl⟩
      exact ⟨rfl, rfl⟩
  | neg f ih => simpa [predicates, tokens] using ih
  | bin b l r ihl ihr =>
    simp [predicates, tokens, ihl, ihr, or_and_right, exists_or]
  | quant q v f ih => simpa [predicates, tokens] using ih

theorem capitalized_iff_predicates {f : Formula} :
    Capitalized f.tokens ↔ ∀ p n, (p, n) ∈ f.predicates → p.isUpper := by
  simp only [mem_predicates]
  constructor
  · rintro h p n ⟨args, hargs, -⟩
    exact h p args hargs
  · intro h p args hargs
    exact h p args.length ⟨args, hargs, rfl⟩

end Formula

namespace Tree

def AllCapitalized (t : Tree) : Prop :=
  ∀ id ∈ t.nodes, ∀ f ∈ (t.entry id).formulae, Capitalized f.tokens

theorem Reachable.capitalized {premises : List Formula} {conclusion : Formula} {t : Tree}
    (h : Reachable premises conclusion t)
    (hroot : ∀ f ∈ conclusion :: premises, Capitalized f.tokens) : t.AllCapitalized := by
  intro id _ f hf
  rw [Formula.capitalized_iff_predicates]
  intro p n hp
  obtain ⟨g, hg, hpg⟩ := List.mem_flatMap.mp ((h.fits hf).predicates_subset hp)
  have hcapital : Capitalized g.tokens := by
    rcases List.mem_append.mp hg with hg | hg
    · exact hroot g (List.mem_cons_of_mem _ hg)
    · obtain rfl := List.mem_singleton.mp hg
      have hneg : (Formula.neg conclusion).predicates = conclusion.predicates := rfl
      rw [Formula.capitalized_iff_predicates, hneg, ← Formula.capitalized_iff_predicates]
      exact hroot conclusion List.mem_cons_self
  exact Formula.capitalized_iff_predicates.mp hcapital p n hpg

end Tree

end TruthTrees
