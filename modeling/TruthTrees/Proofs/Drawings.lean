import Mathlib.Data.List.Forall2
import TruthTrees.Proofs.Building
import TruthTrees.Proofs.Capitals
import TruthTrees.Tree.Drawing

/-!
# Telling trees by their drawings

A drawing shows the whole of a tree, apart from its ticks. The marks that lay it out occur in no
formula, so the text falls apart into lines and a line into its depth, its formulae and its cross.
The lines with their depths then tell which node is below which.
-/

namespace TruthTrees

/-! ### The text of a node -/

/-- The characters that separate the parts of a drawing. -/
def layoutMarks : List Char :=
  [',', '[', '|', '\n']

theorem notMem_layoutMarks_of_isTermChar {c : Char} (h : Lexeme.isTermChar c) :
    c ∉ layoutMarks := by
  have hmarks : layoutMarks.any Lexeme.isTermChar = false := by decide
  intro hc
  exact List.any_eq_false.mp hmarks c hc h

theorem notMem_layoutMarks_of_isUpper {c : Char} (h : c.isUpper) : c ∉ layoutMarks := by
  have hmarks : layoutMarks.any Char.isUpper = false := by decide
  intro hc
  exact List.any_eq_false.mp hmarks c hc h

theorem Term.notMem_layoutMarks (t : Term) : ∀ c ∈ t.spelling, c ∉ layoutMarks :=
  fun c hc => notMem_layoutMarks_of_isTermChar (t.spelledAs_spelling.isTermChar c hc)

theorem Token.notMem_layoutMarks {t : Token} (h : Capitalized [t]) :
    ∀ c ∈ t.spelling, c ∉ layoutMarks := by
  cases t with
  | neg => exact List.forall_mem_singleton.mpr (by decide)
  | bin b =>
    have hb : b.plain ∉ layoutMarks := by cases b <;> decide
    exact List.forall_mem_singleton.mpr hb
  | quant q v =>
    have hq : q.plain ∉ layoutMarks := by cases q <;> decide
    exact List.forall_mem_cons.mpr ⟨hq, v.notMem_layoutMarks⟩
  | atom p ts =>
    have hp : p.isUpper := h p ts (List.mem_singleton_self _)
    intro c hc
    rcases List.mem_cons.mp hc with rfl | hc
    · exact notMem_layoutMarks_of_isUpper hp
    · exact notMem_layoutMarks_of_isTermChar ((spelledInRow_flatMap ts).isTermChar c hc)

namespace Formula

variable {f g : Formula} {style : Style}

theorem notMem_polish (h : Capitalized f.tokens) : ∀ c ∈ f.polish, c ∉ layoutMarks := by
  intro c hc
  obtain ⟨t, ht, hct⟩ := List.mem_flatMap.mp hc
  have htoken : Capitalized [t] := h.mono (by simpa using ht)
  exact Token.notMem_layoutMarks htoken c hct

theorem notMem_bracketed (h : Capitalized f.tokens) : ∀ c ∈ f.bracketed, c ∉ layoutMarks := by
  have hspace : ' ' ∉ layoutMarks := by decide
  induction f with
  | atom p ts => exact Token.notMem_layoutMarks h
  | neg f ih =>
    have hneg : Negation.pretty ∉ layoutMarks := by decide
    exact List.forall_mem_cons.mpr ⟨hneg, ih (h.mono (List.subset_cons_self _ _))⟩
  | quant q v f ih =>
    have hq : q.pretty ∉ layoutMarks := by cases q <;> decide
    have hf := ih (h.mono (List.subset_cons_self _ _))
    simp only [bracketed, List.cons_append, List.forall_mem_cons, List.forall_mem_append]
    exact ⟨hq, v.notMem_layoutMarks, hspace, hf⟩
  | bin b l r ihl ihr =>
    have hb : b.pretty ∉ layoutMarks := by cases b <;> decide
    have hlr : Capitalized (l.tokens ++ r.tokens) := h.mono (List.subset_cons_self _ _)
    have hl := ihl (hlr.mono (List.subset_append_left _ _))
    have hr := ihr (hlr.mono (List.subset_append_right _ _))
    have hopening : '(' ∉ layoutMarks := by decide
    have hclosing : ')' ∉ layoutMarks := by decide
    simp only [bracketed, List.cons_append, List.forall_mem_cons, List.forall_mem_append]
    exact ⟨hopening, ⟨hl, hspace, hb, hspace, hr⟩, hclosing, List.forall_mem_nil _⟩

theorem notMem_write (h : Capitalized f.tokens) (style : Style) :
    ∀ c ∈ f.write style, c ∉ layoutMarks := by
  cases style with
  | polish => exact notMem_polish h
  | bracketed => exact notMem_bracketed h

theorem write_ne_nil (f : Formula) (style : Style) : f.write style ≠ [] := by
  cases style <;> cases f <;>
    simp [write, polish, bracketed, tokens, spellTokens, Token.spelling]

theorem write_inj (hf : Capitalized f.tokens) (hg : Capitalized g.tokens)
    (h : f.write style = g.write style) : f = g := by
  cases style with
  | polish =>
    have hls := (lexemes_polish hf).symm.trans ((congrArg lexemes h).trans (lexemes_polish hg))
    have htokens : f.tokens = g.tokens :=
      List.map_injective_iff.mpr (fun _ _ => Lexeme.token.inj) (Except.ok.inj hls)
    exact tokens_injective htokens
  | bracketed =>
    have hls := (lexemes_bracketed hf).symm.trans
      ((congrArg lexemes h).trans (lexemes_bracketed hg))
    have hf' : ofLexemes f.bracketedLexemes = .ok f :=
      ofLexemes_of_derives f.derives_bracketedLexemes
    rw [Except.ok.inj hls, ofLexemes_of_derives g.derives_bracketedLexemes] at hf'
    exact (Except.ok.inj hf').symm

theorem intercalate_write_ne_nil (f : Formula) (fs : List Formula) (style : Style) :
    [',', ' '].intercalate ((f :: fs).map (write style)) ≠ [] := by
  cases fs with
  | nil => simpa using f.write_ne_nil style
  | cons g fs => simp [List.intercalate_cons_cons]

theorem comma_mem_intercalate (f g : Formula) (fs : List Formula) (style : Style) :
    ',' ∈ [',', ' '].intercalate ((f :: g :: fs).map (write style)) := by
  simp [List.intercalate_cons_cons]

theorem intercalate_write_inj {fs gs : List Formula} (hfs : ∀ f ∈ fs, Capitalized f.tokens)
    (hgs : ∀ g ∈ gs, Capitalized g.tokens)
    (h : [',', ' '].intercalate (fs.map (write style)) =
      [',', ' '].intercalate (gs.map (write style))) : fs = gs := by
  have hcomma {f : Formula} (hf : Capitalized f.tokens) : ',' ∉ f.write style :=
    fun hc => notMem_write hf style ',' hc (by decide)
  induction fs generalizing gs with
  | nil =>
    cases gs with
    | nil => rfl
    | cons g gs => exact absurd h.symm (intercalate_write_ne_nil g gs style)
  | cons f fs ih =>
    cases gs with
    | nil => exact absurd h (intercalate_write_ne_nil f fs style)
    | cons g gs =>
      obtain ⟨hf, hfs⟩ := List.forall_mem_cons.mp hfs
      obtain ⟨hg, hgs⟩ := List.forall_mem_cons.mp hgs
      cases fs with
      | nil =>
        cases gs with
        | nil => rw [write_inj hf hg (by simpa using h)]
        | cons g' gs =>
          have hmem := comma_mem_intercalate g g' gs style
          rw [← h, List.map_singleton, List.intercalate_singleton] at hmem
          exact absurd hmem (hcomma hf)
      | cons f' fs =>
        cases gs with
        | nil =>
          have hmem := comma_mem_intercalate f f' fs style
          rw [h, List.map_singleton, List.intercalate_singleton] at hmem
          exact absurd hmem (hcomma hg)
        | cons g' gs =>
          simp only [List.map_cons, List.intercalate_cons_cons, List.append_assoc,
            List.cons_append, List.nil_append] at h
          obtain ⟨hwrite, hrest⟩ := append_mark_inj (hcomma hf) (hcomma hg) h
          have htail := ih hfs hgs (by simpa using hrest)
          rw [write_inj hf hg hwrite, htail]

theorem notMem_intercalate {fs : List Formula} (hfs : ∀ f ∈ fs, Capitalized f.tokens)
    (style : Style) :
    ∀ c ∈ [',', ' '].intercalate (fs.map (write style)), c = ',' ∨ c ∉ layoutMarks := by
  induction fs with
  | nil => simp
  | cons f fs ih =>
    obtain ⟨hf, hfs⟩ := List.forall_mem_cons.mp hfs
    have hwrite : ∀ c ∈ f.write style, c = ',' ∨ c ∉ layoutMarks :=
      fun c hc => .inr (notMem_write hf style c hc)
    cases fs with
    | nil => simpa using hwrite
    | cons g fs =>
      have hseparator : ∀ c ∈ [',', ' '], c = ',' ∨ c ∉ layoutMarks := by simp [layoutMarks]
      simp only [List.map_cons, List.intercalate_cons_cons, List.forall_mem_append]
      exact ⟨⟨hwrite, hseparator⟩, ih hfs⟩

end Formula

namespace Node

variable {style : Style} {m n : Node}

theorem ne_of_mem_write (hn : ∀ f ∈ n.formulae, Capitalized f.tokens) (style : Style) :
    ∀ c ∈ n.write style, c ≠ '|' ∧ c ≠ '\n' := by
  have hcross : ∀ c ∈ (if n.closed then [' ', '[', 'X', ']'] else []), c ≠ '|' ∧ c ≠ '\n' := by
    cases n.closed <;> simp
  intro c hc
  rcases List.mem_append.mp hc with hc | hc
  · rcases Formula.notMem_intercalate hn style c hc with rfl | hmark
    · decide
    · constructor <;> rintro rfl <;> exact hmark (by decide)
  · exact hcross c hc

theorem opening_mem_write (hn : ∀ f ∈ n.formulae, Capitalized f.tokens) (style : Style) :
    '[' ∈ n.write style ↔ n.closed := by
  have hlist : '[' ∉ [',', ' '].intercalate (n.formulae.map (Formula.write style)) := by
    intro hc
    have hmark := Formula.notMem_intercalate hn style '[' hc
    revert hmark
    decide
  by_cases hclosed : n.closed <;> simp [write, hclosed, hlist]

theorem write_inj (hm : ∀ f ∈ m.formulae, Capitalized f.tokens)
    (hn : ∀ f ∈ n.formulae, Capitalized f.tokens) (h : m.write style = n.write style) :
    m.formulae = n.formulae ∧ m.closed = n.closed := by
  have hclosed : m.closed = n.closed := by
    rw [Bool.eq_iff_iff, ← opening_mem_write hm style, ← opening_mem_write hn style, h]
  unfold write at h
  rw [hclosed] at h
  exact ⟨Formula.intercalate_write_inj hm hn (List.append_cancel_right h), hclosed⟩

end Node

/-! ### Lines -/

/-- What a drawing shows of a node on its line. -/
structure DrawnLine where
  depth : Nat
  formulae : List Formula
  closed : Bool

namespace DrawnLine

def node (l : DrawnLine) : Node :=
  { formulae := l.formulae, closed := l.closed }

def text (style : Style) (l : DrawnLine) : List Char :=
  Tree.line style l.depth l.node

def Legible (l : DrawnLine) : Prop :=
  ∀ f ∈ l.node.formulae, Capitalized f.tokens

theorem indent_append_inj {d e : Nat} {v w : List Char} (hv : '|' ∉ v) (hw : '|' ∉ w)
    (h : (List.replicate d Tree.indent).flatten ++ v =
      (List.replicate e Tree.indent).flatten ++ w) : d = e ∧ v = w := by
  induction d generalizing e with
  | zero =>
    cases e with
    | zero => exact ⟨rfl, h⟩
    | succ e =>
      have hlonger : v = (List.replicate (e + 1) Tree.indent).flatten ++ w := h
      rw [hlonger] at hv
      exact absurd List.mem_cons_self hv
  | succ d ih =>
    cases e with
    | zero =>
      have hlonger : (List.replicate (d + 1) Tree.indent).flatten ++ v = w := h
      rw [← hlonger] at hw
      exact absurd List.mem_cons_self hw
    | succ e =>
      simp only [List.replicate_succ, List.flatten_cons, List.append_assoc] at h
      obtain ⟨rfl, rfl⟩ := ih (List.append_cancel_left h)
      exact ⟨rfl, rfl⟩

theorem bar_notMem {l : DrawnLine} (hl : l.Legible) (style : Style) : '|' ∉ l.node.write style :=
  fun hc => (Node.ne_of_mem_write hl style '|' hc).1 rfl

theorem newline_notMem {l : DrawnLine} (hl : l.Legible) (style : Style) :
    '\n' ∉ (List.replicate l.depth Tree.indent).flatten ++ l.node.write style := by
  rw [List.mem_append, not_or]
  constructor
  · simp [List.mem_flatten, List.mem_replicate, Tree.indent]
  · intro hc
    exact (Node.ne_of_mem_write hl style '\n' hc).2 rfl

/-- A line is told by its text, and the text tells where it ends. -/
theorem text_append_inj {style : Style} {k l : DrawnLine} {xs ys : List Char} (hk : k.Legible)
    (hl : l.Legible) (h : k.text style ++ xs = l.text style ++ ys) : k = l ∧ xs = ys := by
  rw [text, text, Tree.line, Tree.line, List.append_assoc _ ['\n'], List.append_assoc _ ['\n']] at h
  obtain ⟨htext, hrest⟩ := append_mark_inj (newline_notMem hk style) (newline_notMem hl style) h
  obtain ⟨hdepth, hwrite⟩ := indent_append_inj (bar_notMem hk style) (bar_notMem hl style) htext
  obtain ⟨hformulae, hclosed⟩ := Node.write_inj hk hl hwrite
  cases k
  cases l
  cases hdepth
  cases hformulae
  cases hclosed
  exact ⟨rfl, hrest⟩

theorem flatMap_text_inj {style : Style} {ks ls : List DrawnLine} (hks : ∀ k ∈ ks, k.Legible)
    (hls : ∀ l ∈ ls, l.Legible) (h : ks.flatMap (text style) = ls.flatMap (text style)) :
    ks = ls := by
  have hne (l : DrawnLine) (xs : List Char) : l.text style ++ xs ≠ [] := by
    simp [text, Tree.line]
  induction ks generalizing ls with
  | nil =>
    cases ls with
    | nil => rfl
    | cons l ls => exact absurd h.symm (hne l _)
  | cons k ks ih =>
    cases ls with
    | nil => exact absurd h (hne k _)
    | cons l ls =>
      obtain ⟨hk, hks'⟩ := List.forall_mem_cons.mp hks
      obtain ⟨hl, hls'⟩ := List.forall_mem_cons.mp hls
      obtain ⟨heq, hrest⟩ := text_append_inj hk hl h
      rw [heq, ih hks' hls' hrest]

end DrawnLine

namespace Tree

variable {t u : Tree}

def lineAt (t : Tree) (place : Nat × NodeId) : DrawnLine :=
  ⟨place.1, (t.entry place.2).formulae, (t.entry place.2).closed⟩

def linesBelow (t : Tree) (levels depth : Nat) (id : NodeId) : List DrawnLine :=
  (t.outlineBelow levels depth id).map t.lineAt

theorem linesBelow_succ (t : Tree) (levels depth : Nat) (id : NodeId) :
    t.linesBelow (levels + 1) depth id =
      t.lineAt (depth, id) :: (t.entry id).children.flatMap (t.linesBelow levels (depth + 1)) := by
  simp only [linesBelow, outlineBelow, List.map_cons, List.map_flatMap]
  rfl

theorem draw_eq_flatMap (t : Tree) (style : Style) :
    t.draw style = (t.linesBelow t.nextId 0 root).flatMap (DrawnLine.text style) := by
  simp only [draw, linesBelow, outline, List.flatMap_map]
  rfl

/-! ### Depths -/

/-- The nodes have the same formulae and are both closed or both open, and so it is with their
children from left to right. Where a child has its place is not looked at. -/
inductive Alike (t u : Tree) : NodeId → NodeId → Prop where
  | node {i j : NodeId} (hformulae : (t.entry i).formulae = (u.entry j).formulae)
      (hclosed : (t.entry i).closed = (u.entry j).closed)
      (hchildren : List.Forall₂ (Alike t u) (t.entry i).children (u.entry j).children) :
      Alike t u i j

/-- A block of lines ends before these ones: the first of them is no deeper than its top line. -/
def EndsBlock (depth : Nat) (ls : List DrawnLine) : Prop :=
  ∀ l ∈ ls.head?, l.depth ≤ depth

def StartsBlock (depth : Nat) (ls : List DrawnLine) : Prop :=
  ∃ top rest, ls = top :: rest ∧ top.depth = depth

theorem StartsBlock.endsBlock_append {depth : Nat} {ls : List DrawnLine} (h : StartsBlock depth ls)
    (rest : List DrawnLine) : EndsBlock depth (ls ++ rest) := by
  obtain ⟨top, below, rfl, htop⟩ := h
  intro l hl
  cases hl
  exact Nat.le_of_eq htop

theorem StartsBlock.not_endsBlock {depth : Nat} {ls : List DrawnLine}
    (h : StartsBlock (depth + 1) ls) (rest : List DrawnLine) : ¬EndsBlock depth (ls ++ rest) := by
  obtain ⟨top, below, rfl, htop⟩ := h
  intro hends
  have hle : top.depth ≤ depth := hends top rfl
  omega

theorem endsBlock_blocks_append {depth : Nat} {f : NodeId → List DrawnLine} {is : List NodeId}
    (hf : ∀ i ∈ is, StartsBlock (depth + 1) (f i)) {xs : List DrawnLine}
    (hxs : EndsBlock depth xs) : EndsBlock (depth + 1) (is.flatMap f ++ xs) := by
  cases is with
  | nil =>
    intro l hl
    have hle : l.depth ≤ depth := hxs l hl
    omega
  | cons i is =>
    rw [List.flatMap_cons, List.append_assoc]
    exact (hf i List.mem_cons_self).endsBlock_append _

/-- Blocks one after the other are told apart if each of them is. -/
theorem forall₂_of_blocks {R : NodeId → NodeId → Prop} {f g : NodeId → List DrawnLine} {depth : Nat}
    {is js : List NodeId} (hf : ∀ i ∈ is, StartsBlock (depth + 1) (f i))
    (hg : ∀ j ∈ js, StartsBlock (depth + 1) (g j))
    (hblock : ∀ i ∈ is, ∀ j ∈ js, ∀ {xs ys}, EndsBlock (depth + 1) xs →
      EndsBlock (depth + 1) ys → f i ++ xs = g j ++ ys → R i j ∧ xs = ys)
    {xs ys : List DrawnLine} (hxs : EndsBlock depth xs) (hys : EndsBlock depth ys)
    (h : is.flatMap f ++ xs = js.flatMap g ++ ys) : List.Forall₂ R is js ∧ xs = ys := by
  induction is generalizing js with
  | nil =>
    cases js with
    | nil => exact ⟨.nil, h⟩
    | cons j js =>
      have hends : EndsBlock depth (g j ++ (js.flatMap g ++ ys)) := by
        rw [← List.append_assoc, ← List.flatMap_cons, ← h]
        exact hxs
      exact absurd hends ((hg j List.mem_cons_self).not_endsBlock _)
  | cons i is ih =>
    obtain ⟨hi, his⟩ := List.forall_mem_cons.mp hf
    cases js with
    | nil =>
      have hends : EndsBlock depth (f i ++ (is.flatMap f ++ xs)) := by
        rw [← List.append_assoc, ← List.flatMap_cons, h]
        exact hys
      exact absurd hends (hi.not_endsBlock _)
    | cons j js =>
      obtain ⟨hj, hjs⟩ := List.forall_mem_cons.mp hg
      rw [List.flatMap_cons, List.flatMap_cons, List.append_assoc, List.append_assoc] at h
      obtain ⟨hij, hrest⟩ := hblock i List.mem_cons_self j List.mem_cons_self
        (endsBlock_blocks_append his hxs) (endsBlock_blocks_append hjs hys) h
      obtain ⟨htail, hend⟩ := ih his hjs
        (fun i hi j hj => hblock i (List.mem_cons_of_mem _ hi) j (List.mem_cons_of_mem _ hj)) hrest
      exact ⟨.cons hij htail, hend⟩

/-- So many levels are enough for all that is below the node. -/
def Suffices (t : Tree) (levels id : Nat) : Prop :=
  id < t.nextId ∧ id + levels ≥ t.nextId

theorem Suffices.exists_succ {levels id : Nat} (h : t.Suffices levels id) :
    ∃ n, levels = n + 1 := by
  obtain ⟨hlt, hge⟩ := h
  exact ⟨levels - 1, by omega⟩

theorem Suffices.child (ht : t.Linked) {levels id c : Nat} (h : t.Suffices (levels + 1) id)
    (hc : c ∈ (t.entry id).children) : t.Suffices levels c := by
  have hparent := ht.mem_children_iff.mp hc
  have hbelow : id < c := ht.parent_lt hparent
  obtain ⟨-, hge⟩ := h
  exact ⟨lt_of_parent hparent, by omega⟩

theorem Suffices.startsBlock {levels id : Nat} (h : t.Suffices levels id) (depth : Nat) :
    StartsBlock depth (t.linesBelow levels depth id) := by
  obtain ⟨n, rfl⟩ := h.exists_succ
  exact ⟨_, _, linesBelow_succ t n depth id, rfl⟩

/-- The lines at and below a node tell the node and all that is below it. -/
theorem alike_of_lines (ht : t.Linked) (hu : u.Linked) {m n depth i j : Nat}
    (hi : t.Suffices m i) (hj : u.Suffices n j) {xs ys : List DrawnLine} (hxs : EndsBlock depth xs)
    (hys : EndsBlock depth ys)
    (h : t.linesBelow m depth i ++ xs = u.linesBelow n depth j ++ ys) :
    Alike t u i j ∧ xs = ys := by
  -- The induction is on the levels; the lines that follow the block come along in it.
  induction m generalizing n depth i j xs ys with
  | zero =>
    obtain ⟨m, hm⟩ := hi.exists_succ
    cases hm
  | succ m ih =>
    obtain ⟨n, rfl⟩ := hj.exists_succ
    rw [linesBelow_succ, linesBelow_succ, List.cons_append, List.cons_append] at h
    obtain ⟨hline, hrest⟩ := List.cons.inj h
    obtain ⟨-, hformulae, hclosed⟩ := DrawnLine.mk.inj hline
    have hblock : ∀ c ∈ (t.entry i).children, ∀ d ∈ (u.entry j).children, ∀ {xs ys},
        EndsBlock (depth + 1) xs → EndsBlock (depth + 1) ys →
        t.linesBelow m (depth + 1) c ++ xs = u.linesBelow n (depth + 1) d ++ ys →
        Alike t u c d ∧ xs = ys := by
      intro c hc d hd xs ys
      exact ih (hi.child ht hc) (hj.child hu hd)
    obtain ⟨hchildren, hend⟩ := forall₂_of_blocks
      (fun c hc => (hi.child ht hc).startsBlock _) (fun d hd => (hj.child hu hd).startsBlock _)
      hblock hxs hys hrest
    exact ⟨.node hformulae hclosed hchildren, hend⟩

theorem flatMap_eq_of_forall₂ {R : NodeId → NodeId → Prop} {f g : NodeId → List DrawnLine}
    {is js : List NodeId} (h : List.Forall₂ R is js)
    (hfg : ∀ i ∈ is, ∀ j ∈ js, R i j → f i = g j) : is.flatMap f = js.flatMap g := by
  induction h with
  | nil => rfl
  | @cons i j is js hij _ ih =>
    rw [List.flatMap_cons, List.flatMap_cons, hfg i List.mem_cons_self j List.mem_cons_self hij,
      ih fun i hi j hj => hfg i (List.mem_cons_of_mem _ hi) j (List.mem_cons_of_mem _ hj)]

theorem Alike.linesBelow_eq (ht : t.Linked) (hu : u.Linked) {m n i j : Nat} (h : Alike t u i j)
    (hi : t.Suffices m i) (hj : u.Suffices n j) (depth : Nat) :
    t.linesBelow m depth i = u.linesBelow n depth j := by
  induction m generalizing n i j depth with
  | zero =>
    obtain ⟨m, hm⟩ := hi.exists_succ
    cases hm
  | succ m ih =>
    obtain ⟨n, rfl⟩ := hj.exists_succ
    obtain ⟨hformulae, hclosed, hchildren⟩ := h
    have hblocks : (t.entry i).children.flatMap (t.linesBelow m (depth + 1)) =
        (u.entry j).children.flatMap (u.linesBelow n (depth + 1)) := by
      apply flatMap_eq_of_forall₂ hchildren
      intro c hc d hd hcd
      exact ih hcd (hi.child ht hc) (hj.child hu hd) (depth + 1)
    rw [linesBelow_succ, linesBelow_succ, hblocks, lineAt, lineAt, hformulae, hclosed]

/-! ### Drawings -/

theorem AllCapitalized.legible (h : t.AllCapitalized) :
    ∀ l ∈ t.linesBelow t.nextId 0 root, l.Legible := by
  intro l hl
  obtain ⟨⟨depth, id⟩, hplace, rfl⟩ := List.mem_map.mp hl
  have hid : id ∈ t.nodes := by
    rw [← map_snd_outline]
    exact List.mem_map_of_mem hplace
  exact h id hid

theorem draw_eq_iff (ht : t.Linked) (hu : u.Linked) (htc : t.AllCapitalized)
    (huc : u.AllCapitalized) (style : Style) :
    t.draw style = u.draw style ↔ Alike t u root root := by
  have hroot {t : Tree} (ht : t.Linked) : t.Suffices t.nextId root :=
    ⟨ht.root_lt, Nat.le_add_left _ _⟩
  rw [draw_eq_flatMap, draw_eq_flatMap]
  constructor
  · intro h
    have hlines := DrawnLine.flatMap_text_inj htc.legible huc.legible h
    have hnil : EndsBlock 0 [] := by
      intro l hl
      cases hl
    exact (alike_of_lines ht hu (hroot ht) (hroot hu) hnil hnil (by rw [hlines])).1
  · intro h
    rw [h.linesBelow_eq ht hu (hroot ht) (hroot hu)]

/-- Trees with capital letters for predicates have the same drawing, in either notation, if and only
if they are alike from the root on. This is so in particular for any two trees that come up in the
search for arguments that were read from texts. -/
theorem draw_eq_iff_alike (style : Style) :
    (∀ t u : Tree, t.Built → u.Built → t.AllCapitalized → u.AllCapitalized →
      (t.draw style = u.draw style ↔ Alike t u root root)) ∧
    ∀ premises conclusion premises' conclusion',
      (∀ f ∈ conclusion :: premises, ∃ text, Formula.read text = .ok f) →
      (∀ f ∈ conclusion' :: premises', ∃ text, Formula.read text = .ok f) →
      ∀ n n',
        let t := (Prover.after n (Prover.start premises conclusion)).tree
        let u := (Prover.after n' (Prover.start premises' conclusion')).tree
        t.draw style = u.draw style ↔ Alike t u root root := by
  constructor
  · intro t u ht hu htc huc
    exact draw_eq_iff ht.linked hu.linked htc huc style
  · intro premises conclusion premises' conclusion' hread hread' n n'
    have ht := Prover.reachable_after premises conclusion n
    have hu := Prover.reachable_after premises' conclusion' n'
    have hcapital {fs : List Formula} (h : ∀ f ∈ fs, ∃ text, Formula.read text = .ok f) :
        ∀ f ∈ fs, Capitalized f.tokens := by
      intro f hf
      obtain ⟨text, htext⟩ := h f hf
      exact Formula.capitalized_of_read htext
    exact draw_eq_iff ht.linked hu.linked (ht.capitalized (hcapital hread))
      (hu.capitalized (hcapital hread')) style

/-- A tree that has lost its left child. -/
def trimmed : Tree :=
  let t := (ofFormulae [.atom 'P' []]).request root (.ofFormulae [.atom 'Q' []])
  let t := t.request root (.ofFormulae [.neg (.atom 'P' [])])
  ((t.removeChild? root 1).getD t).close 2

/-- A tree that has never had a second child. -/
def unbranched : Tree :=
  ((ofFormulae [.atom 'P' []]).request root (.ofFormulae [.neg (.atom 'P' [])])).close 1

/-- The place of an only child makes no difference. The first steps from `P ∨ Q` and from `P & Q` to
`P` lead to trees that are not alike. -/
theorem draw_eq_iff_alike_trimmed :
    let p : Formula := .atom 'P' []
    let q : Formula := .atom 'Q' []
    (trimmed.entry root).left = none ∧ (unbranched.entry root).right = none ∧
      Alike trimmed unbranched root root ∧
      ¬Alike (Prover.after 1 (Prover.start [.bin .disj p q] p)).tree
        (Prover.after 1 (Prover.start [.bin .conj p q] p)).tree root root := by
  intro p q
  have htrimmed : trimmed.Built := by
    have hpair := ((Built.single [.atom 'P' []]).request root (by decide)
      (.ofFormulae [.atom 'Q' []])).request root (by decide) (.ofFormulae [.neg (.atom 'P' [])])
    exact (@Built.removeChild _ _ root 1 hpair (by decide) (by decide) rfl).close (by decide)
  have hunbranched : unbranched.Built :=
    ((Built.single [.atom 'P' []]).request root (by decide)
      (.ofFormulae [.neg (.atom 'P' [])])).close (by decide)
  have hcapital {t : Tree} (h : ∀ id ∈ t.nodes, ∀ f ∈ (t.entry id).formulae,
      Formula.read f.polish = .ok f) : t.AllCapitalized :=
    fun id hid f hf => Formula.capitalized_of_read (h id hid f hf)
  have halike := ((draw_eq_iff_alike .bracketed).1 trimmed unbranched htrimmed hunbranched
    (hcapital (by decide +kernel)) (hcapital (by decide +kernel))).mp (by decide +kernel)
  have hread {fs : List Formula} (h : ∀ f ∈ fs, Formula.read f.polish = .ok f) :
      ∀ f ∈ fs, ∃ text, Formula.read text = .ok f :=
    fun f hf => ⟨f.polish, h f hf⟩
  have hdiffer := ((draw_eq_iff_alike .polish).2 [.bin .disj p q] p [.bin .conj p q] p
    (hread (by decide)) (hread (by decide)) 1 1).not.mp (by decide +kernel)
  exact ⟨by decide +kernel, by decide +kernel, halike, hdiffer⟩

end Tree

end TruthTrees
