import TruthTrees.Argument.Dialogue
import TruthTrees.Proofs.Lines

/-!
# Arguments that are entered and arguments in files

A dialogue takes the lines before the first blank one for premises and the lines behind it for the
conclusion; what is not a formula costs one complaint and is otherwise passed over. A file holds the
lines that a dialogue accepts, and any blank lines. There a line that is not a formula ends the
reading.
-/

namespace TruthTrees

namespace Formula

def read? (text : List Char) : Option Formula :=
  (read text).toOption

def fault? (text : List Char) : Option Fault :=
  match read text with
  | .ok _ => none
  | .error fault => some fault

def isReadable (text : List Char) : Bool :=
  (read? text).isSome

theorem read_cases (text : List Char) :
    (∃ f, read text = .ok f ∧ read? text = some f ∧ fault? text = none) ∨
      ∃ fault, read text = .error fault ∧ read? text = none ∧ fault? text = some fault := by
  unfold read? fault?
  cases h : read text with
  | ok f => exact .inl ⟨f, rfl, rfl, rfl⟩
  | error fault => exact .inr ⟨fault, rfl, rfl, rfl⟩

theorem read?_of_fault? {text : List Char} {fault : Fault} (h : fault? text = some fault) :
    read? text = none := by
  rcases read_cases text with ⟨_, -, -, hnone⟩ | ⟨_, -, hnone, -⟩
  · rw [hnone] at h
    cases h
  · exact hnone

theorem read_congr {s t : List Char} (h : withoutBlanks s = withoutBlanks t) : read s = read t := by
  unfold read lexemes
  rw [h]

theorem read?_withoutBlanks (text : List Char) : read? (withoutBlanks text) = read? text := by
  have h : withoutBlanks (withoutBlanks text) = withoutBlanks text := by simp [withoutBlanks]
  rw [read?, read_congr h, ← read?]

end Formula

theorem isBlankText_congr {s t : List Char} (h : withoutBlanks s = withoutBlanks t) :
    isBlankText s = isBlankText t := by
  have hblank : ∀ cs, isBlankText cs = (withoutBlanks cs).isEmpty := by
    intro cs
    rw [Bool.eq_iff_iff]
    simp [isBlankText, withoutBlanks]
  rw [hblank, hblank, h]

namespace Dialogue

/-! ### One answer -/

section Answers

variable {d next : Dialogue} {answer : Option Line}

theorem run_of_ask (h : d.react answer = .ask next) (answers : List (Option Line)) :
    d.run (answer :: answers) = (.prompt d :: (next.run answers).1, (next.run answers).2) := by
  rw [run, h]

theorem run_of_askAgain {fault : Fault} (h : d.react answer = .askAgain fault)
    (answers : List (Option Line)) :
    d.run (answer :: answers) =
      (.prompt d :: .complaint d fault :: (d.run answers).1, (d.run answers).2) := by
  rw [run, h]

theorem run_of_finish {result : Except Failure Argument} (h : d.react answer = .finish result)
    (answers : List (Option Line)) : d.run (answer :: answers) = ([.prompt d], result) := by
  rw [run, h]

end Answers

theorem react_of_spells {line : Line} {text : List Char} (h : line.Spells text) (d : Dialogue) :
    d.react (some line) = d.reactTo text := by
  obtain ⟨t, rfl, ht⟩ := h
  simp only [react, Line.decode?_ofText]
  cases d <;> simp only [reactTo, Formula.read_congr ht, isBlankText_congr ht]

/-- A dialogue depends only on what the lines say. -/
theorem run_of_spell {lines : List Line} {texts : List (List Char)}
    (h : List.Forall₂ Line.Spells lines texts) (d : Dialogue) (answers : List (Option Line)) :
    d.run (lines.map some ++ answers) =
      d.run ((texts.map Line.ofText).map some ++ answers) := by
  induction h generalizing d with
  | nil => rfl
  | @cons line text lines texts hspells _ ih =>
    have hreact : d.react (some line) = d.react (some (Line.ofText text)) := by
      rw [react_of_spells hspells, react_of_spells (Line.spells_ofText text)]
    simp only [List.map_cons, List.cons_append]
    unfold run
    rw [hreact]
    cases d.react (some (Line.ofText text)) <;> simp only [ih]

/-! ### What is said -/

theorem newline_notMem_prompt (d : Dialogue) : '\n' ∉ d.prompt.toList := by
  cases d with
  | premise ps =>
    have hdigits : '\n' ∉ Nat.toDigits 10 (ps.length + 1) := by
      intro h
      exact absurd (Nat.isDigit_of_mem_toDigits (by decide) (by decide) h) (by decide)
    change '\n' ∉ ("Premise " ++ toString (ps.length + 1) ++ ": ").toList
    simpa using hdigits
  | conclusion ps => simp [prompt]

def complaintWords (d : Dialogue) : List Char :=
  d.complaint.toList.dropLast

theorem complaint_toList (d : Dialogue) :
    d.complaint.toList = d.complaintWords ++ ['\n'] ∧ '\n' ∉ d.complaintWords := by
  cases d <;> simp [complaintWords, complaint]

/-- A complaint at the end of a line is told from the other one, whatever is said before it. -/
theorem complaintWords_suffix_iff {d e : Dialogue} (before : List Char) :
    d.complaintWords <:+ before ++ e.complaintWords ↔ e.complaint = d.complaint := by
  have hapart : ¬(premise []).complaintWords <:+ (conclusion []).complaintWords ∧
      ¬(conclusion []).complaintWords <:+ (premise []).complaintWords := by decide
  constructor
  · intro h
    have hends : d.complaintWords <:+ e.complaintWords ∨ e.complaintWords <:+ d.complaintWords :=
      List.suffix_or_suffix_of_suffix h (List.suffix_append _ _)
    cases d with
    | premise ps =>
      cases e with
      | premise qs => rfl
      | conclusion qs => exact (not_or.mpr hapart hends).elim
    | conclusion ps =>
      cases e with
      | premise qs => exact (not_or.mpr hapart hends.symm).elim
      | conclusion qs => rfl
  · intro h
    rw [complaintWords, complaintWords, h]
    exact List.suffix_append _ _

theorem prompt_ne_complaint (d e : Dialogue) : d.prompt ≠ e.complaint := by
  intro h
  have hnewline : '\n' ∈ e.complaint.toList := by simp [e.complaint_toList.1]
  exact d.newline_notMem_prompt (h ▸ hnewline)

theorem occurrencesIn_remarks (d : Dialogue) (remarks : List Remark) (before : List Char)
    (hbefore : '\n' ∉ before) :
    occurrencesIn (before ++ (String.join (remarks.map Remark.text)).toList) d.complaint.toList =
      remarks.countP (·.text = d.complaint) := by
  obtain ⟨hcomplaint, hwords⟩ := d.complaint_toList
  -- `before` is the beginning of the line: a question makes it longer, a complaint ends the line
  induction remarks generalizing before with
  | nil =>
    rw [hcomplaint]
    simpa using occurrencesIn_of_newline_notMem hbefore
  | cons remark remarks ih =>
    rw [List.map_cons, String.join_cons, String.toList_append, List.countP_cons]
    cases remark with
    | prompt e =>
      have hline : '\n' ∉ before ++ e.prompt.toList := by
        simpa using ⟨hbefore, e.newline_notMem_prompt⟩
      rw [← List.append_assoc, Remark.text, ih _ hline]
      simp [prompt_ne_complaint]
    | complaint e fault =>
      obtain ⟨hsaid, hnot⟩ := e.complaint_toList
      have hline : '\n' ∉ before ++ e.complaintWords := by simpa using ⟨hbefore, hnot⟩
      have hrest := ih [] List.not_mem_nil
      rw [List.nil_append] at hrest
      rw [Remark.text, hsaid, List.append_assoc, ← List.append_assoc before, hcomplaint,
        List.singleton_append, occurrencesIn_line hwords hline, ← hcomplaint, hrest]
      simp only [complaintWords_suffix_iff, decide_eq_true_eq]

/-- The greeting is left out, because it is no complaint. -/
theorem occurrencesIn_transcript (d : Dialogue) (remarks : List Remark) :
    occurrencesIn (transcript remarks).toList d.complaint.toList =
      remarks.countP (·.text = d.complaint) := by
  obtain ⟨hcomplaint, hwords⟩ := d.complaint_toList
  have hremarks := occurrencesIn_remarks d remarks [] List.not_mem_nil
  have hlines : (transcript remarks).toList =
      "Please enter each premise followed by Enter.".toList ++
        '\n' :: ("Enter a blank premise when done.".toList ++
          '\n' :: (String.join (remarks.map Remark.text)).toList) := by
    simp [transcript, greeting]
  have hmark : '!' ∈ d.complaintWords := by
    cases d <;> simp [complaintWords, complaint]
  have hfirst : ¬d.complaintWords <:+ "Please enter each premise followed by Enter.".toList :=
    fun h => absurd (h.subset hmark) (by simp)
  have hsecond : ¬d.complaintWords <:+ "Enter a blank premise when done.".toList :=
    fun h => absurd (h.subset hmark) (by simp)
  rw [List.nil_append, hcomplaint] at hremarks
  rw [hlines, hcomplaint, occurrencesIn_line hwords (by simp), if_neg hfirst, Nat.add_zero,
    occurrencesIn_line hwords (by simp), if_neg hsecond, Nat.add_zero, hremarks]

/-! ### A whole dialogue -/

/-- The lines before the first blank one. -/
def premiseLines (lines : List (List Char)) : List (List Char) :=
  lines.takeWhile (!isBlankText ·)

/-- The lines behind the first blank one. -/
def conclusionLines (lines : List (List Char)) : List (List Char) :=
  (lines.dropWhile (!isBlankText ·)).tail

/-- The premises, and the conclusion if there is one, as they were entered. -/
def acceptedLines (lines : List (List Char)) : List (List Char) :=
  (premiseLines lines).filter Formula.isReadable ++
    ((conclusionLines lines).find? Formula.isReadable).toList

/-- What comes out of a dialogue, and how often it is complained about a premise and about a
conclusion. -/
structure Course (premises : List Formula) (conclusion : Option Formula)
    (badPremises badConclusions : Nat) (r : List Remark × Except Failure Argument) : Prop where
  result : r.2 = conclusion.elim (.error .noConclusion) fun c => .ok ⟨premises, c⟩
  aboutPremises :
    r.1.countP (·.text = "Poorly formed premise! Please re-enter.\n") = badPremises
  aboutConclusions :
    r.1.countP (·.text = "Poorly formed conclusion! Please re-enter.\n") = badConclusions

namespace Course

variable {premises : List Formula} {conclusion : Option Formula} {m n : Nat}
  {r : List Remark × Except Failure Argument}

theorem prompt (h : Course premises conclusion m n r) (d : Dialogue) :
    Course premises conclusion m n (.prompt d :: r.1, r.2) := by
  have hpremise : (Remark.prompt d).text ≠ "Poorly formed premise! Please re-enter.\n" :=
    prompt_ne_complaint d (.premise [])
  have hconclusion : (Remark.prompt d).text ≠ "Poorly formed conclusion! Please re-enter.\n" :=
    prompt_ne_complaint d (.conclusion [])
  refine ⟨h.result, ?_, ?_⟩
  · rw [List.countP_cons_of_neg (by simpa using hpremise), h.aboutPremises]
  · rw [List.countP_cons_of_neg (by simpa using hconclusion), h.aboutConclusions]

theorem aboutPremise (h : Course premises conclusion m n r) (ps : List Formula) (fault : Fault) :
    Course premises conclusion (m + 1) n (.complaint (.premise ps) fault :: r.1, r.2) := by
  refine ⟨h.result, ?_, ?_⟩
  · rw [List.countP_cons_of_pos rfl, h.aboutPremises]
  · rw [List.countP_cons_of_neg (by simp [Remark.text, complaint]), h.aboutConclusions]

theorem aboutConclusion (h : Course premises conclusion m n r) (ps : List Formula)
    (fault : Fault) :
    Course premises conclusion m (n + 1) (.complaint (.conclusion ps) fault :: r.1, r.2) := by
  refine ⟨h.result, ?_, ?_⟩
  · rw [List.countP_cons_of_neg (by simp [Remark.text, complaint]), h.aboutPremises]
  · rw [List.countP_cons_of_pos rfl, h.aboutConclusions]

theorem eq_ok_iff (h : Course premises conclusion m n r) {a : Argument} :
    r.2 = .ok a ↔ a.premises = premises ∧ conclusion = some a.conclusion := by
  obtain ⟨ps, c⟩ := a
  rw [h.result]
  cases conclusion <;> simp [eq_comm]

theorem eq_error_iff (h : Course premises conclusion m n r) {failure : Failure} :
    r.2 = .error failure ↔ failure = .noConclusion ∧ conclusion = none := by
  rw [h.result]
  cases conclusion <;> simp [eq_comm]

end Course

/-- Lines are asked for until one of them is a formula, or there are no more. -/
theorem course_conclusion (ps : List Formula) (texts : List (List Char))
    (answers : List (Option Line)) :
    Course ps (texts.findSome? Formula.read?) 0
      (texts.takeWhile (!Formula.isReadable ·)).length
      ((conclusion ps).run ((texts.map Line.ofText).map some ++ none :: answers)) := by
  induction texts with
  | nil =>
    rw [List.map_nil, List.map_nil, List.nil_append, run_of_finish rfl]
    exact Course.prompt (r := ([], _)) ⟨rfl, rfl, rfl⟩ _
  | cons text texts ih =>
    have hreact := react_of_spells (Line.spells_ofText text) (conclusion ps)
    simp only [List.map_cons, List.cons_append]
    rcases Formula.read_cases text with ⟨f, hread, hsome, -⟩ | ⟨fault, hread, hnone, -⟩
    · simp only [reactTo, hread] at hreact
      rw [run_of_finish hreact]
      simp only [List.findSome?_cons, hsome, List.takeWhile_cons, Formula.isReadable]
      exact Course.prompt (r := ([], _)) ⟨rfl, rfl, rfl⟩ _
    · simp only [reactTo, hread] at hreact
      rw [run_of_askAgain hreact]
      simp only [List.findSome?_cons, hnone, List.takeWhile_cons, Formula.isReadable]
      exact (ih.aboutConclusion ps fault).prompt _

/-- The premises that were given before come first. -/
theorem course_premise (ps : List Formula) (texts : List (List Char)) :
    Course (ps ++ (premiseLines texts).filterMap Formula.read?)
      ((conclusionLines texts).findSome? Formula.read?)
      ((premiseLines texts).countP (!Formula.isReadable ·))
      ((conclusionLines texts).takeWhile (!Formula.isReadable ·)).length
      ((premise ps).run ((texts.map Line.ofText).map some ++ [none, none])) := by
  unfold premiseLines conclusionLines
  induction texts generalizing ps with
  | nil =>
    rw [List.map_nil, List.map_nil, List.nil_append, run_of_ask rfl]
    have hend := course_conclusion ps [] []
    simpa using hend.prompt (premise ps)
  | cons text texts ih =>
    have hreact := react_of_spells (Line.spells_ofText text) (premise ps)
    simp only [List.map_cons, List.cons_append]
    by_cases hblank : isBlankText text
    · -- all that follows is asked for as a conclusion
      simp only [reactTo, hblank, if_true] at hreact
      rw [run_of_ask hreact]
      have hrest := course_conclusion ps texts [none]
      simpa [hblank] using hrest.prompt (premise ps)
    · rcases Formula.read_cases text with ⟨f, hread, hsome, -⟩ | ⟨fault, hread, hnone, -⟩
      · simp only [reactTo, hblank, hread] at hreact
        rw [run_of_ask hreact]
        simpa [hblank, hsome, Formula.isReadable] using (ih (ps ++ [f])).prompt (premise ps)
      · simp only [reactTo, hblank, hread] at hreact
        rw [run_of_askAgain hreact]
        simpa [hblank, hnone, Formula.isReadable] using
          ((ih ps).aboutPremise ps fault).prompt (premise ps)

theorem course_ofLines (texts : List (List Char)) :
    Course ((premiseLines texts).filterMap Formula.read?)
      ((conclusionLines texts).findSome? Formula.read?)
      ((premiseLines texts).countP (!Formula.isReadable ·))
      ((conclusionLines texts).takeWhile (!Formula.isReadable ·)).length
      (ofLines (texts.map Line.ofText)) :=
  course_premise [] texts

theorem ofLines_of_spell {lines : List Line} {texts : List (List Char)}
    (h : List.Forall₂ Line.Spells lines texts) :
    ofLines lines = ofLines (texts.map Line.ofText) :=
  run_of_spell h start [none, none]

theorem map_read?_filter (lines : List (List Char)) :
    (lines.filter Formula.isReadable).map Formula.read? =
      (lines.filterMap Formula.read?).map some := by
  induction lines with
  | nil => rfl
  | cons line lines ih => cases h : Formula.read? line <;> simp [Formula.isReadable, h, ih]

theorem map_read?_find? {lines : List (List Char)} {f : Formula}
    (h : lines.findSome? Formula.read? = some f) :
    (lines.find? Formula.isReadable).toList.map Formula.read? = [some f] := by
  induction lines with
  | nil => cases h
  | cons line lines ih =>
    cases hline : Formula.read? line with
    | none =>
      rw [List.findSome?_cons_of_isNone (by simp [hline])] at h
      simpa [Formula.isReadable, hline] using ih h
    | some g =>
      rw [List.findSome?_cons_of_isSome (by simp [hline])] at h
      simp [Formula.isReadable, hline, ← h]

theorem map_read?_acceptedLines {lines : List (List Char)} {a : Argument}
    (hpremises : a.premises = (premiseLines lines).filterMap Formula.read?)
    (hconclusion : (conclusionLines lines).findSome? Formula.read? = some a.conclusion) :
    (acceptedLines lines).map Formula.read? = (a.premises ++ [a.conclusion]).map some := by
  rw [acceptedLines, List.map_append, map_read?_filter, map_read?_find? hconclusion, ← hpremises,
    List.map_append, List.map_singleton]

end Dialogue

/-! ### Files -/

theorem readLines_cons_of_spells {line : Line} {text : List Char} (h : line.Spells text)
    (lines : List Line) : readLines (line :: lines) = readLines (Line.ofText text :: lines) := by
  obtain ⟨t, rfl, ht⟩ := h
  simp only [readLines, Line.decode?_ofText, Formula.read_congr ht, isBlankText_congr ht]

theorem readLines_of_spell {lines : List Line} {texts : List (List Char)}
    (h : List.Forall₂ Line.Spells lines texts) :
    readLines lines = readLines (texts.map Line.ofText) := by
  induction h with
  | nil => rfl
  | @cons line text lines texts hspells _ ih =>
    rw [readLines_cons_of_spells hspells, List.map_cons]
    simp only [readLines, ih]

def nonblankLines (lines : List (List Char)) : List (List Char) :=
  lines.filter (!isBlankText ·)

theorem nonblankLines_eq_nil {lines : List (List Char)} :
    nonblankLines lines = [] ↔ ∀ line ∈ lines, isBlankText line := by
  simp [nonblankLines, List.filter_eq_nil_iff]

/-- The first fault ends the reading of a file. Without one, all that is not blank is read. -/
theorem readLines_texts (texts : List (List Char)) :
    (∃ fault fs, (nonblankLines texts).findSome? Formula.fault? = some fault ∧
      readLines (texts.map Line.ofText) = (fs, some (.malformed fault))) ∨
    ∃ fs, (nonblankLines texts).findSome? Formula.fault? = none ∧
      (nonblankLines texts).map Formula.read? = fs.map some ∧
      readLines (texts.map Line.ofText) = (fs, none) := by
  unfold nonblankLines
  induction texts with
  | nil => exact .inr ⟨[], rfl, rfl, rfl⟩
  | cons text texts ih =>
    simp only [List.map_cons, readLines, Line.decode?_ofText]
    by_cases hblank : isBlankText text
    · simpa [hblank] using ih
    · rcases Formula.read_cases text with ⟨f, hread, hsome, hnone⟩ | ⟨fault, hread, -, hfault⟩
      · rcases ih with ⟨fault, fs, hfirst, hlines⟩ | ⟨fs, hfirst, hfs, hlines⟩
        · exact .inl ⟨fault, f :: fs, by simpa [hblank, hnone] using hfirst,
            by simp [hblank, hread, hlines]⟩
        · exact .inr ⟨f :: fs, by simpa [hblank, hnone] using hfirst,
            by simpa [hblank, hsome] using hfs, by simp [hblank, hread, hlines]⟩
      · exact .inl ⟨fault, [], by simp [hblank, hfault], by simp [hblank, hread]⟩

namespace Argument

theorem ofFormulae_eq_ok {fs : List Formula} {a : Argument} :
    ofFormulae fs = .ok a ↔ fs = a.premises ++ [a.conclusion] := by
  rcases List.eq_nil_or_concat fs with rfl | ⟨fs, f, rfl⟩
  · simp [ofFormulae]
  · obtain ⟨premises, conclusion⟩ := a
    simp [ofFormulae]

theorem ofFormulae_eq_error {fs : List Formula} {failure : Failure} :
    ofFormulae fs = .error failure ↔ failure = .noConclusion ∧ fs = [] := by
  rcases List.eq_nil_or_concat fs with rfl | ⟨fs, f, rfl⟩
  · simp [ofFormulae, eq_comm]
  · simp [ofFormulae]

section Texts

variable {texts : List (List Char)}

theorem ofLines_of_spell {lines : List Line} (h : List.Forall₂ Line.Spells lines texts) :
    ofLines lines = ofLines (texts.map Line.ofText) := by
  rw [ofLines, readLines_of_spell h, ofLines]

theorem ofLines_eq_ok {a : Argument} :
    ofLines (texts.map Line.ofText) = .ok a ↔
      (nonblankLines texts).map Formula.read? = (a.premises ++ [a.conclusion]).map some := by
  rcases readLines_texts texts with ⟨fault, fs, hfirst, hlines⟩ | ⟨fs, -, hfs, hlines⟩
  · obtain ⟨line, hline, hfault⟩ := List.exists_of_findSome?_eq_some hfirst
    constructor
    · intro hok
      simp [ofLines, hlines] at hok
    · intro hmap
      have hmem : Formula.read? line ∈ (a.premises ++ [a.conclusion]).map some :=
        hmap ▸ List.mem_map_of_mem hline
      obtain ⟨f, -, hf⟩ := List.mem_map.mp hmem
      rw [Formula.read?_of_fault? hfault] at hf
      cases hf
  · rw [hfs, List.map_inj_right fun _ _ => Option.some.inj, ← ofFormulae_eq_ok]
    simp [ofLines, hlines]

theorem ofLines_eq_error {failure : Failure} :
    ofLines (texts.map Line.ofText) = .error failure ↔
      (∃ fault, failure = .malformed fault ∧
        (nonblankLines texts).findSome? Formula.fault? = some fault) ∨
      (failure = .noConclusion ∧ ∀ text ∈ texts, isBlankText text) := by
  rw [← nonblankLines_eq_nil]
  rcases readLines_texts texts with ⟨fault, fs, hfirst, hlines⟩ | ⟨fs, hfirst, hfs, hlines⟩
  · have hne : nonblankLines texts ≠ [] := by
      intro hnil
      rw [hnil] at hfirst
      cases hfirst
    simp [ofLines, hlines, hfirst, hne, eq_comm]
  · have hnil : nonblankLines texts = [] ↔ fs = [] := by
      rw [← List.map_eq_nil_iff (f := Formula.read?), hfs, List.map_eq_nil_iff]
    have hresult : ofLines (texts.map Line.ofText) = ofFormulae fs := by
      simp [ofLines, hlines]
    rw [hresult, ofFormulae_eq_error, hnil]
    simp [hfirst]

end Texts

end Argument

/-! ### Agreement -/

/-- In a dialogue the formulae before the first blank line are the premises and the first formula
behind it is the conclusion, and every line that is passed over costs one complaint, among the
remarks and in what is said on the whole. A file that has the accepted lines up to blanks, and any
blank lines, holds the same argument. A file is not read because of its first line that is neither
blank nor a formula, or because all its lines are blank. It makes no difference whether the lines
come with their ends. -/
theorem entries_agree_with_files {input : List UInt8} {text : List Char}
    (hinput : Line.decode? input = some text) :
    let lines := textLines text
    let premises := Dialogue.premiseLines lines
    let rest := Dialogue.conclusionLines lines
    let entered := Dialogue.ofLines (linesOf input)
    let said := (Dialogue.transcript entered.1).toList
    let filed := Argument.ofLines (linesOf input)
    (∀ a, entered.2 = .ok a ↔
      a.premises = premises.filterMap Formula.read? ∧
        rest.findSome? Formula.read? = some a.conclusion) ∧
    (∀ failure, entered.2 = .error failure ↔
      failure = .noConclusion ∧ ∀ line ∈ rest, Formula.read? line = none) ∧
    entered.1.countP (·.text = "Poorly formed premise! Please re-enter.\n") =
      premises.countP (!Formula.isReadable ·) ∧
    entered.1.countP (·.text = "Poorly formed conclusion! Please re-enter.\n") =
      (rest.takeWhile (!Formula.isReadable ·)).length ∧
    occurrencesIn said "Poorly formed premise! Please re-enter.\n".toList =
      premises.countP (!Formula.isReadable ·) ∧
    occurrencesIn said "Poorly formed conclusion! Please re-enter.\n".toList =
      (rest.takeWhile (!Formula.isReadable ·)).length ∧
    (∀ a, entered.2 = .ok a → ∀ file content, Line.decode? file = some content →
      (nonblankLines (textLines content)).map withoutBlanks =
        (Dialogue.acceptedLines lines).map withoutBlanks →
      Argument.ofLines (linesOf file) = .ok a) ∧
    (∀ failure, filed = .error failure ↔
      (∃ fault, failure = .malformed fault ∧
        (nonblankLines lines).findSome? Formula.fault? = some fault) ∨
      (failure = .noConclusion ∧ ∀ line ∈ lines, isBlankText line)) ∧
    Dialogue.ofLines (rawLines input) = entered ∧
    Argument.ofLines ((rawLines input).map Line.chomp) = filed ∧
    Failure.noConclusion.kind = "InputError" ∧
    Failure.noConclusion.message = "no conclusion given" ∧
    ∀ fault, (Failure.malformed fault).kind = "SyntaxError" := by
  obtain rfl := Line.decode?_eq_some.mp hinput
  intro lines premises rest entered said filed
  have hlines : linesOf (Line.ofText text) = lines.map Line.ofText := linesOf_ofText text
  have hentered : entered = Dialogue.ofLines (lines.map Line.ofText) := by
    simp only [entered, hlines]
  have hfiled : filed = Argument.ofLines (lines.map Line.ofText) := by
    simp only [filed, hlines]
  have hcourse := Dialogue.course_ofLines lines
  rw [← hentered] at hcourse
  refine ⟨?_, ?_, hcourse.aboutPremises, hcourse.aboutConclusions, ?_, ?_, ?_, ?_, ?_, ?_, rfl, rfl,
    fun _ => rfl⟩
  · intro a
    exact hcourse.eq_ok_iff
  · intro failure
    rw [hcourse.eq_error_iff, List.findSome?_eq_none_iff]
  · exact (Dialogue.occurrencesIn_transcript (.premise []) _).trans hcourse.aboutPremises
  · exact (Dialogue.occurrencesIn_transcript (.conclusion []) _).trans hcourse.aboutConclusions
  · intro a ha file content hfile haccepted
    obtain rfl := Line.decode?_eq_some.mp hfile
    obtain ⟨hpremises, hconclusion⟩ := hcourse.eq_ok_iff.mp ha
    have hread : ∀ ls : List (List Char),
        ls.map Formula.read? = (ls.map withoutBlanks).map Formula.read? := by
      intro ls
      simp [Formula.read?_withoutBlanks]
    rw [linesOf_ofText, Argument.ofLines_eq_ok, hread, haccepted, ← hread]
    exact Dialogue.map_read?_acceptedLines hpremises hconclusion
  · intro failure
    rw [hfiled]
    exact Argument.ofLines_eq_error
  · rw [hentered]
    exact Dialogue.ofLines_of_spell (rawLines_spell text)
  · rw [hfiled]
    exact Argument.ofLines_of_spell (chomped_lines_spell text)

/-- Two premises and a conclusion, with a bad premise, two bad conclusions and carriage returns. -/
def hesitant : List Char :=
  "(P>Q)\n)\r\nP\r\n \n)(\n\nQ\nR".toList

theorem entries_agree_with_files_hesitant :
    let input := Line.ofText hesitant
    let entered := Dialogue.ofLines (linesOf input)
    let said := (Dialogue.transcript entered.1).toList
    let a : Argument := ⟨[.bin .impl (.atom 'P' []) (.atom 'Q' []), .atom 'P' []], .atom 'Q' []⟩
    Line.decode? input = some hesitant ∧ entered.2 = .ok a ∧
      entered.1.countP (·.text = "Poorly formed premise! Please re-enter.\n") = 1 ∧
      entered.1.countP (·.text = "Poorly formed conclusion! Please re-enter.\n") = 2 ∧
      occurrencesIn said "Poorly formed premise! Please re-enter.\n".toList = 1 ∧
      occurrencesIn said "Poorly formed conclusion! Please re-enter.\n".toList = 2 ∧
      Argument.ofLines (linesOf (Line.ofText "\n(P > Q)\n\t\nP\nQ\r\n\n".toList)) = .ok a ∧
      Argument.ofLines (linesOf input) = .error (.malformed (.unbalanced [.closing])) := by
  intro input entered said a
  have hinput : Line.decode? input = some hesitant := Line.decode?_ofText hesitant
  obtain ⟨hok, -, hpremises, hconclusions, hsaid, hsaidLast, hfile, hfiled, -⟩ :=
    entries_agree_with_files hinput
  have ha : entered.2 = .ok a := (hok a).mpr ⟨rfl, rfl⟩
  refine ⟨hinput, ha, hpremises.trans rfl, hconclusions.trans rfl, hsaid.trans rfl,
    hsaidLast.trans rfl, ?_, ?_⟩
  · exact hfile a ha _ _ (Line.decode?_ofText _) rfl
  · exact (hfiled _).mpr (.inl ⟨_, rfl, rfl⟩)

end TruthTrees
