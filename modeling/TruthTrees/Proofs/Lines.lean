import Mathlib.Data.List.Forall2
import Mathlib.Data.List.Infix
import Mathlib.Tactic.SplitIfs
import TruthTrees.Argument.RawLines
import TruthTrees.Proofs.Scanning

/-!
# Lines of a text

The bytes of a text in UTF-8 have the lines of the text: a newline and a carriage return are bytes
of no other characters. The ends of the lines are blanks, so that a line says the same with its end
and without it. What ends with a newline is looked for at the ends of the lines only.
-/

namespace TruthTrees

/-! ### Bytes of a text -/

def Line.ofText (text : List Char) : Line :=
  text.flatMap String.utf8EncodeChar

/-- A byte of a single-byte character is in the code of no other character. -/
theorem eq_of_mem_utf8EncodeChar {c d : Char} (hd : d.toNat < 128)
    (h : UInt8.ofNat d.toNat ∈ String.utf8EncodeChar c) : c = d := by
  have hc : c.val.toNat = d.toNat := by
    simp only [String.utf8EncodeChar] at h
    split_ifs at h <;>
      simp only [List.mem_cons, List.not_mem_nil, or_false, ← UInt8.toNat_inj,
        UInt8.toNat_ofNat'] at h <;> omega
  exact Char.ext (UInt32.toNat_inj.mp hc)

theorem utf8EncodeChar_of_lt {c : Char} (h : c.toNat < 128) :
    String.utf8EncodeChar c = [UInt8.ofNat c.toNat] :=
  if_pos (Nat.le_of_lt_succ h)

theorem utf8EncodeChar_ne_nil (c : Char) : String.utf8EncodeChar c ≠ [] := by
  simp only [String.utf8EncodeChar]
  split_ifs <;> simp

namespace Line

@[simp] theorem ofText_cons (c : Char) (text : List Char) :
    ofText (c :: text) = String.utf8EncodeChar c ++ ofText text := rfl

@[simp] theorem ofText_append (s t : List Char) : ofText (s ++ t) = ofText s ++ ofText t :=
  List.flatMap_append

@[simp] theorem decode?_ofText (text : List Char) : (ofText text).decode? = some text := by
  have hbytes : (⟨(ofText text).toArray⟩ : ByteArray) = text.utf8Encode :=
    ByteArray.ext List.data_toByteArray.symm
  have hvalid : (⟨(ofText text).toArray⟩ : ByteArray).IsValidUTF8 := ⟨text, hbytes⟩
  have hstring : String.fromUTF8 _ hvalid = String.ofList text := by
    rw [← String.toByteArray_inj, String.toByteArray_ofList]
    exact hbytes
  rw [decode?, String.fromUTF8?, dif_pos hvalid, hstring, Option.map_some, String.toList_ofList]

theorem decode?_eq_some {line : Line} {text : List Char} :
    line.decode? = some text ↔ line = ofText text := by
  constructor
  · intro h
    obtain ⟨s, hs, rfl⟩ := Option.map_eq_some_iff.mp h
    unfold String.fromUTF8? at hs
    split_ifs at hs with hvalid
    have hbytes : (⟨line.toArray⟩ : ByteArray) = s.toList.utf8Encode := by
      rw [← String.toByteArray_ofList, String.ofList_toList, ← Option.some.inj hs]
      rfl
    have hdata := congrArg (fun bs => bs.data.toList) hbytes
    rwa [List.utf8Encode, List.toList_data_toByteArray] at hdata
  · rintro rfl
    exact decode?_ofText text

end Line

/-! ### Lines of a text and of its bytes -/

/-- The lines of a text. A newline at the very end does not begin another line. -/
def textLines : List Char → List (List Char)
  | [] => []
  | c :: text =>
    if c = '\n' then [] :: textLines text
    else
      match textLines text with
      | [] => [[c]]
      | line :: lines => (c :: line) :: lines

/-- Bytes without a newline belong to one line. -/
theorem linesOf_append {bs : List UInt8} (hne : bs ≠ []) (h : 10 ∉ bs) (rest : List UInt8) :
    linesOf (bs ++ rest) =
      match linesOf rest with
      | [] => [bs]
      | line :: lines => (bs ++ line) :: lines := by
  induction bs with
  | nil => exact absurd rfl hne
  | cons b bs ih =>
    have hb : b ≠ 10 := Ne.symm (List.ne_of_not_mem_cons h)
    have hbs : 10 ∉ bs := List.not_mem_of_not_mem_cons h
    simp only [List.cons_append, linesOf, if_neg hb]
    cases bs with
    | nil => rfl
    | cons b' bs =>
      rw [ih (List.cons_ne_nil _ _) hbs]
      cases linesOf rest <;> rfl

theorem linesOf_ofText (text : List Char) :
    linesOf (Line.ofText text) = (textLines text).map Line.ofText := by
  induction text with
  | nil => rfl
  | cons c text ih =>
    by_cases hc : c = '\n'
    · subst hc
      change linesOf (10 :: Line.ofText text) = _
      rw [linesOf, if_pos rfl, ih, textLines, if_pos rfl]
      rfl
    · have hnot : 10 ∉ String.utf8EncodeChar c :=
        fun h => hc (eq_of_mem_utf8EncodeChar (d := '\n') (by decide) h)
      rw [Line.ofText_cons, linesOf_append (utf8EncodeChar_ne_nil c) hnot, ih, textLines, if_neg hc]
      cases textLines text with
      | nil => rw [List.map_nil, List.map_singleton, Line.ofText, List.flatMap_singleton]
      | cons line lines => rw [List.map_cons, List.map_cons, Line.ofText_cons]

/-! ### Lines with and without their ends -/

theorem withoutBlanks_concat {d : Char} (hd : isBlank d) (t : List Char) :
    withoutBlanks (t ++ [d]) = withoutBlanks t := by
  simp [withoutBlanks, hd]

namespace Line

/-- The bytes of the line are a text that differs from the given one only in blanks. -/
def Spells (line : Line) (text : List Char) : Prop :=
  ∃ t, line = ofText t ∧ withoutBlanks t = withoutBlanks text

theorem spells_ofText (text : List Char) : (ofText text).Spells text :=
  ⟨text, rfl, rfl⟩

theorem Spells.append_newline {line : Line} {text : List Char} (h : line.Spells text) :
    Spells (line ++ [10]) text := by
  obtain ⟨t, rfl, ht⟩ := h
  refine ⟨t ++ ['\n'], ?_, ?_⟩
  · rw [ofText_append]
    rfl
  · rw [withoutBlanks_concat (by decide), ht]

theorem exists_of_getLast?_ofText {t : List Char} {d : Char} (hd : d.toNat < 128)
    (h : (ofText t).getLast? = some (UInt8.ofNat d.toNat)) :
    ∃ t', t = t' ++ [d] ∧ (ofText t).dropLast = ofText t' := by
  rcases List.eq_nil_or_concat t with rfl | ⟨t', c, rfl⟩
  · cases h
  · have hsingle : ofText [c] = String.utf8EncodeChar c := List.append_nil _
    rw [List.concat_eq_append, ofText_append, hsingle] at h ⊢
    rw [List.getLast?_append_of_ne_nil _ (utf8EncodeChar_ne_nil c)] at h
    obtain rfl := eq_of_mem_utf8EncodeChar hd (List.mem_of_getLast? h)
    exact ⟨t', rfl, by rw [utf8EncodeChar_of_lt hd, List.dropLast_concat]⟩

theorem Spells.chomp {line : Line} {text : List Char} (h : line.Spells text) :
    line.chomp.Spells text := by
  obtain ⟨t, rfl, ht⟩ := h
  unfold Line.chomp
  split_ifs with hnewline hreturn
  · obtain ⟨s, rfl, hs⟩ := exists_of_getLast?_ofText (d := '\n') (by decide) hnewline
    rw [hs] at hreturn ⊢
    obtain ⟨r, rfl, hr⟩ := exists_of_getLast?_ofText (d := '\r') (by decide) hreturn
    rw [withoutBlanks_concat (by decide), withoutBlanks_concat (by decide)] at ht
    exact ⟨r, hr, ht⟩
  · obtain ⟨s, rfl, hs⟩ := exists_of_getLast?_ofText (d := '\n') (by decide) hnewline
    rw [withoutBlanks_concat (by decide)] at ht
    exact ⟨s, hs, ht⟩
  · exact ⟨t, rfl, ht⟩

end Line

theorem forall₂_rawLines (bs : List UInt8) :
    List.Forall₂ (fun raw line => raw = line ∨ raw = line ++ [10]) (rawLines bs) (linesOf bs) := by
  induction bs with
  | nil => exact .nil
  | cons b bs ih =>
    unfold rawLines linesOf
    split_ifs with hb
    · subst hb
      exact .cons (.inr rfl) ih
    · generalize rawLines bs = raws at ih ⊢
      generalize linesOf bs = lines at ih ⊢
      cases ih with
      | nil => exact .cons (.inl rfl) .nil
      | cons h hs => exact .cons (by simpa using h) hs

theorem rawLines_spell (text : List Char) :
    List.Forall₂ Line.Spells (rawLines (Line.ofText text)) (textLines text) := by
  have h := forall₂_rawLines (Line.ofText text)
  rw [linesOf_ofText, List.forall₂_map_right_iff] at h
  refine h.imp ?_
  rintro raw line (rfl | rfl)
  · exact Line.spells_ofText line
  · exact (Line.spells_ofText line).append_newline

theorem chomped_lines_spell (text : List Char) :
    List.Forall₂ Line.Spells ((rawLines (Line.ofText text)).map Line.chomp) (textLines text) := by
  rw [List.forall₂_map_left_iff]
  exact (rawLines_spell text).imp fun _ _ h => h.chomp

/-! ### Occurrences in a text -/

def occurrencesIn (text pattern : List Char) : Nat :=
  text.tails.countP fun rest => pattern <+: rest

theorem occurrencesIn_cons (c : Char) (text pattern : List Char) :
    occurrencesIn (c :: text) pattern =
      occurrencesIn text pattern + if pattern <+: c :: text then 1 else 0 := by
  simp [occurrencesIn, List.countP_cons]

section Lines

variable {line words : List Char}

theorem occurrencesIn_of_newline_notMem (h : '\n' ∉ line) :
    occurrencesIn line (words ++ ['\n']) = 0 := by
  rw [occurrencesIn, List.countP_eq_zero]
  intro rest hrest hwords
  have hmem : '\n' ∈ rest := (of_decide_eq_true hwords).subset (by simp)
  exact h (((List.mem_tails _ _).mp hrest).subset hmem)

/-- What ends with a newline stands in a line at its end only. -/
theorem occurrencesIn_line (hwords : '\n' ∉ words) (hline : '\n' ∉ line) (text : List Char) :
    occurrencesIn (line ++ '\n' :: text) (words ++ ['\n']) =
      occurrencesIn text (words ++ ['\n']) + if words <:+ line then 1 else 0 := by
  have hstart {line : List Char} (hline : '\n' ∉ line) :
      words ++ ['\n'] <+: line ++ '\n' :: text ↔ words = line := by
    constructor
    · rintro ⟨rest, h⟩
      rw [List.append_assoc] at h
      exact (append_mark_inj hwords hline h).1
    · rintro rfl
      exact ⟨text, by simp⟩
  induction line with
  | nil =>
    rw [List.nil_append, occurrencesIn_cons, ← List.nil_append ('\n' :: text)]
    simp only [hstart hline, List.suffix_nil]
  | cons c line ih =>
    have hrest : '\n' ∉ line := List.not_mem_of_not_mem_cons hline
    rw [List.cons_append, occurrencesIn_cons, ih hrest, ← List.cons_append, Nat.add_assoc]
    simp only [hstart hline, List.suffix_cons_iff]
    by_cases hwhole : words = c :: line
    · have hnot : ¬words <:+ line := by
        intro h
        exact absurd (hwhole ▸ h.length_le) (Nat.not_succ_le_self _)
      rw [if_neg hnot, if_pos hwhole, if_pos (.inl hwhole)]
    · simp [hwhole]

end Lines

end TruthTrees
