import Mathlib.Data.List.DropRight
import ScriptModel.Includes.Log

/-!
# What the summary of a log tells

A summary has a part for each category with entries: the count, the word for files, and the
words of the category. Commas stand between the parts and nowhere else, so the counts can be
read back, and those that are not there are zero. And nothing but the counts of the reports
since the log was last emptied makes the summary.
-/

namespace ScriptModel.Includes

/-- How many inclusions of each kind. -/
structure Counts where
  resolved : Nat
  unresolved : Nat
  missing : Nat
  deriving DecidableEq

/-! ## Counting reports -/

namespace Report

def isReset : Report → Bool
  | reset => true
  | _ => false

def isResolved : Report → Bool
  | resolved _ => true
  | _ => false

def isUnresolved : Report → Bool
  | unresolved _ => true
  | _ => false

def isMissing : Report → Bool
  | missing _ => true
  | _ => false

/-- What was reported since the log was last emptied. -/
def sinceReset (reports : List Report) : List Report :=
  reports.rtakeWhile fun r => !r.isReset

/-- How many reports there are of each kind. -/
def count (reports : List Report) : Counts :=
  ⟨reports.countP isResolved, reports.countP isUnresolved, reports.countP isMissing⟩

end Report

namespace Log

/-- The log after the reports, which begins empty. -/
def ofReports (reports : List Report) : Log := reports.foldl add empty

def counts (l : Log) : Counts := ⟨l.resolved.length, l.unresolved.length, l.missing.length⟩

/-- The entries of a log are the reports since it was last emptied. -/
theorem counts_ofReports (reports : List Report) :
    (ofReports reports).counts = Report.count (Report.sinceReset reports) := by
  induction reports using List.reverseRecOn with
  | nil => rfl
  | append_singleton reports r ih =>
    have hadd : ofReports (reports ++ [r]) = (ofReports reports).add r :=
      List.foldl_concat ..
    rw [hadd, Report.sinceReset, List.rtakeWhile_concat]
    unfold counts Report.count Report.sinceReset at ih
    rw [Counts.mk.injEq] at ih
    obtain ⟨hresolved, hunresolved, hmissing⟩ := ih
    cases r <;> simp [add, counts, Report.count, Report.isReset, Report.isResolved,
      Report.isUnresolved, Report.isMissing, hresolved, hunresolved, hmissing, empty]

end Log

/-! ## Reading a summary -/

namespace Summary

/-- The words of a part, without the one that announces the last part. -/
def words (part : List Char) : List (List Char) :=
  (part.splitOn ' ').filter fun w => decide (w ≠ [] ∧ w ≠ "and".toList)

/-- The words of every part. -/
def parts (text : String) : List (List (List Char)) := (text.toList.splitOn ',').map words

/-- The count in a part, where the part is about the category. -/
def countOf? (category : String) : List (List Char) → Option Nat
  | number :: _ :: about =>
    if about = words category.toList then some (Nat.ofDigitChars 10 number 0) else none
  | _ => none

/-- The count of a category, which is zero where no part is about it. -/
def countOf (category text : String) : Nat :=
  ((parts text).findSome? (countOf? category)).getD 0

/-- The counts that a summary tells. -/
def read (text : String) : Counts :=
  ⟨countOf "resolved" text, countOf "not resolved" text, countOf "missing" text⟩

/-! ## Words -/

/-- A word that is kept as it is. -/
def IsWord (w : List Char) : Prop := w ≠ [] ∧ w ≠ "and".toList ∧ ' ' ∉ w

instance : DecidablePred IsWord := fun _ => inferInstanceAs (Decidable (_ ∧ _ ∧ _))

theorem words_cons_space (part : List Char) : words (' ' :: part) = words part := by
  have hsplit := @List.splitOnP_append_cons_of_forall_mem _ (· == ' ') [] nofun ' ' rfl part
  rw [words, List.splitOn_eq_splitOnP, List.nil_append] at *
  rw [hsplit, List.filter_cons_of_neg (by decide), ← List.splitOn_eq_splitOnP]
  rfl

/-- The announcement does not count. -/
theorem words_announced (part : List Char) :
    words ("and ".toList ++ part) = words part := by
  have hsplit := @List.splitOnP_append_cons_of_forall_mem _ (· == ' ') "and".toList
    (by simp) ' ' rfl part
  rw [words, List.splitOn_eq_splitOnP]
  show List.filter _ (List.splitOnP (· == ' ') ("and".toList ++ ' ' :: part)) = _
  rw [hsplit, List.filter_cons_of_neg (by decide), ← List.splitOn_eq_splitOnP]
  rfl

/-- Words between blanks are read back. -/
theorem words_intercalate {ws : List (List Char)} (hne : ws ≠ []) (h : ∀ w ∈ ws, IsWord w) :
    words (List.intercalate [' '] ws) = ws := by
  rw [words, List.splitOn_intercalate ' ' (fun w hw => (h w hw).2.2) hne,
    List.filter_eq_self]
  intro w hw
  obtain ⟨hnil, hand, -⟩ := h w hw
  exact decide_eq_true ⟨hnil, hand⟩

/-! ## Parts -/

/-- A comma and a blank between the parts leave a blank in front of all but the first. -/
theorem intercalate_comma_space (p : List Char) (ps : List (List Char)) :
    List.intercalate [',', ' '] (p :: ps) =
      List.intercalate [','] (p :: ps.map (' ' :: ·)) := by
  induction ps generalizing p with
  | nil => rfl
  | cons q ps ih =>
    rw [List.intercalate_cons_cons, ih, List.map_cons, List.intercalate_cons_cons]
    cases ps <;> simp [List.intercalate_cons_cons]

/-- Parts without commas are read back from the text. -/
theorem parts_intercalate {ps : List String} (hne : ps ≠ [])
    (h : ∀ p ∈ ps, ',' ∉ p.toList) :
    parts (", ".intercalate ps) = ps.map fun p => words p.toList := by
  obtain ⟨p, ps, rfl⟩ := List.exists_cons_of_ne_nil hne
  have hcommas : ∀ part ∈ p.toList :: (ps.map String.toList).map (' ' :: ·), ',' ∉ part := by
    simpa using h
  rw [parts, String.toList_intercalate, List.map_cons]
  show List.map words (List.splitOn ',' (List.intercalate [',', ' '] _)) = _
  rw [intercalate_comma_space, List.splitOn_intercalate ',' hcommas (List.cons_ne_nil _ _)]
  simp [words_cons_space]

/-- The announcement of the last part changes no words. -/
theorem map_words_announceLast (ps : List String) :
    (Log.announceLast ps).map (fun p => words p.toList) = ps.map fun p => words p.toList := by
  induction ps using Log.announceLast.induct with
  | case1 => rfl
  | case2 s =>
    rw [Log.announceLast, List.map_singleton, String.toList_append, words_announced]
    rfl
  | case3 s ss hne ih =>
    rw [Log.announceLast.eq_3 s ss hne, List.map_cons, List.map_cons, ih]

theorem announceLast_ne_nil {ps : List String} (h : ps ≠ []) :
    Log.announceLast ps ≠ [] := by
  intro hnil
  have hlength := congrArg List.length (map_words_announceLast ps)
  rw [hnil, List.length_map, List.length_map] at hlength
  exact h (List.eq_nil_of_length_eq_zero hlength.symm)

theorem comma_not_mem_announceLast {ps : List String} (h : ∀ p ∈ ps, ',' ∉ p.toList) :
    ∀ p ∈ Log.announceLast ps, ',' ∉ p.toList := by
  induction ps using Log.announceLast.induct with
  | case1 => exact h
  | case2 s => simpa [Log.announceLast] using h
  | case3 s ss hne ih =>
    rw [Log.announceLast.eq_3 s ss hne]
    rw [List.forall_mem_cons] at h ⊢
    exact ⟨h.1, ih h.2⟩

/-! ## Phrases -/

/-- The word for so many files. -/
def unit (n : Nat) : List Char := if n = 1 then "file".toList else "files".toList

theorem toList_files (n : Nat) : (files n).toList = Nat.toDigits 10 n ++ ' ' :: unit n := by
  unfold files unit
  split
  · rename_i h
    rw [h]
    decide
  · rw [String.toList_append, Nat.repr, String.toList_ofList]
    rfl

theorem isDigit_of_mem_toDigits {n : Nat} : ∀ c ∈ Nat.toDigits 10 n, c.isDigit = true :=
  fun _ hc => Nat.isDigit_of_mem_toDigits (by omega) (by omega) hc

theorem isWord_toDigits (n : Nat) : IsWord (Nat.toDigits 10 n) := by
  refine ⟨Nat.toDigits_ne_nil, fun hand => ?_, fun hspace => ?_⟩
  · have hletter : 'a' ∈ Nat.toDigits 10 n := by
      rw [hand]
      decide
    cases isDigit_of_mem_toDigits 'a' hletter
  · cases isDigit_of_mem_toDigits ' ' hspace

theorem isWord_unit (n : Nat) : IsWord (unit n) := by
  unfold unit
  split <;> decide

/-- The words of a part: the count, the word for files, and what it is about. -/
theorem words_phrase (n : Nat) {category : String} {about : List (List Char)}
    (hne : about ≠ []) (hcategory : category.toList = ' ' :: List.intercalate [' '] about)
    (h : ∀ w ∈ about, IsWord w) :
    words (files n ++ category).toList = Nat.toDigits 10 n :: unit n :: about := by
  obtain ⟨first, rest, rfl⟩ := List.exists_cons_of_ne_nil hne
  have htext : (files n ++ category).toList =
      List.intercalate [' '] (Nat.toDigits 10 n :: unit n :: first :: rest) := by
    rw [String.toList_append, toList_files, hcategory]
    simp [List.intercalate_cons_cons]
  rw [htext]
  refine words_intercalate (List.cons_ne_nil _ _) ?_
  rw [List.forall_mem_cons, List.forall_mem_cons]
  exact ⟨isWord_toDigits n, isWord_unit n, h⟩

/-- A character that stands neither in a number nor in the word for files can only come from
the category. -/
theorem not_mem_phrase {c : Char} (hdigit : c.isDigit = false) (hword : c ∉ " files".toList)
    (n : Nat) {category : String} (h : c ∉ category.toList) :
    c ∉ (files n ++ category).toList := by
  have hdigits : c ∉ Nat.toDigits 10 n := fun hc => by
    rw [isDigit_of_mem_toDigits c hc] at hdigit
    cases hdigit
  have hunit : ' ' :: unit n ⊆ " files".toList := by
    unfold unit
    split <;> decide
  rw [String.toList_append, toList_files, List.mem_append, List.mem_append]
  rintro ((hc | hc) | hc)
  · exact hdigits hc
  · exact hword (hunit hc)
  · exact h hc

/-! ## The counts in a summary -/

/-- What a summary says of one category: nothing where it has no entries. -/
def phrase (n : Nat) (category : String) : List String :=
  if n = 0 then [] else [files n ++ category]

/-- The phrases put together. -/
def sentence : List String → String
  | [] => "No files included"
  | [part] => part
  | parts => ", ".intercalate (Log.announceLast parts)

theorem summarise_eq (a b c : Nat) : Log.summarise a b c =
    sentence (phrase a " resolved" ++ phrase b " not resolved" ++ phrase c " missing") :=
  rfl

theorem parts_sentence {ps : List String} (hne : ps ≠ []) (h : ∀ p ∈ ps, ',' ∉ p.toList) :
    parts (sentence ps) = ps.map fun p => words p.toList := by
  unfold sentence
  split
  · exact absurd rfl hne
  · exact parts_intercalate hne h
  · rw [parts_intercalate (announceLast_ne_nil hne) (comma_not_mem_announceLast h),
      map_words_announceLast]

theorem comma_not_mem_of_mem_phrase {n : Nat} {category : String}
    (h : ',' ∉ category.toList) : ∀ p ∈ phrase n category, ',' ∉ p.toList := by
  unfold phrase
  split
  · exact nofun
  · rw [List.forall_mem_singleton]
    exact not_mem_phrase (by decide) (by decide) n h

/-- A phrase gives its count to the category that it is about, and to no other one. -/
theorem findSome?_phrase (n : Nat) {category asked : String} (about : List (List Char))
    (hne : about ≠ []) (hcategory : category.toList = ' ' :: List.intercalate [' '] about)
    (h : ∀ w ∈ about, IsWord w) :
    ((phrase n category).map fun p => words p.toList).findSome? (countOf? asked) =
      if n ≠ 0 ∧ about = words asked.toList then some n else none := by
  unfold phrase
  by_cases hn : n = 0
  · simp [hn]
  · rw [if_neg hn, List.map_singleton, words_phrase n hne hcategory h]
    simp [countOf?, hn, Nat.ofDigitChars_ten_toDigits]

/-- Where nothing is counted the summary is about no category. -/
theorem countOf_nothing {asked : String} (h : ["included".toList] ≠ words asked.toList) :
    countOf asked "No files included" = 0 := by
  have hparts : parts "No files included" =
      [["No".toList, "files".toList, "included".toList]] := by
    decide +kernel
  rw [countOf, hparts, List.findSome?_singleton, countOf?, if_neg h]
  rfl

theorem countOf_summarise (a b c : Nat) {asked : String}
    (h : ["included".toList] ≠ words asked.toList) :
    countOf asked (Log.summarise a b c) =
      ((if a ≠ 0 ∧ ["resolved".toList] = words asked.toList then some a else none).or
        ((if b ≠ 0 ∧ ["not".toList, "resolved".toList] = words asked.toList then some b
          else none).or
          (if c ≠ 0 ∧ ["missing".toList] = words asked.toList then some c
            else none))).getD 0 := by
  rw [summarise_eq]
  by_cases hnone : a = 0 ∧ b = 0 ∧ c = 0
  · obtain ⟨rfl, rfl, rfl⟩ := hnone
    exact countOf_nothing h
  · have hne :
        phrase a " resolved" ++ phrase b " not resolved" ++ phrase c " missing" ≠ [] := by
      unfold phrase
      split_ifs <;> simp_all
    have hcommas :
        ∀ p ∈ phrase a " resolved" ++ phrase b " not resolved" ++ phrase c " missing",
        ',' ∉ p.toList := by
      simp only [List.forall_mem_append]
      exact ⟨⟨comma_not_mem_of_mem_phrase (by decide), comma_not_mem_of_mem_phrase (by decide)⟩,
        comma_not_mem_of_mem_phrase (by decide)⟩
    rw [countOf, parts_sentence hne hcommas, List.map_append, List.map_append,
      List.findSome?_append, List.findSome?_append,
      findSome?_phrase a ["resolved".toList] (List.cons_ne_nil _ _) rfl (by decide),
      findSome?_phrase b ["not".toList, "resolved".toList] (List.cons_ne_nil _ _) rfl
        (by decide),
      findSome?_phrase c ["missing".toList] (List.cons_ne_nil _ _) rfl (by decide),
      Option.or_assoc]

/-- The counts can be computed from a summary. -/
theorem read_summarise (a b c : Nat) : read (Log.summarise a b c) = ⟨a, b, c⟩ := by
  have hresolved : words "resolved".toList = ["resolved".toList] := by decide +kernel
  have hunresolved : words "not resolved".toList = ["not".toList, "resolved".toList] := by
    decide +kernel
  have hmissing : words "missing".toList = ["missing".toList] := by decide +kernel
  rw [read, countOf_summarise a b c (by rw [hresolved]; decide),
    countOf_summarise a b c (by rw [hunresolved]; decide),
    countOf_summarise a b c (by rw [hmissing]; decide), hresolved, hunresolved, hmissing]
  congr 1
  · by_cases h : a = 0 <;> simp [h]
  · by_cases h : b = 0 <;> simp [h]
  · by_cases h : c = 0 <;> simp [h]

end Summary

/-- The summary after any reports is made from three counts, those of the reports of each
kind since the log was last emptied. Every three counts can be computed back from their
summary, a category that is not mentioned having none, so that two logs have one summary
just when they have the same counts. -/
theorem summary_tells_counts (reports : List Report) :
    let counts := Report.count (Report.sinceReset reports)
    (Log.ofReports reports).summary =
      Log.summarise counts.resolved counts.unresolved counts.missing ∧
    Summary.read (Log.ofReports reports).summary = counts ∧
    (∀ a b c, Summary.read (Log.summarise a b c) = ⟨a, b, c⟩) ∧
    ∀ others : List Report, (Log.ofReports others).summary = (Log.ofReports reports).summary ↔
      Report.count (Report.sinceReset others) = counts := by
  have hsummary : ∀ rs : List Report, (Log.ofReports rs).summary =
      Log.summarise (Report.count (Report.sinceReset rs)).resolved
        (Report.count (Report.sinceReset rs)).unresolved
        (Report.count (Report.sinceReset rs)).missing := fun rs => by
    rw [← Log.counts_ofReports]
    rfl
  have hread : ∀ rs : List Report, Summary.read (Log.ofReports rs).summary =
      Report.count (Report.sinceReset rs) := fun rs => by
    rw [hsummary, Summary.read_summarise]
  refine ⟨hsummary reports, hread reports, Summary.read_summarise, fun others => ?_⟩
  constructor
  · intro heq
    rw [← hread others, heq, hread reports]
  · intro heq
    rw [hsummary others, hsummary reports, heq]

end ScriptModel.Includes
