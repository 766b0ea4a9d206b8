import ScriptModel.Proofs.Includes.Summary
import ScriptModel.Proofs.Includes.Table

/-!
# Reading a log

The text of a log is a list of lines: three with the counts, and for each category that has
entries an empty line, a title and a table. No cell has a line break in it, so the lines can
be told apart, and the counts say how many of them are the rows of each table. So the
records can be read back as they are shown.
-/

namespace ScriptModel.Includes

/-- Text that stays on its line and does not end in a blank. -/
def IsCell (s : String) : Prop := '\n' ∉ s.toList ∧ Text.EndsBare s.toList

instance : DecidablePred IsCell := fun _ => inferInstanceAs (Decidable (_ ∧ _))

namespace Log

/-- What is shown of the log are cells. -/
structure Legible (l : Log) (base : String) : Prop where
  resolved : ∀ r ∈ l.resolved,
    IsCell (Path.shown r.filename base) ∧ IsCell r.name ∧ IsCell (Path.shown r.path base)
  unresolved : ∀ u ∈ l.unresolved, IsCell (Path.shown u.filename base)
  missing : ∀ m ∈ l.missing, IsCell (Path.shown m.filename base) ∧ IsCell m.name

/-- The records of a log as they are shown: the file and the line of the inclusion, then the
name and the path as far as there are such. -/
structure Shown where
  resolved : List (String × Nat × String × String)
  unresolved : List (String × Nat)
  missing : List (String × Nat × String)
  deriving DecidableEq

def shown (l : Log) (base : String) : Shown :=
  ⟨l.resolved.map fun r => (Path.shown r.filename base, r.line, r.name, Path.shown r.path base),
    l.unresolved.map fun u => (Path.shown u.filename base, u.line),
    l.missing.map fun m => (Path.shown m.filename base, m.line, m.name)⟩

/-! ## The reader -/

/-- The number that a line begins with. -/
def readCount (line : List Char) : Nat :=
  Nat.ofDigitChars 10 (line.takeWhile Char.isDigit) 0

/-- So many rows of a table, and the lines behind it. An empty line, the title and the
header come first, then the rule; where there are no rows there is nothing at all. -/
def readSection (n : Nat) (lines : List (List Char)) :
    List (List String) × List (List Char) :=
  if n = 0 then ([], lines)
  else match lines with
    | _ :: _ :: _ :: rule :: rest =>
      ((rest.take n).map (Table.cut (Table.columns rule)), rest.drop n)
    | _ => ([], [])

/-- The records in the rows of the three tables. -/
def Shown.ofRows (resolved unresolved missing : List (List String)) : Shown where
  resolved := resolved.filterMap fun
    | [file, line, name, path] => some (file, Nat.ofDigitChars 10 line.toList 0, name, path)
    | _ => none
  unresolved := unresolved.filterMap fun
    | [file, line] => some (file, Nat.ofDigitChars 10 line.toList 0)
    | _ => none
  missing := missing.filterMap fun
    | [file, line, name] => some (file, Nat.ofDigitChars 10 line.toList 0, name)
    | _ => none

/-- The records that a log shows. -/
def read (text : String) : Shown :=
  match text.toList.splitOn '\n' with
  | resolved :: unresolved :: missing :: lines =>
    let first := readSection (readCount resolved) lines
    let second := readSection (readCount unresolved) first.2
    let third := readSection (readCount missing) second.2
    .ofRows first.1 second.1 third.1
  | _ => .ofRows [] [] []

/-- The lines are a table with its title and so many rows, or nothing where there are none.
Each line, cut at the columns of the rule, gives the names of the columns or the cells of
its row. -/
inductive Section (title : String) (count : Nat) (t : Table) : List (List Char) → Prop where
  | absent : count = 0 → t.rows = [] → Section title count t []
  | table {header rule : List Char} {rows : List (List Char)} : rows.length = count →
    count ≠ 0 →
    rule = Table.rule (Table.columns rule) →
      Table.cut (Table.columns rule) header = t.header →
    rows.map (Table.cut (Table.columns rule)) = t.rows →
    Section title count t ([] :: title.toList :: header :: rule :: rows)

/-! ## Lines -/

/-- The lines of a titled table. -/
def sectionLines (title : String) (t : Table) : List (List Char) :=
  if t.rows = [] then [] else [] :: title.toList :: t.lines

/-- The line of a count. -/
def countLine (n : Nat) (category : String) : List Char := (files n ++ category).toList

/-- All lines of a log. -/
def lines (l : Log) (base : String) : List (List Char) :=
  countLine l.resolved.length " resolved" :: countLine l.unresolved.length " unresolved" ::
    countLine l.missing.length " missing" ::
      (sectionLines "Resolved Files" (l.resolvedTable base) ++
        (sectionLines "Unresolved Files" (l.unresolvedTable base) ++
          sectionLines "Missing Files" (l.missingTable base)))

theorem intercalate_newline (x : List Char) (xs : List (List Char)) :
    List.intercalate ['\n'] (x :: xs) = x ++ xs.flatMap ('\n' :: ·) := by
  induction xs generalizing x with
  | nil => simp
  | cons y xs ih =>
    rw [List.intercalate_cons_cons, ih, List.flatMap_cons, List.append_assoc]
    rfl

theorem toList_titled (title : String) (t : Table) :
    (titled title t).toList = (sectionLines title t).flatMap ('\n' :: ·) := by
  unfold titled sectionLines
  split
  · rfl
  · rw [Table.render, Table.lines, intercalate_newline]
    simp

/-- The text is the lines, a line break after each but the last. -/
theorem toList_render (l : Log) (base : String) :
    (l.render base).toList = List.intercalate ['\n'] (l.lines base) := by
  rw [lines, intercalate_newline, render]
  simp only [String.toList_append, toList_titled, List.flatMap_cons, List.flatMap_append,
    countLine]
  simp

/-! ## Cells stay on their lines -/

theorem mem_intercalate {c : Char} {sep : List Char} {ls : List (List Char)}
    (h : c ∈ List.intercalate sep ls) : c ∈ sep ∨ ∃ l ∈ ls, c ∈ l := by
  induction ls with
  | nil => cases h
  | cons x xs ih =>
    cases xs with
    | nil =>
      rw [List.intercalate_singleton] at h
      exact .inr ⟨x, List.mem_cons_self, h⟩
    | cons y ys =>
      rw [List.intercalate_cons_cons, List.mem_append, List.mem_append] at h
      rcases h with (h | h) | h
      · exact .inr ⟨x, List.mem_cons_self, h⟩
      · exact .inl h
      · rcases ih h with h | ⟨l, hl, h⟩
        · exact .inl h
        · exact .inr ⟨l, List.mem_cons_of_mem x hl, h⟩

/-- A line has the characters of its cells, and spaces. -/
theorem mem_line {c : Char} {ws : List Nat} {cells : List String}
    (h : c ∈ Table.line ws cells) : c = ' ' ∨ ∃ cell ∈ cells, c ∈ cell.toList := by
  have hfilled : c ∈ Table.filled ws cells :=
    (List.rdropWhile_prefix Text.isBlank (Table.filled ws cells)).subset h
  rcases mem_intercalate hfilled with hsep | ⟨l, hl, hc⟩
  · exact .inl (by simpa using hsep)
  · rw [← List.map_uncurry_zip_eq_zipWith] at hl
    obtain ⟨⟨cell, w⟩, hmem, rfl⟩ := List.mem_map.mp hl
    rcases List.mem_append.mp hc with hc | hc
    · exact .inr ⟨cell, (List.of_mem_zip hmem).1, hc⟩
    · exact .inl (List.mem_replicate.mp hc).2

/-- A property of the last element of both parts is one of the last element of the whole. -/
theorem forall_getLast?_append {α : Type} {p : α → Prop} {xs ys : List α}
    (hxs : ∀ x ∈ xs.getLast?, p x) (hys : ∀ y ∈ ys.getLast?, p y) :
    ∀ z ∈ (xs ++ ys).getLast?, p z := by
  intro z hz
  rw [List.getLast?_append, Option.mem_def, Option.or_eq_some_iff] at hz
  rcases hz with hz | ⟨-, hz⟩
  · exact hys z hz
  · exact hxs z hz

theorem newline_not_mem_line {ws : List Nat} {cells : List String}
    (h : ∀ cell ∈ cells, '\n' ∉ cell.toList) : '\n' ∉ Table.line ws cells := by
  intro hmem
  rcases mem_line hmem with hspace | ⟨cell, hcell, hc⟩
  · cases hspace
  · exact h cell hcell hc

theorem newline_not_mem_countLine (n : Nat) {category : String}
    (h : '\n' ∉ category.toList) :
    '\n' ∉ countLine n category := Summary.not_mem_phrase (by decide) (by decide) n h

theorem countLine_ne_nil (n : Nat) (category : String) : countLine n category ≠ [] := by
  rw [countLine, String.toList_append, Summary.toList_files]
  simp

/-- A legible table that can be listed: its cells stay on their lines, and no row is
empty. -/
structure Listed (t : Table) : Prop where
  legible : t.Legible
  header : ∀ cell ∈ t.header, '\n' ∉ cell.toList
  rows : ∀ row ∈ t.rows, ∀ cell ∈ row, '\n' ∉ cell.toList
  row_ne : ∀ row ∈ t.rows, ∃ cell ∈ row, cell ≠ ""

namespace Listed

variable {t : Table} (h : Listed t)
include h

theorem newline_not_mem {title : String} (htitle : '\n' ∉ title.toList) :
    ∀ l ∈ sectionLines title t, '\n' ∉ l := by
  have hdashes : ∀ cell ∈ t.widths.map Table.dashes, '\n' ∉ cell.toList := by
    simp [Table.dashes]
  unfold sectionLines
  split
  · exact fun l hl => absurd hl List.not_mem_nil
  · rw [Table.lines]
    simp only [List.forall_mem_cons, List.forall_mem_map]
    exact ⟨List.not_mem_nil, htitle, newline_not_mem_line h.header,
      newline_not_mem_line hdashes, fun row hrow => newline_not_mem_line (h.rows row hrow)⟩

/-- The lines of the table are what they should be. -/
theorem section_sectionLines (title : String) :
    Section title t.rows.length t (sectionLines title t) := by
  obtain ⟨hcolumns, hheader, hrows⟩ := h.legible.reads
  unfold sectionLines
  split
  · rename_i hnil
    exact .absent (by rw [hnil]; rfl) hnil
  · rename_i hne
    refine .table (List.length_map _) ?_ ?_ ?_ ?_
    · rwa [Ne, List.length_eq_zero_iff]
    · rw [hcolumns, Table.line_dashes h.legible.widths_pos]
    · rw [hcolumns, hheader]
    · rw [hcolumns, hrows]

/-- No section ends in an empty line. -/
theorem getLast?_ne_nil (title : String) :
    ∀ l ∈ (sectionLines title t).getLast?, l ≠ [] := by
  unfold sectionLines
  split
  · exact nofun
  · rename_i hne
    obtain ⟨init, row, hrows⟩ : ∃ init row, t.rows = init ++ [row] :=
      ⟨_, _, (List.dropLast_append_getLast hne).symm⟩
    have hrow : row ∈ t.rows := by simp [hrows]
    have hline := Table.line_ne_nil (h.legible.fits.2 row hrow) (h.legible.row_bare row hrow)
      (h.row_ne row hrow)
    have hlast (front : List (List Char)) :
        ∀ l ∈ (front ++ [Table.line t.widths row]).getLast?, l ≠ [] := by
      intro l hl
      rw [List.getLast?_concat] at hl
      cases hl
      exact hline
    rw [Table.lines, hrows, List.map_append, List.map_singleton]
    exact hlast ([] :: title.toList :: _ :: _ :: init.map (Table.line t.widths))

end Listed

/-! ## The three tables -/

theorem isBlank_of_isDigit {c : Char} (h : c.isDigit = true) : Text.isBlank c = false := by
  have hrange : 48 ≤ c.toNat ∧ c.toNat ≤ 57 := Char.isDigit_iff_toNat.mp h
  simp only [Text.isBlank, Text.blankRanges, List.any_cons, List.any_nil, Bool.or_false,
    Bool.or_eq_false_iff, Bool.and_eq_false_iff, decide_eq_false_iff_not]
  omega

theorem isCell_repr (n : Nat) : IsCell n.repr ∧ n.repr ≠ "" := by
  rw [Nat.repr, IsCell, String.toList_ofList]
  refine ⟨⟨fun hc => ?_, fun c hc => ?_⟩, fun hnil => ?_⟩
  · cases Summary.isDigit_of_mem_toDigits _ hc
  · exact isBlank_of_isDigit (Summary.isDigit_of_mem_toDigits c (List.mem_of_getLast? hc))
  · rw [← String.toList_inj, String.toList_ofList] at hnil
    exact Nat.toDigits_ne_nil hnil

/-- A table is listed when its rows are made of cells and each has the number of a line. -/
theorem listed_of_cells {t : Table} (hheader : ∀ name ∈ t.header, name ≠ "" ∧ IsCell name)
    (h : ∀ row ∈ t.rows, row.length = t.header.length ∧ (∀ cell ∈ row, IsCell cell) ∧
      ∃ line : Nat, line.repr ∈ row) : Listed t where
  legible := {
    header_ne := fun name hname => (hheader name hname).1
    header_bare := fun name hname => (hheader name hname).2.2
    row_length := fun row hrow => (h row hrow).1
    row_bare := fun row hrow cell hcell => ((h row hrow).2.1 cell hcell).2 }
  header := fun name hname => (hheader name hname).2.1
  rows := fun row hrow cell hcell => ((h row hrow).2.1 cell hcell).1
  row_ne := fun row hrow => by
    obtain ⟨line, hline⟩ := (h row hrow).2.2
    exact ⟨_, hline, (isCell_repr line).2⟩

namespace Legible

variable {l : Log} {base : String} (h : l.Legible base)
include h

theorem listed_resolved : Listed (l.resolvedTable base) := by
  have hheader : ∀ name ∈ ["File", "Line", "Name", "Resolved Path"], name ≠ "" ∧
    IsCell name := by
    decide
  refine listed_of_cells hheader fun row hrow => ?_
  obtain ⟨r, hr, rfl⟩ := List.mem_map.mp hrow
  obtain ⟨hfile, hname, hpath⟩ := h.resolved r hr
  refine ⟨rfl, ?_, r.line, by simp⟩
  simp only [List.forall_mem_cons]
  exact ⟨hfile, (isCell_repr r.line).1, hname, hpath, nofun⟩

theorem listed_unresolved : Listed (l.unresolvedTable base) := by
  have hheader : ∀ name ∈ ["File", "Line"], name ≠ "" ∧ IsCell name := by decide
  refine listed_of_cells hheader fun row hrow => ?_
  obtain ⟨u, hu, rfl⟩ := List.mem_map.mp hrow
  refine ⟨rfl, ?_, u.line, by simp⟩
  simp only [List.forall_mem_cons]
  exact ⟨h.unresolved u hu, (isCell_repr u.line).1, nofun⟩

theorem listed_missing : Listed (l.missingTable base) := by
  have hheader : ∀ name ∈ ["File", "Line", "Name"], name ≠ "" ∧ IsCell name := by decide
  refine listed_of_cells hheader fun row hrow => ?_
  obtain ⟨m, hm, rfl⟩ := List.mem_map.mp hrow
  obtain ⟨hfile, hname⟩ := h.missing m hm
  refine ⟨rfl, ?_, m.line, by simp⟩
  simp only [List.forall_mem_cons]
  exact ⟨hfile, (isCell_repr m.line).1, hname, nofun⟩

theorem newline_not_mem_lines : ∀ x ∈ l.lines base, '\n' ∉ x := by
  rw [lines]
  simp only [List.forall_mem_cons, List.forall_mem_append]
  exact ⟨newline_not_mem_countLine _ (by decide), newline_not_mem_countLine _ (by decide),
    newline_not_mem_countLine _ (by decide), h.listed_resolved.newline_not_mem (by decide),
    h.listed_unresolved.newline_not_mem (by decide),
    h.listed_missing.newline_not_mem (by decide)⟩

/-- The lines of the log are read back from its text. -/
theorem splitOn_render : (l.render base).toList.splitOn '\n' = l.lines base := by
  rw [toList_render]
  exact List.splitOn_intercalate '\n' h.newline_not_mem_lines (List.cons_ne_nil _ _)

/-- The last line is that of the last count or that of a row, and neither is empty. -/
theorem getLast?_lines : ∀ x ∈ (l.lines base).getLast?, x ≠ [] := by
  have hcounts : ∀ x ∈ [countLine l.resolved.length " resolved",
      countLine l.unresolved.length " unresolved",
      countLine l.missing.length " missing"].getLast?, x ≠ [] := by
    intro x hx
    cases hx
    exact countLine_ne_nil l.missing.length " missing"
  exact forall_getLast?_append hcounts (forall_getLast?_append
    (h.listed_resolved.getLast?_ne_nil "Resolved Files") (forall_getLast?_append
      (h.listed_unresolved.getLast?_ne_nil "Unresolved Files")
      (h.listed_missing.getLast?_ne_nil "Missing Files")))

end Legible

/-! ## Reading the lines -/

theorem readCount_countLine (n : Nat) {category : String}
    (h : ∃ rest, category.toList = ' ' :: rest) : readCount (countLine n category) = n := by
  obtain ⟨rest, hrest⟩ := h
  rw [readCount, countLine, String.toList_append, Summary.toList_files, List.append_assoc,
    List.takeWhile_append_of_pos Summary.isDigit_of_mem_toDigits, List.cons_append,
    List.takeWhile_cons_of_neg (by decide), List.append_nil, Nat.ofDigitChars_ten_toDigits]

/-- A section is read as the rows of its table, and what follows is left. -/
theorem Section.read {title : String} {count : Nat} {t : Table} {ls : List (List Char)}
    (h : Section title count t ls) (rest : List (List Char)) :
    readSection count (ls ++ rest) = (t.rows, rest) := by
  unfold readSection
  cases h with
  | absent hcount hrows => rw [if_pos hcount, hrows, List.nil_append]
  | @table header rule rows hlength hcount hrule hheader hrows =>
    rw [if_neg hcount]
    show (List.map _ (List.take count (rows ++ rest)), List.drop count (rows ++ rest)) = _
    rw [← hlength, List.take_left, List.drop_left, hrows]

/-- The records are read off the rows. -/
theorem ofRows_tables (l : Log) (base : String) : Shown.ofRows (l.resolvedTable base).rows
    (l.unresolvedTable base).rows (l.missingTable base).rows = l.shown base := by
  simp [Shown.ofRows, shown, resolvedTable, unresolvedTable, missingTable,
    List.filterMap_map]

namespace Legible

variable {l : Log} {base : String} (h : l.Legible base)
include h

/-- The three sections, with as many rows as the counts at the top say. -/
theorem sections :
    Section "Resolved Files" (readCount (countLine l.resolved.length " resolved"))
      (l.resolvedTable base) (sectionLines "Resolved Files" (l.resolvedTable base)) ∧
    Section "Unresolved Files" (readCount (countLine l.unresolved.length " unresolved"))
      (l.unresolvedTable base) (sectionLines "Unresolved Files" (l.unresolvedTable base)) ∧
    Section "Missing Files" (readCount (countLine l.missing.length " missing"))
      (l.missingTable base) (sectionLines "Missing Files" (l.missingTable base)) := by
  have hresolved := h.listed_resolved.section_sectionLines "Resolved Files"
  have hunresolved := h.listed_unresolved.section_sectionLines "Unresolved Files"
  have hmissing := h.listed_missing.section_sectionLines "Missing Files"
  rw [readCount_countLine _ ⟨_, rfl⟩, readCount_countLine _ ⟨_, rfl⟩,
    readCount_countLine _ ⟨_, rfl⟩]
  rw [resolvedTable, List.length_map] at hresolved
  rw [unresolvedTable, List.length_map] at hunresolved
  rw [missingTable, List.length_map] at hmissing
  exact ⟨hresolved, hunresolved, hmissing⟩

theorem read_render : read (l.render base) = l.shown base := by
  obtain ⟨hresolved, hunresolved, hmissing⟩ := h.sections
  have hlast := hmissing.read []
  rw [List.append_nil] at hlast
  rw [← ofRows_tables l base, read, h.splitOn_render, lines]
  dsimp only
  rw [hresolved.read, hunresolved.read, hlast]

end Legible

theorem getLast?_intercalate {sep x : List Char} {ls : List (List Char)}
    (h : ls.getLast? = some x)
    (hx : x ≠ []) : (List.intercalate sep ls).getLast? = x.getLast? := by
  induction ls with
  | nil => cases h
  | cons y ys ih =>
    cases ys with
    | nil =>
      rw [List.getLast?_singleton, Option.some.injEq] at h
      rw [List.intercalate_singleton, h]
    | cons z zs =>
      have ih := ih h
      have hne : List.intercalate sep (z :: zs) ≠ [] := by
        intro hnil
        rw [hnil, List.getLast?_nil, eq_comm, List.getLast?_eq_none_iff] at ih
        exact hx ih
      rw [List.intercalate_cons_cons, List.getLast?_append_of_ne_nil _ hne, ih]

/-- A log whose cells stay on their lines and do not end in blanks can be read back from its
text, so that two of them with the same text have the same records as they are shown. The
text is three lines with the counts, and for each category that has entries an empty line,
the title and a table. Every line of a table, cut at the columns that the dashes of its rule
mark and without the spaces at the end of each piece, gives the names of the columns or the
cells of its row, and there are as many rows as the count at the top says. There is no line
break at the end. -/
theorem log_reads_back {base : String} {l : Log} (h : l.Legible base) :
    read (l.render base) = l.shown base ∧
    (∀ m : Log, m.Legible base → l.render base = m.render base → l.shown base = m.shown base) ∧
    (∃ top₁ top₂ top₃ resolved unresolved missing,
      (l.render base).toList.splitOn '\n' =
        top₁ :: top₂ :: top₃ :: (resolved ++ (unresolved ++ missing)) ∧
      Section "Resolved Files" (readCount top₁) (l.resolvedTable base) resolved ∧
      Section "Unresolved Files" (readCount top₂) (l.unresolvedTable base) unresolved ∧
      Section "Missing Files" (readCount top₃) (l.missingTable base) missing) ∧
    (l.render base).toList.getLast? ≠ some '\n' := by
  refine ⟨h.read_render, fun m hm heq => ?_, ?_, fun hnewline => ?_⟩
  · rw [← h.read_render, heq, hm.read_render]
  · exact ⟨_, _, _, _, _, _, h.splitOn_render, h.sections⟩
  · have hne : l.lines base ≠ [] := List.cons_ne_nil _ _
    have hlast := List.getLast?_eq_some_getLast hne
    rw [toList_render, getLast?_intercalate hlast (h.getLast?_lines _ hlast)] at hnewline
    exact h.newline_not_mem_lines _ (List.mem_of_getLast? hlast) (List.mem_of_getLast? hnewline)

/-- Two files are shown the same when one is given from the root and the other below the
base. The table is wider than it looks, since the letters take two bytes. -/
theorem log_reads_back_two_bytes :
    let given : Log :=
      ⟨[⟨"λ", "/proj/lib/λ.js", "/proj/é.js", 12⟩], [], [⟨"δ.js", "é.js", 3⟩]⟩
    let below : Log := ⟨[⟨"λ", "lib/λ.js", "é.js", 12⟩], [], [⟨"δ.js", "/proj/é.js", 3⟩]⟩
    given.Legible "/proj" ∧ below.Legible "/proj" ∧ given ≠ below ∧
      read (given.render "/proj") = given.shown "/proj" ∧
      given.shown "/proj" = below.shown "/proj" := by
  intro given below
  have hgiven : given.Legible "/proj" :=
    ⟨by decide +kernel, by decide +kernel, by decide +kernel⟩
  have hbelow : below.Legible "/proj" :=
    ⟨by decide +kernel, by decide +kernel, by decide +kernel⟩
  have htext : given.render "/proj" = below.render "/proj" := by decide +kernel
  have hreads := log_reads_back hgiven
  exact ⟨hgiven, hbelow, by decide, hreads.1, hreads.2.1 below hbelow htext⟩

end Log
end ScriptModel.Includes
