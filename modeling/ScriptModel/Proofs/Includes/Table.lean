import Mathlib.Data.List.DropRight
import Mathlib.Data.List.Forall2
import ScriptModel.Includes.Table

/-!
# Reading a table

The dashes of the rule say how wide the columns are. A line that is cut there, without the
spaces at the end of each piece, gives its cells back: a cell has no more characters than
bytes, so it fits into its column, and since no cell ends in a blank, what was cut off at
the end of the line was filling.
-/

namespace ScriptModel

namespace Text

/-- No blank stands last. -/
def EndsBare (cs : List Char) : Prop := ∀ c ∈ cs.getLast?, isBlank c = false

instance (cs : List Char) : Decidable (EndsBare cs) :=
  decidable_of_iff (cs.getLast?.all fun c => !isBlank c) <| by
    rw [Option.all_eq_true]
    simp only [Bool.not_eq_true', EndsBare, Option.mem_def]

theorem EndsBare.append {ds : List Char} (h : EndsBare ds) (hne : ds ≠ [])
    (cs : List Char) : EndsBare (cs ++ ds) := by
  intro c hc
  rw [List.getLast?_append_of_ne_nil cs hne] at hc
  exact h c hc

theorem rdropWhile_append_spaces {p : Char → Bool} (hspace : p ' ' = true) (cs : List Char)
    (k : Nat) : (cs ++ List.replicate k ' ').rdropWhile p = cs.rdropWhile p := by
  induction k with
  | zero => rw [List.replicate_zero, List.append_nil]
  | succ k ih =>
    rw [List.replicate_succ', ← List.append_assoc, List.rdropWhile_concat_pos _ _ _ hspace,
      ih]

/-- Filling is what is taken off at the end of bare text. -/
theorem rdropWhile_filled {p : Char → Bool} (hspace : p ' ' = true) {cs : List Char}
    (h : ∀ c ∈ cs.getLast?, p c = false) (k : Nat) :
    (cs ++ List.replicate k ' ').rdropWhile p = cs := by
  rw [rdropWhile_append_spaces hspace, List.rdropWhile_eq_self_iff]
  intro hne
  rw [h _ (List.getLast_mem_getLast? hne)]
  exact Bool.false_ne_true

theorem trimEnd_filled {cs : List Char} (h : EndsBare cs) (k : Nat) :
    trimEnd (cs ++ List.replicate k ' ') = cs := rdropWhile_filled (by decide) h k

theorem trimEnd_of_endsBare {cs : List Char} (h : EndsBare cs) : trimEnd cs = cs := by
  have hfilled := trimEnd_filled h 0
  rwa [List.replicate_zero, List.append_nil] at hfilled

/-- Bare text does not end in a space. -/
theorem EndsBare.ne_space {cs : List Char} (h : EndsBare cs) :
    ∀ c ∈ cs.getLast?, (c == ' ') = false := by
  intro c hc
  rw [beq_eq_false_iff_ne]
  rintro rfl
  cases h _ hc

end Text

namespace Includes

theorem length_le_utf8ByteSize (s : String) : s.toList.length ≤ s.utf8ByteSize := by
  induction s using String.push_induction with
  | empty => exact Nat.le_refl 0
  | push s c ih =>
    have hpos := c.utf8Size_pos
    rw [String.toList_push, List.length_append, String.utf8ByteSize_push,
      List.length_singleton]
    omega

namespace Table

/-! ## Widths -/

/-- Each cell has room in its column. -/
def Fits (cells : List String) (ws : List Nat) : Prop :=
  List.Forall₂ (fun cell w => cell.utf8ByteSize ≤ w) cells ws

theorem length_widen {ws : List Nat} {row : List String} (h : row.length = ws.length) :
    (widen ws row).length = ws.length := by
  rw [widen, List.length_zipWith, h, Nat.min_self]

theorem fits_widen {ws : List Nat} {row : List String} (h : row.length = ws.length) :
    Fits row (widen ws row) := by
  induction ws generalizing row with
  | nil =>
    rw [List.eq_nil_of_length_eq_zero h]
    exact .nil
  | cons w ws ih =>
    obtain ⟨cell, cells, rfl⟩ := List.exists_cons_of_length_eq_add_one h
    exact .cons (Nat.le_max_right _ _) (ih (Nat.succ.inj h))

theorem Fits.widen {ws : List Nat} {cells row : List String} (hfits : Fits cells ws)
    (h : row.length = ws.length) : Fits cells (widen ws row) := by
  induction hfits generalizing row with
  | nil => exact .nil
  | cons hcell _ ih =>
    obtain ⟨other, others, rfl⟩ := List.exists_cons_of_length_eq_add_one h
    exact .cons (hcell.trans (Nat.le_max_left _ _)) (ih (Nat.succ.inj h))

/-- The widths make room for what had room before, and for every row. -/
theorem fits_foldl {rows : List (List String)} {ws : List Nat} {cells : List String}
    (hfits : Fits cells ws) (h : ∀ row ∈ rows, row.length = ws.length) :
    Fits cells (rows.foldl Table.widen ws) ∧
      ∀ row ∈ rows, Fits row (rows.foldl Table.widen ws) := by
  induction rows generalizing ws cells with
  | nil => exact ⟨hfits, nofun⟩
  | cons row rows ih =>
    rw [List.forall_mem_cons] at h
    have hlength := length_widen h.1
    have hrest : ∀ r ∈ rows, r.length = (Table.widen ws row).length := fun r hr => by
      rw [hlength, h.2 r hr]
    rw [List.foldl_cons]
    refine ⟨(ih (hfits.widen h.1) hrest).1, ?_⟩
    rw [List.forall_mem_cons]
    exact ih (fits_widen h.1) hrest

/-- A cell that is not empty needs some room. -/
theorem Fits.pos {ws : List Nat} {cells : List String} (hfits : Fits cells ws)
    (h : ∀ cell ∈ cells, cell ≠ "") : ∀ w ∈ ws, 0 < w := by
  induction hfits with
  | nil => exact nofun
  | @cons cell w cells ws hcell _ ih =>
    rw [List.forall_mem_cons] at h ⊢
    refine ⟨?_, ih h.2⟩
    have hsize := length_le_utf8ByteSize cell
    have hpos : 0 < cell.toList.length := by
      rw [List.length_pos_iff, Ne, String.toList_eq_nil_iff]
      exact h.1
    omega

/-! ## Cutting -/

/-- The widths of the columns, from the dashes of the rule. -/
def columns (rule : List Char) : List Nat :=
  ((rule.splitOn ' ').filter fun dashes => decide (dashes ≠ [])).map List.length

/-- The pieces of a line at columns of the given widths, two characters apart, each without
the spaces at its end. -/
def cut : List Nat → List Char → List String
  | [], _ => []
  | w :: ws, cs =>
    String.ofList ((cs.take w).rdropWhile (· == ' ')) :: cut ws (cs.drop (w + 2))

/-- A line before its end is trimmed. -/
def filled (ws : List Nat) (cells : List String) : List Char :=
  List.intercalate [' ', ' '] (List.zipWith fill cells ws)

theorem filled_cons_cons (w v : Nat) (ws : List Nat) (cell next : String)
    (cells : List String) : filled (w :: v :: ws) (cell :: next :: cells) =
      fill cell w ++ ([' ', ' '] ++ filled (v :: ws) (next :: cells)) := by
  rw [← List.append_assoc]
  exact List.intercalate_cons_cons

theorem length_fill {cell : String} {w : Nat} (h : cell.utf8ByteSize ≤ w) :
    (fill cell w).length = w := by
  have hle := length_le_utf8ByteSize cell
  rw [fill, List.length_append, List.length_replicate]
  omega

theorem rdropWhile_fill {cell : String} (h : Text.EndsBare cell.toList) (w : Nat) :
    String.ofList ((fill cell w).rdropWhile (· == ' ')) = cell := by
  rw [fill, Text.rdropWhile_filled rfl h.ne_space, String.ofList_toList]

/-- A filled line is cut into its cells. -/
theorem cut_filled {ws : List Nat} {cells : List String} (hfits : Fits cells ws)
    (h : ∀ cell ∈ cells, Text.EndsBare cell.toList) : cut ws (filled ws cells) = cells := by
  induction hfits with
  | nil => rfl
  | @cons cell w cells ws hcell hfits ih =>
    rw [List.forall_mem_cons] at h
    have hlength := length_fill hcell
    have hpiece := rdropWhile_fill h.1 w
    have ih := ih h.2
    cases hfits with
    | nil =>
      have hline : filled [w] [cell] = fill cell w := List.intercalate_singleton
      rw [hline, cut, List.take_of_length_le hlength.le, hpiece]
      rfl
    | @cons next v cells ws _ _ =>
      have hdrop : (filled (w :: v :: ws) (cell :: next :: cells)).drop (w + 2) =
          filled (v :: ws) (next :: cells) := by
        rw [filled_cons_cons, List.drop_append, hlength, Nat.add_sub_cancel_left,
          List.drop_of_length_le (by omega)]
        rfl
      rw [cut, hdrop, ih, filled_cons_cons, List.take_append_of_le_length hlength.ge,
        List.take_of_length_le hlength.le, hpiece]

/-- Spaces at the end of a line do not count. -/
theorem cut_spaces (ws : List Nat) (cs : List Char) (k : Nat) :
    cut ws (cs ++ List.replicate k ' ') = cut ws cs := by
  induction ws generalizing cs k with
  | nil => rfl
  | cons w ws ih =>
    rw [cut, cut, List.take_append, List.take_replicate, Text.rdropWhile_append_spaces rfl,
      List.drop_append, List.drop_replicate, ih]

/-- What is trimmed off a filled line is spaces. -/
theorem exists_filled {ws : List Nat} {cells : List String} (hfits : Fits cells ws)
    (h : ∀ cell ∈ cells, Text.EndsBare cell.toList) :
    ∃ bare k, Text.EndsBare bare ∧ filled ws cells = bare ++ List.replicate k ' ' := by
  induction hfits with
  | nil => exact ⟨[], 0, nofun, rfl⟩
  | @cons cell w cells ws hcell hfits ih =>
    rw [List.forall_mem_cons] at h
    obtain ⟨bare, k, hbare, hrest⟩ := ih h.2
    cases hfits with
    | nil => exact ⟨cell.toList, _, h.1, List.intercalate_singleton⟩
    | @cons next v cells ws _ _ =>
      rw [filled_cons_cons, hrest]
      by_cases hnil : bare = []
      · refine ⟨cell.toList, w - cell.toList.length + 2 + k, h.1, ?_⟩
        rw [hnil, fill, List.replicate_add, List.replicate_add]
        simp
      · refine ⟨fill cell w ++ [' ', ' '] ++ bare, k, hbare.append hnil _, ?_⟩
        simp

/-- A line is cut into its cells. -/
theorem cut_line {ws : List Nat} {cells : List String} (hfits : Fits cells ws)
    (h : ∀ cell ∈ cells, Text.EndsBare cell.toList) : cut ws (line ws cells) = cells := by
  obtain ⟨bare, k, hbare, hfilled⟩ := exists_filled hfits h
  have hline : line ws cells = bare := by
    rw [← Text.trimEnd_filled hbare k, ← hfilled]
    rfl
  rw [hline, ← cut_spaces ws bare k, ← hfilled, cut_filled hfits h]

theorem cut_nil (ws : List Nat) : ∀ cell ∈ cut ws [], cell = "" := by
  induction ws with
  | nil => exact nofun
  | cons w ws ih =>
    rw [cut, List.take_nil, List.drop_nil, List.forall_mem_cons]
    exact ⟨rfl, ih⟩

/-- A line is not empty unless its cells are. -/
theorem line_ne_nil {ws : List Nat} {cells : List String} (hfits : Fits cells ws)
    (h : ∀ cell ∈ cells, Text.EndsBare cell.toList) (hne : ∃ cell ∈ cells, cell ≠ "") :
    line ws cells ≠ [] := by
  intro hnil
  obtain ⟨cell, hcell, hne⟩ := hne
  rw [← cut_line hfits h, hnil] at hcell
  exact hne (cut_nil ws cell hcell)

/-! ## The rule -/

/-- A run of dashes for each column, two spaces apart. -/
def rule (ws : List Nat) : List Char :=
  List.intercalate [' ', ' '] (ws.map fun w => List.replicate w '-')

theorem rule_cons_cons (w v : Nat) (ws : List Nat) :
    rule (w :: v :: ws) = List.replicate w '-' ++ ' ' :: ' ' :: rule (v :: ws) := by
  rw [rule, List.map_cons, List.map_cons, List.intercalate_cons_cons, List.append_assoc]
  rfl

theorem rule_ne_nil {w : Nat} (h : 0 < w) (ws : List Nat) : rule (w :: ws) ≠ [] := by
  have hrun : List.replicate w '-' ≠ [] := by simpa using h.ne'
  cases ws with
  | nil =>
    rw [rule, List.map_singleton, List.intercalate_singleton]
    exact hrun
  | cons v ws =>
    rw [rule_cons_cons]
    exact List.append_ne_nil_of_left_ne_nil hrun _

theorem fill_dashes (w : Nat) : fill (dashes w) w = List.replicate w '-' := by
  rw [fill, dashes, String.toList_ofList, List.length_replicate, Nat.sub_self,
    List.replicate_zero, List.append_nil]

theorem not_space_of_mem_dashes {w : Nat} :
    ∀ c ∈ List.replicate w '-', (c == ' ') = false := by
  intro c hc
  rw [(List.mem_replicate.mp hc).2]
  rfl

/-- A run of dashes is a column, and what follows it is read by itself. -/
theorem columns_dashes_append {w : Nat} (h : 0 < w) (rest : List Char) :
    columns (List.replicate w '-' ++ ' ' :: ' ' :: rest) = w :: columns rest := by
  have hgap := @List.splitOnP_append_cons_of_forall_mem _ (· == ' ') [] nofun ' ' rfl rest
  rw [List.nil_append] at hgap
  rw [columns, columns, List.splitOn_eq_splitOnP,
    List.splitOnP_append_cons_of_forall_mem not_space_of_mem_dashes ' ' rfl, hgap,
    List.filter_cons_of_pos (by simpa using h.ne'), List.filter_cons_of_neg (by decide),
    List.map_cons, List.length_replicate, ← List.splitOn_eq_splitOnP]

theorem columns_dashes {w : Nat} (h : 0 < w) : columns (List.replicate w '-') = [w] := by
  rw [columns, List.splitOn_eq_splitOnP, List.splitOnP_eq_singleton not_space_of_mem_dashes,
    List.filter_cons_of_pos (by simpa using h.ne'), List.filter_nil, List.map_singleton,
    List.length_replicate]

section Rule

variable {ws : List Nat} (h : ∀ w ∈ ws, 0 < w)
include h

theorem endsBare_rule : Text.EndsBare (rule ws) := by
  induction ws with
  | nil => exact nofun
  | cons w ws ih =>
    rw [List.forall_mem_cons] at h
    cases ws with
    | nil =>
      intro c hc
      rw [show rule [w] = List.replicate w '-' from List.intercalate_singleton] at hc
      rw [(List.mem_replicate.mp (List.mem_of_getLast? hc)).2]
      rfl
    | cons v ws =>
      have hgap := (ih h.2).append (rule_ne_nil (h.2 v List.mem_cons_self) ws)
        (List.replicate w '-' ++ [' ', ' '])
      rw [rule_cons_cons]
      rwa [List.append_assoc] at hgap

/-- The dashes of the rule fill their columns. -/
theorem line_dashes : line ws (ws.map dashes) = rule ws := by
  have hfilled : filled ws (ws.map dashes) = rule ws := by
    rw [filled, rule, List.zipWith_map_left, List.zipWith_self]
    simp only [fill_dashes]
  have hbare := Text.trimEnd_of_endsBare (endsBare_rule h)
  rw [← hfilled] at hbare ⊢
  exact hbare

/-- The widths can be read off the rule. -/
theorem columns_rule : columns (rule ws) = ws := by
  induction ws with
  | nil => rfl
  | cons w ws ih =>
    rw [List.forall_mem_cons] at h
    cases ws with
    | nil =>
      rw [show rule [w] = List.replicate w '-' from List.intercalate_singleton]
      exact columns_dashes h.1
    | cons v ws => rw [rule_cons_cons, columns_dashes_append h.1, ih h.2]

end Rule

/-! ## The lines of a table -/

/-- Each row has a cell for every column. No cell ends in a blank, and the columns have
names. -/
structure Legible (t : Table) : Prop where
  header_ne : ∀ cell ∈ t.header, cell ≠ ""
  header_bare : ∀ cell ∈ t.header, Text.EndsBare cell.toList
  row_length : ∀ row ∈ t.rows, row.length = t.header.length
  row_bare : ∀ row ∈ t.rows, ∀ cell ∈ row, Text.EndsBare cell.toList

namespace Legible

variable {t : Table} (h : t.Legible)
include h

theorem fits : Fits t.header t.widths ∧ ∀ row ∈ t.rows, Fits row t.widths := by
  have hheader : Fits t.header (t.header.map String.utf8ByteSize) :=
    List.forall₂_map_right_iff.mpr (List.forall₂_same.mpr fun cell _ => Nat.le_refl _)
  refine fits_foldl hheader fun row hrow => ?_
  rw [List.length_map]
  exact h.row_length row hrow

theorem widths_pos : ∀ w ∈ t.widths, 0 < w := h.fits.1.pos h.header_ne

/-- The widths are read off the rule, and then every line is cut into its cells. -/
theorem reads : columns (line t.widths (t.widths.map dashes)) = t.widths ∧
    cut t.widths (line t.widths t.header) = t.header ∧
      (t.rows.map (line t.widths)).map (cut t.widths) = t.rows := by
  refine ⟨?_, cut_line h.fits.1 h.header_bare, ?_⟩
  · rw [line_dashes h.widths_pos, columns_rule h.widths_pos]
  · rw [List.map_map]
    conv_rhs => rw [← List.map_id t.rows]
    exact List.map_congr_left fun row hrow => cut_line (h.fits.2 row hrow) (h.row_bare row hrow)

end Legible

end Table
end Includes
end ScriptModel
