import ScriptModel.Text.Blank

/-!
# Tables of text

A table has a header, a rule of dashes and a line per row. Cells are set to the left, with
two spaces between columns. A column is as wide as its widest cell has bytes, and a cell is
filled up with spaces by its characters, so a column that holds other than ASCII is wider
than it looks. Blanks at the end of a line are cut.

A width may be any number here. The analyser's formatter has a bound for the widths that it
fills up to; a table with a wider cell is not treated.
-/

namespace ScriptModel.Includes

structure Table where
  header : List String
  rows : List (List String)

namespace Table

/-- The widths that make room for one more row. -/
def widen (widths : List Nat) (row : List String) : List Nat :=
  List.zipWith (fun w (cell : String) => max w cell.utf8ByteSize) widths row

/-- The width of each column. -/
def widths (t : Table) : List Nat :=
  t.rows.foldl widen (t.header.map String.utf8ByteSize)

/-- A cell filled up to a width. -/
def fill (cell : String) (width : Nat) : List Char :=
  cell.toList ++ List.replicate (width - cell.toList.length) ' '

/-- A line of cells (`write_row`). -/
def line (widths : List Nat) (cells : List String) : List Char :=
  Text.trimEnd (List.intercalate [' ', ' '] (List.zipWith fill cells widths))

/-- The dashes of one column. -/
def dashes (width : Nat) : String := String.ofList (List.replicate width '-')

/-- All lines of the table. -/
def lines (t : Table) : List (List Char) :=
  let ws := t.widths
  line ws t.header :: line ws (ws.map dashes) :: t.rows.map (line ws)

/-- The text of the table (`table`), with no newline at its end. -/
def render (t : Table) : String := String.ofList (List.intercalate ['\n'] t.lines)

end Table
end ScriptModel.Includes
