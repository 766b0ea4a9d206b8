import ScriptModel.Includes.Path
import ScriptModel.Includes.Table

/-!
# The log of inclusions

The analysis reports each inclusion that it meets: resolved, unresolved (the path was no
constant) or missing (there is no such file). The log sums them up in a line, or lists them
in one table per category.
-/

namespace ScriptModel.Includes

/-- An inclusion whose file was found (`ResolvedInclude`). -/
structure Resolved where
  name : String
  path : String
  filename : String
  line : Nat
  deriving DecidableEq

/-- An inclusion whose path is no constant (`UnresolvedInclude`). -/
structure Unresolved where
  filename : String
  line : Nat
  deriving DecidableEq

/-- An inclusion of a file that does not exist (`MissingInclude`). -/
structure Missing where
  name : String
  filename : String
  line : Nat
  deriving DecidableEq

/-- What was reported, in order (`IncludeFinder`). -/
structure Log where
  resolved : List Resolved
  unresolved : List Unresolved
  missing : List Missing
  deriving DecidableEq

/-- What happens to a log. -/
inductive Report where
  | resolved (r : Resolved)
  | unresolved (u : Unresolved)
  | missing (m : Missing)
  | reset

/-- A number of files in words. -/
def files (n : Nat) : String := if n = 1 then "1 file" else n.repr ++ " files"

namespace Log

def empty : Log := ⟨[], [], []⟩

def add (l : Log) : Report → Log
  | .resolved r => { l with resolved := l.resolved ++ [r] }
  | .unresolved u => { l with unresolved := l.unresolved ++ [u] }
  | .missing m => { l with missing := l.missing ++ [m] }
  | .reset => empty

/-- The parts of a list in words, with the last one announced. -/
def announceLast : List String → List String
  | [] => []
  | [s] => ["and " ++ s]
  | s :: ss => s :: announceLast ss

/-- A summary of three counts; a count of nothing is not mentioned. -/
def summarise (resolved unresolved missing : Nat) : String :=
  let parts :=
    (if resolved = 0 then [] else [files resolved ++ " resolved"]) ++
    (if unresolved = 0 then [] else [files unresolved ++ " not resolved"]) ++
    (if missing = 0 then [] else [files missing ++ " missing"])
  match parts with
  | [] => "No files included"
  | [part] => part
  | parts => ", ".intercalate (announceLast parts)

/-- The log in one line. -/
def summary (l : Log) : String :=
  summarise l.resolved.length l.unresolved.length l.missing.length

def resolvedTable (l : Log) (base : String) : Table :=
  ⟨["File", "Line", "Name", "Resolved Path"],
    l.resolved.map fun r =>
      [Path.shown r.filename base, r.line.repr, r.name, Path.shown r.path base]⟩

def unresolvedTable (l : Log) (base : String) : Table :=
  ⟨["File", "Line"], l.unresolved.map fun u => [Path.shown u.filename base, u.line.repr]⟩

def missingTable (l : Log) (base : String) : Table :=
  ⟨["File", "Line", "Name"],
    l.missing.map fun m => [Path.shown m.filename base, m.line.repr, m.name]⟩

/-- A titled table, unless it has no rows. -/
def titled (title : String) (t : Table) : String :=
  if t.rows = [] then "" else "\n\n" ++ title ++ "\n" ++ t.render

/-- The whole log (`render_log_output`): the counts, then a table for each category that has
entries. Paths below the base are shown relative to it. -/
def render (l : Log) (base : String) : String :=
  files l.resolved.length ++ " resolved\n" ++ files l.unresolved.length ++ " unresolved\n" ++
    files l.missing.length ++ " missing" ++
    titled "Resolved Files" (l.resolvedTable base) ++
    titled "Unresolved Files" (l.unresolvedTable base) ++
    titled "Missing Files" (l.missingTable base)

end Log
end ScriptModel.Includes
