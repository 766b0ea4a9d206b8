/-!
# Paths as they are shown

A path is text. It may lead from the root (a slash) or from the place itself (a lone point
in front); what follows is cut at slashes into segments, of which the empty ones and the
single points name nothing. A path lies under a base when both lead alike and the base's
names come first. Then the rest is shown, as written, without what names nothing at its
ends.

A path that is no Unicode text has no counterpart here.
-/

namespace ScriptModel.Includes

/-- Where a path leads from. -/
inductive Lead where
  | root
  | place
  | free
  deriving DecidableEq

namespace Path

/-- The lead of a path, and the text behind it. -/
def splitLead : List Char → Lead × List Char
  | '/' :: cs => (.root, cs)
  | ['.'] => (.place, [])
  | '.' :: '/' :: cs => (.place, '/' :: cs)
  | cs => (.free, cs)

/-- The text between slashes. -/
def segments : List Char → List (List Char)
  | [] => [[]]
  | c :: cs =>
    if c = '/' then [] :: segments cs
    else match segments cs with
      | [] => [[c]]
      | s :: ss => (c :: s) :: ss

/-- The segment names something. -/
def names (s : List Char) : Bool := decide (s ≠ [] ∧ s ≠ ['.'])

/-- Segments with slashes between them. -/
def join (ss : List (List Char)) : List Char := List.intercalate ['/'] ss

/-- Without the segments at the end that name nothing. -/
def trimEnd (ss : List (List Char)) : List (List Char) :=
  (ss.reverse.dropWhile fun s => !names s).reverse

/-- What is left behind the first `n` names, without the segments in front that name
nothing. -/
def behind : Nat → List (List Char) → List (List Char)
  | 0, ss => ss.dropWhile fun s => !names s
  | _ + 1, [] => []
  | n + 1, s :: ss => if names s then behind n ss else behind (n + 1) ss

/-- A path with its end trimmed; what it leads from stays. -/
def whole (lead : Lead) (body : List Char) : List Char :=
  let rest := join (trimEnd (segments body))
  match lead with
  | .root => '/' :: rest
  | .place => '.' :: rest
  | .free => rest

/-- The part of a path under a base (`strip_prefix`), or nothing when it does not lie
there. -/
def under? (path base : List Char) : Option (List Char) :=
  let (lead, body) := splitLead path
  let (baseLead, baseBody) := splitLead base
  let ours := (segments body).filter names
  let theirs := (segments baseBody).filter names
  if baseLead = .free ∧ theirs = [] then some (whole lead body)
  else if lead = baseLead ∧ theirs.isPrefixOf ours then
    some (join (trimEnd (behind theirs.length (segments body))))
  else none

/-- A path as it is shown below a base (`relative`): relative to it when it lies there, and
else as given. -/
def shown (path base : String) : String :=
  match under? path.toList base.toList with
  | some rest => String.ofList rest
  | none => path

end Path
end ScriptModel.Includes
