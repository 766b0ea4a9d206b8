/-!
# Property keys

A property is named by an index or by a string. A string that is the decimal text of an
index names the same property as the index, so reading a string as a key and writing a key
as a string undo each other.
-/

namespace ScriptModel

/-- The name of a property (`PropertyKey`). -/
inductive Key where
  | index (i : UInt32)
  | name (s : String)
  deriving DecidableEq, Inhabited

namespace Key

/-- The first number that is too large for an index. -/
def indexBound : Nat := Nat.pow 2 32 - 1

/-- The key that a string stands for (`from_name`): an index exactly when the string is the
decimal text of one. -/
def ofString (s : String) : Key :=
  let n := Nat.ofDigitChars 10 s.toList 0
  if n < indexBound ∧ n.repr = s then index (UInt32.ofNat n) else name s

/-- The text of a key. -/
def text : Key → String
  | index i => i.toNat.repr
  | name s => s

def length : Key := name "length"
def prototype : Key := name "prototype"
def caller : Key := name "caller"
def arguments : Key := name "arguments"
def toStringMethod : Key := name "toString"
def valueOfMethod : Key := name "valueOf"

theorem text_ofString (s : String) : (ofString s).text = s := by
  unfold ofString
  simp only
  split
  · rename_i h
    have hb : Nat.ofDigitChars 10 s.toList 0 < 2 ^ 32 := Nat.lt_trans h.1 (by decide)
    simp only [text, UInt32.toNat_ofNat', Nat.mod_eq_of_lt hb]
    exact h.2
  · rfl

/-- Different strings name different properties. -/
theorem ofString_injective {s t : String} (h : ofString s = ofString t) : s = t := by
  rw [← text_ofString s, h, text_ofString t]

/-- The decimal text of an index names the index. -/
theorem ofString_repr {n : Nat} (h : n < indexBound) :
    ofString n.repr = index (UInt32.ofNat n) := by
  simp [ofString, h]

end Key
end ScriptModel
