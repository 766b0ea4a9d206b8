/-!
# Quoted text

A string between double quotes, with a backslash before what would end it or could not be
seen.
-/

namespace ScriptModel.Text

/-- How one character is written inside quotes. The rule covers ASCII. The analyser also
escapes what cannot be seen beyond it, such as U+0085 and U+200B; that is left out, and such
a character stands for itself here. -/
def escape (c : Char) : List Char :=
  if c = '"' then ['\\', '"']
  else if c = '\\' then ['\\', '\\']
  else if c = '\n' then ['\\', 'n']
  else if c = '\r' then ['\\', 'r']
  else if c = '\t' then ['\\', 't']
  else if c = '\x00' then ['\\', '0']
  else if c.toNat < 0x20 ∨ c.toNat = 0x7F then
    '\\' :: 'u' :: '\x7b' :: (Nat.toDigits 16 c.toNat ++ ['\x7d'])
  else [c]

/-- The text between double quotes. -/
def quoted (s : String) : String :=
  String.ofList ('"' :: (s.toList.flatMap escape ++ ['"']))

end ScriptModel.Text
