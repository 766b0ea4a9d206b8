import ScriptModel.Script.Step

/-!
# Diagnostics

An analysis does not stop at the first exception: it records a diagnostic and goes on.
-/

namespace ScriptModel

/-- An exception as it was observed. -/
structure Diagnostic where
  site : Site
  kind : ErrorKind
  message : String
  deriving DecidableEq

namespace Diagnostic

def ofException (e : Exception) (site : Site) : Diagnostic := ⟨site, e.kind, e.message⟩

def text (d : Diagnostic) : String :=
  d.site.text ++ ": " ++ d.kind.name ++ ": " ++ d.message

end Diagnostic
end ScriptModel
