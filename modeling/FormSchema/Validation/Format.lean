import FormSchema.Pattern.Reader

/-! Named formats of text, each given by a pattern. -/

namespace FormSchema

/-- Formats by name; a name stands once. -/
abbrev Formats := List (String × Pattern)

namespace Formats

/-- Adds a format, or replaces the one of that name; `none` if the pattern is not well formed. -/
def register? (formats : Formats) (name pattern : String) : Option Formats :=
  (Pattern.read? pattern).map fun p => (name, p) :: formats.filter (·.1 ≠ name)

/-- Adds formats one after the other, up to the first whose pattern is not well formed, whose name
is returned. -/
def registerAll (formats : Formats) : List (String × String) → Except String Formats
  | [] => .ok formats
  | (name, pattern) :: rest =>
    match formats.register? name pattern with
    | some formats => formats.registerAll rest
    | none => .error name

/-- Whether a text has a format, if the format is known. -/
def check? (formats : Formats) (name text : String) : Option Bool :=
  (formats.lookup name).map fun p => p.found text

def common : List (String × String) := [
  ("date", "^\\d\x7b4\x7d-\\d\x7b2\x7d-\\d\x7b2\x7d$"),
  ("time", "^\\d\x7b2\x7d:\\d\x7b2\x7d(:\\d\x7b2\x7d(\\.\\d+)?)?$"),
  ("date-time", "^\\d\x7b4\x7d-\\d\x7b2\x7d-\\d\x7b2\x7d[Tt ]\\d\x7b2\x7d:\\d\x7b2\x7d" ++
    "(:\\d\x7b2\x7d(\\.\\d+)?)?([Zz]|[+-]\\d\x7b2\x7d:\\d\x7b2\x7d)?$"),
  ("email", "^[^@\\s]+@[^@\\s]+\\.[^@\\s]+$"),
  ("uri", "^[A-Za-z][A-Za-z0-9+.-]*:\\S+$"),
  ("color", "^#([0-9A-Fa-f]\x7b3\x7d|[0-9A-Fa-f]\x7b6\x7d)$")]

def standard : Formats := common.filterMap fun (name, pattern) =>
  (Pattern.read? pattern).map fun p => (name, p)

end Formats

end FormSchema
