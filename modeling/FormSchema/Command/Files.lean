/-! The files that commands work on, on a disk or in memory. -/

namespace FormSchema

/-- The operations on files that commands need.  Paths are texts with `/` between the names. -/
structure Files (m : Type → Type) where
  /-- The text of a file. -/
  read? : String → m (Option String)
  /-- Whether a path leads to a file or a folder. -/
  leads : String → m Bool
  isFolder : String → m Bool
  /-- The names in a folder. -/
  names : String → m (List String)
  /-- Makes a folder and those around it; false if that cannot be done. -/
  makeFolder : String → m Bool
  /-- Writes a file; false if that cannot be done. -/
  write : String → String → m Bool

namespace PathText

def parts (path : String) : List String := (path.toList.splitOn '/').map String.ofList

def join (folder name : String) : String :=
  if folder.isEmpty || folder.endsWith "/" then folder ++ name else folder ++ "/" ++ name

/-- Whether a path stays where it starts: `.`, or that followed by nothing but `.` and slashes. -/
def isHere (path : String) : Bool :=
  path.startsWith "." && (parts path).all fun part => part == "." || part == ""

def isPlainName (part : String) : Bool := part != "" && part != "." && part != ".."

/-- The folder of a path: what is left without the last name and what follows it. -/
def folder (path : String) : String :=
  let rest := (parts path).reverse.dropWhile fun part => part == "" || part == "."
  let kept := (rest.drop 1).reverse
  match kept with
  | [] => ""
  | [""] => "/"
  | kept => String.intercalate "/" kept

end PathText

end FormSchema
