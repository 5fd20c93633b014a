import FormSchema.Command.Files

/-!
A folder in memory.  It holds files by the names on the way to them; a folder in it is there as long
as it has a file somewhere below.
-/

namespace FormSchema

structure Folder where
  files : List (List String × String)

namespace Folder

/-- The folder with a file, which takes the place of a file that is there. -/
def put (f : Folder) (path : List String) (text : String) : Folder :=
  ⟨f.files.filter (·.1 ≠ path) ++ [(path, text)]⟩

def ofFiles (files : List (String × String)) : Folder :=
  files.foldl (fun f (path, text) => f.put ((PathText.parts path).filter (· != "")) text) ⟨[]⟩

def file? (f : Folder) (path : List String) : Option String := f.files.lookup path

def isFolder (f : Folder) (path : List String) : Bool :=
  path.isEmpty || f.files.any fun file => path.isPrefixOf file.1 && path.length < file.1.length

/-- Goes on from a place, along names, upwards with `..`; every name but the last has to pass the
test.  Nothing leads out of the folder. -/
def follow (passes : List String → Bool) (here : List String) :
    List String → Option (List String)
  | [] => some here
  | part :: rest =>
    if !passes here then none
    else if part == "" || part == "." then follow passes here rest
    else if part == ".." then
      if here.isEmpty then none else follow passes here.dropLast rest
    else follow passes (here ++ [part]) rest

/-- The parts of a path that is relative and not empty. -/
def relative? (path : String) : Option (List String) :=
  if path.isEmpty || path.startsWith "/" then none else some (PathText.parts path)

/-- The place that a path leads to, through folders that are there. -/
def find? (f : Folder) (path : String) : Option (List String) :=
  (relative? path).bind (follow f.isFolder [])

/-- The place that a path would lead to if the missing folders were there. -/
def target? (f : Folder) (path : String) : Option (List String) :=
  (relative? path).bind (follow (fun here => (f.file? here).isNone) [])

def read? (f : Folder) (path : String) : Option String := (f.find? path).bind f.file?

def names (f : Folder) (path : List String) : List String :=
  (f.files.filterMap fun file =>
    if path.isPrefixOf file.1 then (file.1.drop path.length).head? else none).eraseDups

/-- Whether a folder can be made at a path, or is there. -/
def canMake (f : Folder) (path : String) : Bool :=
  path.isEmpty || (f.target? path).any fun place => (f.file? place).isNone

/-- Writes a file, if the path ends in a name that is not the name of a folder. -/
def write? (f : Folder) (path text : String) : Option Folder := do
  let place ← f.target? path
  if (PathText.parts path).getLast?.any PathText.isPlainName && !f.isFolder place then
    return f.put place text
  else none

/-- The operations on files, for a folder that is kept as the state. -/
def operations : Files (StateM Folder) where
  read? path := do return (← get).read? path
  leads path := do
    let f ← get
    return (f.find? path).any fun place => f.isFolder place || (f.file? place).isSome
  isFolder path := do
    let f ← get
    return (f.find? path).any f.isFolder
  names path := do
    let f ← get
    return ((f.find? path).map f.names).getD []
  makeFolder path := do return (← get).canMake path
  write path text := do
    match (← get).write? path text with
    | some f => set f; return true
    | none => return false

end Folder

end FormSchema
