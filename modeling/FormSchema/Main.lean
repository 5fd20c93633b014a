import FormSchema.Command.Run

/-!
The program on the command line.  It reads and writes the files that its arguments name; the names
in a folder are left to the shell, which replaces wildcards before the program starts.
-/

open FormSchema

namespace CommandLine

def succeeds {α : Type} (action : IO α) : IO Bool := do
  try
    let _ ← action
    return true
  catch _ => return false

def onDisk : Files IO where
  read? path := do
    try
      return some (← IO.FS.readFile path)
    catch _ => return none
  leads path := succeeds (IO.FS.Handle.mk path .read)
  isFolder path := return PathText.isHere path
  names _ := return []
  makeFolder path := if path.isEmpty then return true else succeeds (IO.FS.createDirAll path)
  write path text := succeeds (IO.FS.writeFile path text)

def usage : String :=
  "Usage: form-schema [-v] <compile|normalize|link|eval> [options]\n\n" ++
  "  compile    compile a schema and print a record of each place and the errors\n" ++
  "  normalize  print the normal form of a schema\n" ++
  "  link       link and validate data files against a schema\n" ++
  "  eval       evaluate one expression keyword at a data pointer\n\n" ++
  "  -s, --schema <file>      schema document\n" ++
  "  -c, --config <file>      configuration\n" ++
  "      --dialect <name>     draft4, draft7 or draft2019\n" ++
  "  -d, --data <file>        data document (compile, eval)\n" ++
  "  -o, --out <file>         write the output here (compile, normalize)\n" ++
  "  -i, --input <file>...    data files (link)\n" ++
  "  -p, --pointer <pointer>  data pointer (eval)\n" ++
  "  -k, --keyword <name>     expression keyword (eval)\n"

def complaint : Command.UsageError → String
  | .help | .nothing => ""
  | .noVerb => "error: a command is missing\n\n"
  | .unknownVerb => "error: unrecognized command\n\n"
  | .unknownArgument => "error: unexpected argument\n\n"
  | .missingOption => "error: a required argument is missing\n\n"
  | .badValue => "error: invalid value\n\n"
  | .repeated => "error: an argument is used more than once\n\n"
  | .flagValue => "error: unexpected value\n\n"

def messageText : Command.Message → String
  | .text s => s
  | .files => "the file system refused"
  | .json => "no JSON text"
  | .wildcard => "the pattern is not well formed"

def failureText (failure : Command.Failure) : String :=
  String.intercalate ": " (failure.messages.map messageText)

end CommandLine

def main (words : List String) : IO UInt32 := do
  match Command.ofWords words with
  | .error .help =>
    IO.print CommandLine.usage
    return 0
  | .error e =>
    IO.eprint (CommandLine.complaint e ++ CommandLine.usage)
    return 2
  | .ok command =>
    let (failure, output) ← command.run CommandLine.onDisk
    for line in output.told do
      IO.eprintln line
    IO.print output.printed
    match failure with
    | none => return 0
    | some failure =>
      IO.eprintln ("error: " ++ CommandLine.failureText failure)
      return 1
