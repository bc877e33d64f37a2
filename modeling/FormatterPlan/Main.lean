import FormatterPlan.CommandLine.Run
import FormatterPlan.CommandLine.Usage

/-! The program: it reads the words of its command line and runs the request on the files of the
system. -/

namespace FormatterPlan

/-- The cause of a failed operation on files. -/
def FileError.ofSystem : IO.Error → FileError
  | .noFileOrDirectory .. => .notFound
  | .alreadyExists .. => .alreadyThere
  | .inappropriateType _ 21 _ => .isADirectory
  | .inappropriateType .. => .notADirectory
  | .invalidArgument _ 36 _ => .tooLong
  | error => .other (toString error)

def fileResult {α : Type} (action : IO α) : IO (Except FileError α) := do
  try return .ok (← action)
  catch error => return .error (.ofSystem error)

/-- What is at a path, if anything is. -/
def fileType? (path : String) : IO (Option IO.FS.FileType) := do
  try return some (← System.mkFilePath [path] |>.metadata).type
  catch _ => return none

def isSystemDirectory (path : String) : IO Bool := do
  match ← fileType? path with
  | some .dir => return true
  | _ => return false

/-- The text of a file.  A directory has none, and bytes that are no text are an error. -/
def readSystemFile (path : String) : IO (Except FileError String) := do
  if ← isSystemDirectory path then return .error .isADirectory
  match ← fileResult (IO.FS.readBinFile path) with
  | .error error => return .error error
  | .ok bytes =>
    match String.fromUTF8? bytes with
    | some text => return .ok text
    | none => return .error .notText

/-- Writes the text of a file, which may not be a directory. -/
def writeSystemFile (path text : String) : IO (Except FileError Unit) := do
  if ← isSystemDirectory path then return .error .isADirectory
  fileResult (IO.FS.writeFile path text)

/-- The files of the system. -/
def systemFiles : FileSystem IO where
  isPresent path := return (← fileType? path).isSome
  isDirectory := isSystemDirectory
  names path := do
    match ← fileResult (System.mkFilePath [path] |>.readDir) with
    | .ok found => return found.toList.map (·.fileName)
    | .error _ => return []
  read := readSystemFile
  write := writeSystemFile
  createDirectory path := fileResult (IO.FS.createDir path)

def runWords (words : List String) : IO UInt32 := do
  match Request.ofWords words with
  | .error .help => do
    IO.print UsageError.help.message
    return 0
  | .error error => do
    IO.eprint error.message
    return error.exitCode.toUInt32
  | .ok request => do
    let outcome ← request.run systemFiles
    IO.eprint outcome.errors
    IO.print outcome.output
    return outcome.code.toUInt32

end FormatterPlan

/-- Runs the request of the command line. -/
def main (words : List String) : IO UInt32 := FormatterPlan.runWords words
