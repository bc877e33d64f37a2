import FormatterPlan.PathPattern

/-! Files as the command line sees them: the operations it needs, in whatever monad they happen, and
the search for the paths that a pattern matches. -/

namespace FormatterPlan

/-- Why a file operation fails. -/
inductive FileError where
  | notFound
  | alreadyThere
  | notADirectory
  | isADirectory
  | tooLong
  | notText
  | other (message : String)
deriving DecidableEq

def FileError.message : FileError → String
  | .notFound => "No such file or directory (os error 2)"
  | .alreadyThere => "File exists (os error 17)"
  | .notADirectory => "Not a directory (os error 20)"
  | .isADirectory => "Is a directory (os error 21)"
  | .tooLong => "File name too long (os error 36)"
  | .notText => "stream did not contain valid UTF-8"
  | .other message => message

structure FileSystem (m : Type → Type) where
  isPresent : (path : String) → m Bool
  isDirectory : (path : String) → m Bool
  /-- The names in a directory, in any order. -/
  names : (path : String) → m (List String)
  read : (path : String) → m (Except FileError String)
  write : (path text : String) → m (Except FileError Unit)
  createDirectory : (path : String) → m (Except FileError Unit)

namespace FilePath

def maxBytes : Nat := 4095

def maxNameBytes : Nat := 255

def join (directory name : String) : String :=
  if directory.isEmpty || directory.endsWith "/" then directory ++ name
  else directory ++ "/" ++ name

/-- The parts of a path that are not empty. -/
def parts (path : String) : List String :=
  ((PathPattern.partsFrom [] path.toList).map String.ofList).filter (! ·.isEmpty)

/-- Whether a path leads nowhere. -/
def isHere (path : String) : Bool := !path.startsWith "/" && (parts path).all (· == ".")

/-- The parts of a path that lead on.  A point does not, but it may start a path. -/
def steps (path : String) : List String :=
  match parts path with
  | first :: rest =>
    let rest := rest.filter (· != ".")
    if first = "." ∧ path.startsWith "/" then rest else first :: rest
  | [] => []

/-- The paths that the parts of a path, last first, lead to, each with one part less. -/
def leading (root : String) : (parts : List String) → List String
  | [] => []
  | part :: above => (root ++ "/".intercalate (part :: above).reverse) :: leading root above

def ancestors (path : String) : List String :=
  leading (if path.startsWith "/" then "/" else "") (steps path).reverse.tail

end FilePath

namespace FileSystem

variable {m : Type → Type} [Monad m]

/-- The path of an entry of a directory.  The directory that leads nowhere is left out. -/
def entryPath (directory name : String) : String :=
  if FilePath.isHere directory then name else FilePath.join directory name

/-- How deep a search for directories goes: no path of this many names is short enough to be
opened. -/
def maxDepth : Nat := 4096

/-- The results of `visit` for all entries below a directory, names in ascending order and each
entry before its own entries. -/
def below (fs : FileSystem m) (visit : (path name : String) → m (List String)) :
    (depth : Nat) → (directory : String) → m (List String)
  | 0, _ => pure []
  | depth + 1, directory => do
    if ← fs.isDirectory directory then
      let names := (← fs.names directory).mergeSort (· ≤ ·)
      let found ← names.mapM fun name => do
        let path := entryPath directory name
        return (← visit path name) ++ (← below fs visit depth path)
      return found.flatten
    else return []

/-- The special names that pieces stand for.  Only pieces that start with a point do. -/
def specialNames (pieces : List PathPiece) : List String :=
  match pieces with
  | .char '.' :: _ => ["..", "."].filter fun name => PathPiece.allMatch pieces name.toList
  | _ => []

/-- The paths at `path` that components of a pattern lead to, in ascending order of names. -/
def matching (fs : FileSystem m) (onlyDirectories : Bool) :
    (components : List PathComponent) → (path : String) → m (List String)
  | [], path => do
    if onlyDirectories && !(← fs.isDirectory path) then return [] else return [path]
  | .name name :: rest, path => do
    let next := entryPath path name
    let isThere ← if name == "." || name == ".." then fs.isDirectory path else fs.isPresent next
    if isThere then matching fs onlyDirectories rest next else return []
  | .pieces pieces :: rest, path => do
    if ← fs.isDirectory path then
      let names := (← fs.names path).mergeSort (· ≤ ·)
      let special := (specialNames pieces).map (FilePath.join path)
      let usual := (names.filter fun name => PathPiece.allMatch pieces name.toList).map
        (entryPath path)
      return (← (special ++ usual).mapM (matching fs onlyDirectories rest)).flatten
    else return []
  | [.anyDirectories], path =>
    fs.below (fun entry _ => do if ← fs.isDirectory entry then return [entry] else return [])
      maxDepth path
  | .anyDirectories :: component :: rest, path =>
    fs.below (fun entry name =>
      if component.accepts name then matching fs onlyDirectories rest entry else return [])
      maxDepth path

def search (fs : FileSystem m) (pattern : PathPattern) : m (List String) :=
  fs.matching pattern.onlyDirectories pattern.components pattern.base

/-- Creates a directory, unless it is there. -/
def ensureDirectory (fs : FileSystem m) (path : String) : m (Except FileError Unit) := do
  match ← fs.createDirectory path with
  | .ok () => return .ok ()
  | .error error => if ← fs.isDirectory path then return .ok () else return .error error

/-- Creates the first of some directories, each of which is in the next one: goes on as long as a
directory is missing, and back. -/
def ensureFirst (fs : FileSystem m) : (directories : List String) → m (Except FileError Unit)
  | [] => return .ok ()
  | path :: above => do
    match ← fs.ensureDirectory path with
    | .error .notFound =>
      match ← ensureFirst fs above with
      | .ok () => fs.ensureDirectory path
      | .error error => return .error error
    | result => return result

/-- Creates the directories above a path that are missing. -/
def ensureAncestors (fs : FileSystem m) (path : String) : m (Except FileError Unit) :=
  fs.ensureFirst (FilePath.ancestors path)

end FileSystem

end FormatterPlan
