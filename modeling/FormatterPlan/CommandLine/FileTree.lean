import FormatterPlan.CommandLine.FileSystem

/-! Files in memory: a tree of directories that holds texts, as a file system whose operations
change the tree. -/

namespace FormatterPlan

/-- A file with its text, or a directory with the names in it and what they stand for. -/
inductive FileTree where
  | file (text : String)
  | directory (entries : List (String × FileTree))

namespace FileTree

def entry? (name : String) : FileTree → Option FileTree
  | file _ => none
  | directory entries => entries.lookup name

/-- The tree in which a name stands for `entry`.  A new name comes last. -/
def setEntry (name : String) (entry : FileTree) : FileTree → FileTree
  | file _ => directory [(name, entry)]
  | directory entries =>
    if entries.any (·.1 == name) then
      directory (entries.map fun old => if old.1 == name then (name, entry) else old)
    else directory (entries ++ [(name, entry)])

/-- The tree with something at the place that names lead to, and with the directories above it. -/
def putAt (content : FileTree) : (names : List String) → FileTree → FileTree
  | [], _ => content
  | name :: rest, tree =>
    setEntry name (putAt content rest ((tree.entry? name).getD (directory []))) tree

/-- The tree of files with these paths. -/
def ofFiles (files : List (String × String)) : FileTree :=
  files.foldl (fun tree (path, text) => (file text).putAt (FilePath.parts path) tree) (directory [])

mutual

/-- The files of what is at a path, with their paths. -/
def filesAt (path : String) : FileTree → List (String × String)
  | file text => [(path, text)]
  | directory entries => filesIn path entries

/-- The files that the names in a directory stand for, with their paths. -/
def filesIn (path : String) : List (String × FileTree) → List (String × String)
  | [] => []
  | (name, entry) :: rest => filesAt (FilePath.join path name) entry ++ filesIn path rest

end

def files (tree : FileTree) : List (String × String) := tree.filesAt ""

/-- A place that a path leads to, by the names that lead to it from the root, and what is there. -/
structure Place where
  names : List String
  content : Option FileTree

/-- The place that parts of a path lead to.  `here` is what is at the place so far, and `above` the
names that lead there, the last one first, each with the directory that it is in.  Only the last
part may be missing; all before it are directories.  The root is the directory above itself. -/
def follow (above : List (String × FileTree)) (here : Option FileTree) :
    List String → Except FileError Place
  | [] => .ok ⟨(above.map (·.1)).reverse, here⟩
  | part :: rest =>
    match here with
    | none => .error .notFound
    | some (file _) => .error .notADirectory
    | some (directory entries) =>
      if part = "." then follow above here rest
      else if part = ".." then
        match above with
        | [] => follow [] here rest
        | (_, parent) :: above => follow above (some parent) rest
      else if FilePath.maxNameBytes < part.utf8ByteSize then .error .tooLong
      else follow ((part, directory entries) :: above) (entries.lookup part) rest

/-- The place that the parts of a path lead to, if the path can be one. -/
def placeOf (tree : FileTree) (path : String) (parts : List String) : Except FileError Place :=
  if path.isEmpty || path.startsWith "/" then .error .notFound
  else if FilePath.maxBytes < path.utf8ByteSize then .error .tooLong
  else follow [] (some tree) parts

/-- The place of a path.  A stroke at the end asks for a directory, as a point after it does. -/
def place (tree : FileTree) (path : String) : Except FileError Place :=
  tree.placeOf path (FilePath.parts path ++ if path.endsWith "/" then ["."] else [])

def lookup (tree : FileTree) (path : String) : Except FileError FileTree := do
  match (← tree.place path).content with
  | some content => .ok content
  | none => .error .notFound

def read (tree : FileTree) (path : String) : Except FileError String := do
  match ← tree.lookup path with
  | file text => .ok text
  | directory _ => .error .isADirectory

def isDirectory (tree : FileTree) (path : String) : Bool :=
  match tree.lookup path with
  | .ok (directory _) => true
  | _ => false

/-- The names in the directory at a path. -/
def names (tree : FileTree) (path : String) : List String :=
  match tree.lookup path with
  | .ok (directory entries) => entries.map (·.1)
  | _ => []

/-- Writes a text to the file at a path, which is new or takes the place of another one.  A stroke
at the end of the path asks for a directory, whatever is there. -/
def write (tree : FileTree) (path text : String) : Except FileError FileTree := do
  if path.endsWith "/" then
    let _ ← tree.placeOf path ((FilePath.parts path).dropLast ++ ["."])
    .error .isADirectory
  else
    match ← tree.place path with
    | ⟨_, some (directory _)⟩ => .error .isADirectory
    | ⟨names, _⟩ => .ok ((file text).putAt names tree)

def createDirectory (tree : FileTree) (path : String) : Except FileError FileTree := do
  match ← tree.place path with
  | ⟨_, some _⟩ => .error .alreadyThere
  | ⟨names, none⟩ => .ok ((directory []).putAt names tree)

/-- Changes the tree, if the change succeeds. -/
def change (result : FileTree → Except FileError FileTree) :
    StateM FileTree (Except FileError Unit) := do
  match result (← get) with
  | .ok tree => do set tree; return .ok ()
  | .error error => return .error error

def fileSystem : FileSystem (StateM FileTree) where
  isPresent path := return ((← get).lookup path).isOk
  isDirectory path := return (← get).isDirectory path
  names path := return (← get).names path
  read path := return (← get).read path
  write path text := change (·.write path text)
  createDirectory path := change (·.createDirectory path)

end FileTree

end FormatterPlan
