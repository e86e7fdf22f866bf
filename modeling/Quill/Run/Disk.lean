-- Files and directories that a program can read and write by path.

namespace Quill

/-! ## Errors -/

/-- Why a file or a line cannot be read or written. -/
inductive FileError where
  | notFound | isDirectory | notDirectory | nameTooLong | notText | nulInName
  | other (reason : String)
deriving DecidableEq, Repr

/-- The wording of such an error. -/
def FileError.message : FileError → String
  | .notFound => "No such file or directory (os error 2)"
  | .isDirectory => "Is a directory (os error 21)"
  | .notDirectory => "Not a directory (os error 20)"
  | .nameTooLong => "File name too long (os error 36)"
  | .notText => "stream did not contain valid UTF-8"
  | .nulInName => "file name contained an unexpected NUL byte"
  | .other reason => reason

/-! ## Trees of entries -/

/-- A file with its bytes, a directory with named entries, or a file that
stays empty whatever is written to it. -/
inductive Entry where
  | file (bytes : ByteArray)
  | dir (entries : List (String × Entry))
  | sink

namespace Entry

/-- The named entries with one of them changed, or added if the name is
new. -/
def update (name : String) (change : Option Entry → Entry) :
    List (String × Entry) → List (String × Entry)
  | [] => [(name, change none)]
  | (n, e) :: es => if n = name then (n, change (some e)) :: es else (n, e) :: update name change es

/-- The most bytes that a single name can have. -/
def maxNameSize : Nat := 255

/-- The entry that a row of names leads to. -/
def find : Entry → List String → Except FileError Entry
  | e, [] => .ok e
  | .file _, _ :: _ | .sink, _ :: _ => .error .notDirectory
  | .dir entries, name :: names =>
    if name.utf8ByteSize > maxNameSize then .error .nameTooLong
    else
      match entries.lookup name with
      | some e => e.find names
      | none => .error .notFound

/-- The tree with another entry where a row of names leads. Directories
that are missing on the way are made. -/
def put (tree new : Entry) : List String → Entry
  | [] => new
  | name :: names =>
    match tree with
    | .file bytes => .file bytes
    | .sink => .sink
    | .dir entries => .dir (update name (fun old => (old.getD (.dir [])).put new names) entries)

end Entry

/-! ## Paths -/

/-- A tree of entries and the directory that paths start from. -/
structure Disk where
  root : Entry
  home : List String

namespace Disk

/-- The names that a path is made of. -/
def names (path : String) : List String := (path.splitOn "/").filter (· ≠ "")

/-- The directories that a system keeps at its root. -/
def systemNames : List String :=
  ["bin", "boot", "dev", "etc", "home", "lib", "media", "mnt", "opt", "proc", "root", "run", "sbin",
   "srv", "sys", "tmp", "usr", "var"]

/-- Where the working directory lies: among the temporary files, and under
a name that no path spells, so that only a path from inside leads there. -/
def workplace : List String := ["tmp", ""]

/-- A working directory that holds these entries, each with its path from
there. -/
def ofEntries (entries : List (String × Entry)) : Disk :=
  let system : Entry := .dir (systemNames.map (·, .dir []))
  let bare := (system.put .sink ["dev", "null"]).put (.dir []) workplace
  ⟨entries.foldl (fun tree (path, e) => tree.put e (workplace ++ names path)) bare, workplace⟩

/-- The most bytes that a path can have. -/
def maxPathSize : Nat := 4095

/-- One name further: only a directory leads anywhere. -/
def step (d : Disk) (here : List String) (name : String) : Except FileError (List String) := do
  match ← d.root.find here with
  | .file _ | .sink => .error .notDirectory
  | .dir _ =>
    if name = "." then return here
    else if name = ".." then return here.dropLast
    else return here ++ [name]

/-- Where a path leads. What is there, if anything, is not looked at. -/
def resolve (d : Disk) (path : String) : Except FileError (List String) :=
  if '\x00' ∈ path.toList then .error .nulInName
  else if path.isEmpty then .error .notFound
  else if path.utf8ByteSize > maxPathSize then .error .nameTooLong
  else (names path).foldlM d.step (if path.startsWith "/" then [] else d.home)

/-- The bytes of a file. -/
def read (d : Disk) (path : String) : Except FileError ByteArray := do
  match ← d.root.find (← d.resolve path) with
  | .dir _ => .error .isDirectory
  | .file bytes => if path.endsWith "/" then .error .notDirectory else return bytes
  | .sink => if path.endsWith "/" then .error .notDirectory else return .empty

/-- Makes a file of these bytes, or gives them to one that is there. Its
directory must be there already. -/
def write (d : Disk) (path : String) (bytes : ByteArray) : Except FileError Disk := do
  let here ← d.resolve path
  if path.endsWith "/" then .error .isDirectory
  else
    match d.root.find here with
    | .ok (.dir _) => .error .isDirectory
    | .ok .sink => return d
    | .ok (.file _) | .error .notFound => return { d with root := d.root.put (.file bytes) here }
    | .error e => .error e

/-- The files directly in the working directory. -/
def homeFiles (d : Disk) : List (String × ByteArray) :=
  match d.root.find d.home with
  | .ok (.dir entries) => entries.filterMap fun (name, e) =>
    match e with
    | .file bytes => some (name, bytes)
    | _ => none
  | _ => []

end Disk

end Quill
