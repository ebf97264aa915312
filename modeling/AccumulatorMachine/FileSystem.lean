import AccumulatorMachine.FileSystem.Access
import AccumulatorMachine.FileSystem.Route

/-!
# A model of files

Files are values: a list of paths with contents, and a list of folders. Following a route
never changes anything, so whether a file can be read, and where a file would be written,
are questions about the state before.

A file can only be put into a folder that exists, and only under a name that no folder has.
A route that asks for a folder is refused for writing before its last name is looked up.
-/

namespace AccumulatorMachine

/-- Files with their contents, and folders. -/
structure FileSystem where
  files : List (FileSystem.Path × List UInt8) := []
  folders : List FileSystem.Path := []

namespace FileSystem

/-- What a name leads to. -/
inductive Place where
  | file (path : Path)
  | folder (path : Path)
  /-- Nothing yet, in a folder that exists. -/
  | vacant (path : Path)
  deriving DecidableEq

def contents? (fs : FileSystem) (path : Path) : Option (List UInt8) := fs.files.lookup path

/-- The file system with other contents of one file. -/
def put (fs : FileSystem) (path : Path) (bytes : List UInt8) : FileSystem :=
  { fs with files := (path, bytes) :: fs.files.filter (·.1 != path) }

/-- The folders that every system has at its root, and `/dev/null`. That is an ordinary file here: it
begins empty, and unlike the real one it keeps what is written to it. -/
def surroundings : FileSystem :=
  ⟨[(["/", "dev", "null"], [])], [Path.root, ["/", "dev"], ["/", "tmp"]]⟩

/-- The file system with given files in the current folder, and the folders on the way to them. -/
def ofFiles (files : List (Path × List UInt8)) : FileSystem :=
  ⟨files ++ surroundings.files,
    files.flatMap (fun (path, _) => (List.range path.length).map path.take) ++ surroundings.folders⟩

/-- Whether a path is that of a folder. The current folder and those above it always are. -/
def HasFolder (fs : FileSystem) (path : Path) : Prop := path ∈ fs.folders ∨ ∀ name ∈ path, name = ".."

instance (fs : FileSystem) (path : Path) : Decidable (fs.HasFolder path) :=
  inferInstanceAs (Decidable (_ ∨ _))

/-! ## Following a route -/

/-- Where a name leads from a folder. -/
def lookUp (fs : FileSystem) (folder : Path) (name : String) : Except FileFault Place :=
  if name = "." then .ok (.folder folder)
  else if name = ".." then .ok (.folder folder.parent)
  else if maxNameBytes < name.utf8ByteSize then .error .nameTooLong
  else
    let path := folder ++ [name]
    if fs.HasFolder path then .ok (.folder path)
    else if (fs.contents? path).isSome then .ok (.file path)
    else .ok (.vacant path)

/-- The folder that names lead to, each of them to a folder. -/
def enter (fs : FileSystem) (folder : Path) : List String → Except FileFault Path
  | [] => .ok folder
  | name :: names => do
    match ← fs.lookUp folder name with
    | .folder path => fs.enter path names
    | .file _ => .error .notFolder
    | .vacant _ => .error .notFound

/-- The contents of the file at the end of a route. -/
def read (fs : FileSystem) (text : String) : Except FileFault (List UInt8) := do
  let r ← route text
  let folder ← fs.enter r.origin r.folders
  match ← fs.lookUp folder r.last with
  | .file path =>
    if r.toFolder then .error .notFolder
    else match fs.contents? path with
      | some bytes => .ok bytes
      | none => .error .notFound
  | .folder _ => .error .isFolder
  | .vacant _ => .error .notFound

/-- The path of the new or old file at the end of a route. -/
def target (fs : FileSystem) (text : String) : Except FileFault Path := do
  let r ← route text
  let folder ← fs.enter r.origin r.folders
  if r.toFolder then .error .isFolder
  else match ← fs.lookUp folder r.last with
    | .file path | .vacant path => .ok path
    | .folder _ => .error .isFolder

/-- The file system with other contents of the file at the end of a route, which is created if
need be. -/
def write (fs : FileSystem) (text : String) (bytes : List UInt8) : Except FileFault FileSystem :=
  (fs.target text).map fun path => fs.put path bytes

instance : FileAccess (StateM FileSystem) where
  read text := fun fs => (fs.read text, fs)
  write text bytes := fun fs =>
    match fs.write text bytes with
    | .ok next => (.ok (), next)
    | .error fault => (.error fault, fs)

/-- A file holds what was last put there, and putting leaves the others alone. -/
theorem contents?_put (fs : FileSystem) (path other : Path) (bytes : List UInt8) :
    (fs.put path bytes).contents? other = if other = path then some bytes else fs.contents? other := by
  unfold contents? put
  by_cases hsame : other = path
  · simp [hsame]
  · have hdiffer : (other == path) = false := by simpa using hsame
    simp only [List.lookup_cons, hdiffer, hsame, if_false]
    induction fs.files with
    | nil => rfl
    | cons file files ih =>
        obtain ⟨name, old⟩ := file
        by_cases hhere : name = path
        · have hskip : (other == name) = false := by simpa [hhere] using hsame
          simpa [hhere, List.lookup_cons, hdiffer] using ih
        · by_cases hfound : other = name
          · simp [hhere, hfound]
          · have hskip : (other == name) = false := by simpa using hfound
            simpa [hhere, List.lookup_cons, hskip] using ih

end FileSystem

end AccumulatorMachine
