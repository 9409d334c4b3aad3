import PlanarMath.Text.Quoted

/-!
# Files

The files that a run sees, as a map from paths to contents.  A path is a list of names from the working
directory on; `.` and empty names say nothing and are dropped.  Files are read whole, and written only
by adding at the end.

The root and the directories above the working directory are there, but nothing is known in them.
-/

namespace PlanarMath.CommandLine

/-- What stands at a path. -/
inductive Entry where
  | directory
  | file (content : String)
  deriving DecidableEq, Repr

/-- The names from the working directory to a place. -/
abbrev Path := List String

/-- The entries of all places that there are, the working directory itself apart. -/
abbrev Files := List (Path × Entry)

/-- A reason of the system for not opening a file. -/
inductive FileCause where
  | notFound
  | exists
  | notDirectory
  | isDirectory
  | nameTooLong
  deriving DecidableEq, Repr

/-- Why a file cannot be opened. -/
inductive FileError where
  /-- The system refuses a path. -/
  | refused (cause : FileCause) (path : String)
  /-- The path holds the character that ends paths. -/
  | nullInPath
  /-- The path of a directory that is to be made holds it. -/
  | nullInDirectory
  deriving DecidableEq, Repr

/-- The number and the wording of a reason. -/
def FileCause.text : FileCause → String
  | .notFound => "[Errno 2] No such file or directory: "
  | .exists => "[Errno 17] File exists: "
  | .notDirectory => "[Errno 20] Not a directory: "
  | .isDirectory => "[Errno 21] Is a directory: "
  | .nameTooLong => "[Errno 36] File name too long: "

/-- The wording of an error. -/
def FileError.message : FileError → String
  | .refused cause path => cause.text ++ Text.quoted path
  | .nullInPath => "embedded null byte"
  | .nullInDirectory => "mkdir: embedded null character in path"

namespace Path

/-- The name that a path from the root starts with; two slashes are a root of their own. -/
def root? (s : String) : Option String :=
  match s.toList.takeWhile (· == '/') with
  | [] => none
  | ['/', '/'] => some "//"
  | _ => some "/"

/-- Whether a name is a root. -/
def isRoot (name : String) : Bool := name == "/" || name == "//"

/-- The names of a written path; a path from the root starts with a name of its own. -/
def ofText (s : String) : Path :=
  (root? s).toList ++ (s.splitOn "/").filter fun n => n != "" && n != "."

/-- The text of a path. -/
def text : Path → String
  | [] => "."
  | name :: names =>
    if isRoot name then name ++ "/".intercalate names else "/".intercalate (name :: names)

/-- The place above a place; above the working directory it is written `..`, and there is none above a
root. -/
def above (place : Path) : Path :=
  if place.length = 1 ∧ place.all isRoot then place
  else if place.all (· == "..") then place ++ [".."]
  else place.dropLast

/-- Whether a place is a directory in any case. -/
def isFixed (place : Path) : Bool :=
  place.all (· == "..") || (place.length == 1 && place.all isRoot)

/-- The most bytes that a name may have. -/
def nameLimit : Nat := 255

/-- The most bytes that the text of a path may have. -/
def textLimit : Nat := 4095

end Path

namespace Files

/-- What stands at a place. -/
def find? (files : Files) (place : Path) : Option Entry :=
  if place.isFixed then some .directory else files.lookup place

/-- The files after what stands at a path was set. -/
def insert (files : Files) (path : Path) (entry : Entry) : Files :=
  (path, entry) :: files.filter (·.1 != path)

/-- The files with a file at a path and all directories above it. -/
def withFile (files : Files) (path : Path) (content : String) : Files :=
  let above := (List.range path.length).map fun n => path.take n
  let dirs := above.foldl (fun files dir =>
    if dir.isEmpty || (files.find? dir).isSome then files else files.insert dir .directory) files
  dirs.insert path (.file content)

/-- The place that a path leads to from another one; every place on the way has to be a directory, and
`..` leads back. -/
def walk (files : Files) (place : Path) : Path → Except FileCause Path
  | [] => .ok place
  | name :: rest => match files.find? place with
    | some .directory =>
      if Path.nameLimit < name.utf8ByteSize then .error .nameTooLong
      else files.walk (if name = ".." then place.above else place ++ [name]) rest
    | some (.file _) => .error .notDirectory
    | none => .error .notFound

/-- The place that a path leads to from the working directory. -/
def place (files : Files) (path : Path) : Except FileCause Path :=
  if Path.textLimit < path.text.utf8ByteSize then .error .nameTooLong else files.walk [] path

/-- The content of the file at a path. -/
def read (files : Files) (s : String) : Except FileError String :=
  let path := Path.ofText s
  let refuse (cause : FileCause) := .error (.refused cause (Path.text path))
  if s.toList.contains '\x00' then .error .nullInPath
  else match files.place path with
    | .error cause => refuse cause
    | .ok place => match files.find? place with
      | some (.file content) => .ok content
      | some .directory => refuse .isDirectory
      | none => refuse .notFound

/-- The files after a directory was to be made, with those above it, and whether it is there now; the
path is given backwards.  What was made above stays also when the rest fails. -/
def makeDirectory (files : Files) : (reversed : List String) → Files × Except FileError Unit
  | [] => (files, .ok ())
  | name :: above =>
    let path := (name :: above).reverse
    let make (files : Files) : Files × Except FileError Unit := match files.place path with
      | .error cause => (files, .error (.refused cause (Path.text path)))
      | .ok place => match files.find? place with
        | some .directory => (files, .ok ())
        | some (.file _) => (files, .error (.refused .exists (Path.text path)))
        | none => (files.insert place .directory, .ok ())
    match files.place path with
    | .error .notFound => match makeDirectory files above with
      | (files, .error e) => (files, .error e)
      | (files, .ok ()) => make files
    | _ => make files

/-- The files after a file was to be opened for adding to it, which makes it and the directories above
it where they are missing; and its place with what it holds, if it could be opened. -/
def openToAdd (files : Files) (s : String) : Files × Except FileError (Path × String) :=
  let path := Path.ofText s
  if path.dropLast.any (·.toList.contains '\x00') then (files, .error .nullInDirectory)
  else match makeDirectory files path.reverse.tail with
    | (files, .error e) => (files, .error e)
    | (files, .ok ()) =>
      if s.toList.contains '\x00' then (files, .error .nullInPath)
      else match files.place path with
        | .error cause => (files, .error (.refused cause (Path.text path)))
        | .ok place => match files.find? place with
          | some (.file content) => (files, .ok (place, content))
          | some .directory => (files, .error (.refused .isDirectory (Path.text path)))
          | none => (files.insert place (.file ""), .ok (place, ""))

end Files

end PlanarMath.CommandLine
