import ApiSurface.FileTree.Path

namespace ApiSurface

inductive FileData where
  | stored (bytes : ByteArray)
  /-- So many zero bytes, which take no room. -/
  | zeros (count : Nat)

namespace FileData

instance : DecidableEq FileData
  | .stored a, .stored b =>
    if h : a.data = b.data then .isTrue (congrArg _ (ByteArray.ext h))
    else .isFalse fun he => h (congrArg ByteArray.data (FileData.stored.inj he))
  | .zeros m, .zeros n =>
    if h : m = n then .isTrue (congrArg _ h) else .isFalse fun he => h (FileData.zeros.inj he)
  | .stored _, .zeros _ => .isFalse nofun
  | .zeros _, .stored _ => .isFalse nofun

def ofText (text : String) : FileData := .stored text.toUTF8

def size : FileData → Nat
  | .stored bytes => bytes.size
  | .zeros count => count

def toBytes : FileData → ByteArray
  | .stored bytes => bytes
  | .zeros count => ⟨.replicate count 0⟩

/-- The contents as UTF-8 text, if they are that. -/
def text? : FileData → Option String
  | .stored bytes => String.fromUTF8? bytes
  | .zeros count => some ("".pushn '\x00' count)

end FileData

/-- A file, or a directory with its entries. Absolute paths begin at the root of the whole tree. -/
inductive FileTree where
  | file (data : FileData)
  | dir (entries : List (String × FileTree))

inductive FileError where
  | notFound
  | notADirectory
  | isADirectory
  | nameTooLong
  | invalidUtf8
  | invalidPath
  | alreadyExists
  deriving DecidableEq, Repr

def FileError.message : FileError → String
  | .notFound => "No such file or directory (os error 2)"
  | .notADirectory => "Not a directory (os error 20)"
  | .isADirectory => "Is a directory (os error 21)"
  | .nameTooLong => "File name too long (os error 36)"
  | .invalidUtf8 => "stream did not contain valid UTF-8"
  | .invalidPath => "file name contained an unexpected NUL byte"
  | .alreadyExists => "File exists (os error 17)"

namespace FileTree

def isDir : FileTree → Bool
  | .dir _ => true
  | .file _ => false

def isFile : FileTree → Bool
  | .file _ => true
  | .dir _ => false

def child? (name : String) : FileTree → Option FileTree
  | .dir entries => entries.lookup name
  | .file _ => none

def get? : (tree : FileTree) → (place : List String) → Option FileTree
  | tree, [] => some tree
  | tree, name :: place => (tree.child? name).bind (get? · place)

/-- The entries with `node` under `name`, in place of what was there. -/
def putEntry (name : String) (node : FileTree) :
    List (String × FileTree) → List (String × FileTree)
  | [] => [(name, node)]
  | (n, old) :: rest => if n = name then (n, node) :: rest else (n, old) :: putEntry name node rest

/-- The tree with `node` at a place, in a directory that is there. -/
def put : (tree : FileTree) → (place : List String) → (node : FileTree) → FileTree
  | _, [], node => node
  | .dir entries, name :: place, node =>
    .dir (putEntry name (put ((entries.lookup name).getD (.dir [])) place node) entries)
  | .file data, _ :: _, _ => .file data

/-- The tree without what lies at a place below the root. -/
def remove : (tree : FileTree) → (place : List String) → FileTree
  | .dir entries, [name] => .dir (entries.filter (·.1 ≠ name))
  | .dir entries, name :: place =>
    match entries.lookup name with
    | some child => .dir (putEntry name (remove child place) entries)
    | none => .dir entries
  | tree, _ => tree

/-- One step from the directory at `place`. A name leads to an entry, whatever it is; up from the root is
the root. -/
def step (tree : FileTree) (place : List String) (segment : String) :
    Except FileError (List String) :=
  match tree.get? place with
  | none => .error .notFound
  | some (.file _) => .error .notADirectory
  | some (.dir entries) =>
    if Path.isIdle segment then .ok place
    else if segment = Path.upSegment then .ok place.dropLast
    else if (entries.lookup segment).isSome then .ok (place ++ [segment])
    else if segment.utf8ByteSize > Path.maxSegmentBytes then .error .nameTooLong
    else .error .notFound

/-- The segments of a path that the system takes. -/
def takenSegments (path : String) : Except FileError (List String) :=
  if Path.hasNul path then .error .invalidPath
  else if path = "" then .error .notFound
  else if !Path.isUsable path then .error .nameTooLong
  else .ok (Path.segments path)

/-- Where a path is seen from: the root if it is absolute, else the working place `here`. -/
def startOf (here : List String) (path : String) : List String :=
  if Path.isAbsolute path then [] else here

/-- The place that a path leads to. -/
def locate (tree : FileTree) (path : String) (here : List String) : Except FileError (List String) := do
  (← takenSegments path).foldlM tree.step (startOf here path)

def find? (tree : FileTree) (path : String) (here : List String) : Option FileTree :=
  match tree.locate path here with
  | .ok place => tree.get? place
  | .error _ => none

def pathExists (tree : FileTree) (path : String) (here : List String) : Bool :=
  (tree.find? path here).isSome

def isFileAt (tree : FileTree) (path : String) (here : List String) : Bool :=
  (tree.find? path here).any isFile

def isDirAt (tree : FileTree) (path : String) (here : List String) : Bool :=
  (tree.find? path here).any isDir

def read (tree : FileTree) (path : String) (here : List String) : Except FileError FileData := do
  match tree.get? (← tree.locate path here) with
  | some (.file data) => return data
  | some (.dir _) => throw .isADirectory
  | none => throw .notFound

def readText (tree : FileTree) (path : String) (here : List String) : Except FileError String := do
  match (← tree.read path here).text? with
  | some text => return text
  | none => throw .invalidUtf8

mutual

/-- Every file with the names that lead to it. -/
def files : FileTree → List (List String × FileData)
  | .file data => [([], data)]
  | .dir entries => entryFiles entries
termination_by structural tree => tree

def entryFiles : List (String × FileTree) → List (List String × FileData)
  | [] => []
  | (name, node) :: rest => node.files.map (Prod.map (name :: ·) id) ++ entryFiles rest
termination_by structural entries => entries

end

/-- The files of `after` that are not the same in `before`. -/
def changes (before after : FileTree) : List (List String × FileData) :=
  after.files.filter fun (place, data) =>
    match before.get? place with
    | some (.file old) => old ≠ data
    | _ => true

end FileTree

end ApiSurface
