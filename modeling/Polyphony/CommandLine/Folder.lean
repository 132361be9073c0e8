import Polyphony.CommandLine.Files

/-! # Folders in memory

A folder that holds files and folders by the names on the way to them. Its paths are
walked name by name, and what stands before a slash must be a folder.
-/
namespace Polyphony.CommandLine

inductive Entry where
  | folder
  | file (bytes : ByteArray)

/-- The entries by their way, the name of the entry itself last. -/
structure Folder where
  entries : List (List String × Entry)

namespace Folder

def empty : Folder := ⟨[]⟩

/-- The entry at a way. The empty way leads to the folder itself. -/
def find? (f : Folder) (way : List String) : Option Entry :=
  if way = [] then some .folder else f.entries.lookup way

def insert (f : Folder) (way : List String) (e : Entry) : Folder :=
  ⟨(way, e) :: f.entries.filter (·.1 ≠ way)⟩

/-- Go on from a way by names. Every step needs a folder to start from. -/
def walk (f : Folder) : (way names : List String) → Except FileError (List String)
  | way, [] => .ok way
  | way, name :: names =>
    match f.find? way with
    | none => .error .notFound
    | some (.file _) => .error .notFolder
    | some .folder =>
      if name = "" ∨ name = "." then f.walk way names
      else if name = ".." then f.walk way.dropLast names
      else f.walk (way ++ [name]) names

/-- The way that a path stands for. Only its last name may be missing. -/
def resolve (f : Folder) (path : String) : Except FileError (List String) :=
  f.walk [] (path.splitOn "/")

def read (f : Folder) (path : String) : Except FileError ByteArray := do
  match f.find? (← f.resolve path) with
  | none => .error .notFound
  | some .folder => .error .isFolder
  | some (.file bytes) => .ok bytes

def makeFolder (f : Folder) (path : String) : Except FileError Folder := do
  let way ← f.resolve path
  if (f.find? way).isSome then .error .alreadyThere else .ok (f.insert way .folder)

def isFolder (f : Folder) (path : String) : Bool :=
  match f.resolve path with
  | .error _ => false
  | .ok way =>
    match f.find? way with
    | some .folder => true
    | _ => false

/-- Put a file into a folder that is there. A slash at the end asks for a folder. -/
def put (f : Folder) (path : String) (bytes : ByteArray) : Except FileError Folder := do
  if path.endsWith "/" then .error .isFolder
  else
    let way ← f.resolve path
    match f.find? way with
    | some .folder => .error .isFolder
    | _ => .ok (f.insert way (.file bytes))

/-- Take over a changed folder, unless the change is refused. -/
def update (change : Folder → Except FileError Folder) : StateM Folder (Except FileError Unit) := do
  match change (← get) with
  | .ok f =>
    set f
    return .ok ()
  | .error e => return .error e

def files : Files (StateM Folder) where
  read path := do return (← get).read path
  makeFolder path := update (·.makeFolder path)
  isFolder path := do return (← get).isFolder path
  put path bytes := update (·.put path bytes)

end Folder
end Polyphony.CommandLine
