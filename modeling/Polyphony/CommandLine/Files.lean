/-! # Files

What the program asks of the place where its files are, and why that may be refused.
A path is a text of names and slashes. Writing a file makes the folders above it.
-/
namespace Polyphony.CommandLine

inductive FileError where
  | system (message : String) (code : Nat)
  | notText
deriving DecidableEq, Repr

namespace FileError

def notFound : FileError := .system "No such file or directory" 2
def alreadyThere : FileError := .system "File exists" 17
def notFolder : FileError := .system "Not a directory" 20
def isFolder : FileError := .system "Is a directory" 21

def text : FileError → String
  | .system message code => s!"{message} (os error {code})"
  | .notText => "stream did not contain valid UTF-8"

end FileError

/-- A place of files: to read one, to make one folder where nothing is, to tell whether
a path leads to a folder, and to put a file into a folder that is there. -/
structure Files (m : Type → Type) where
  read : String → m (Except FileError ByteArray)
  makeFolder : String → m (Except FileError Unit)
  isFolder : String → m Bool
  put : String → ByteArray → m (Except FileError Unit)

/-- The names on the way to the folder that holds the last name of a path, the last
of them first. -/
def namesAbove (path : String) : List String :=
  let above := (path.toList.reverse.dropWhile (· == '/')).dropWhile (· ≠ '/')
  let above := above.dropWhile (· == '/')
  if above = [] then [] else ((String.ofList above.reverse).splitOn "/").reverse

/-- A name without what follows its last point. A point in front is part of the name. -/
def stem (name : List Char) : List Char :=
  match name.reverse.dropWhile (· ≠ '.') with
  | _ :: c :: cs => (c :: cs).reverse
  | _ => name

/-- The path with the extension of its last name replaced by the one for Wave files. -/
def wavePath (path : String) : String :=
  let back := path.toList.reverse
  let name := (back.takeWhile (· ≠ '/')).reverse
  String.ofList ((back.dropWhile (· ≠ '/')).reverse ++ stem name ++ ".wav".toList)

namespace Files
variable {m : Type → Type} [Monad m]

/-- Make the folder with the given names, the last name first, and those above it that
are missing. A folder that is there already is no error. -/
def makeFolders (files : Files m) : List String → m (Except FileError Unit)
  | [] => return .ok ()
  | name :: above => do
    let path := "/".intercalate (name :: above).reverse
    let settle (e : FileError) : m (Except FileError Unit) := do
      if ← files.isFolder path then return .ok () else return .error e
    match ← files.makeFolder path with
    | .ok () => return .ok ()
    | .error e =>
      if e = .notFound then
        match ← makeFolders files above with
        | .error e => return .error e
        | .ok () =>
          match ← files.makeFolder path with
          | .ok () => return .ok ()
          | .error e => settle e
      else settle e

def write (files : Files m) (path : String) (bytes : ByteArray) : m (Except FileError Unit) := do
  match ← files.makeFolders (namesAbove path) with
  | .error e => return .error e
  | .ok () => files.put path bytes

def readText (files : Files m) (path : String) : m (Except FileError String) := do
  match ← files.read path with
  | .error e => return .error e
  | .ok bytes =>
    match String.fromUTF8? bytes with
    | some text => return .ok text
    | none => return .error .notText

end Files
end Polyphony.CommandLine
