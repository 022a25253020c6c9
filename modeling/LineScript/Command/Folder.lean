import LineScript.Text.Quoted

namespace LineScript

/-- What a file holds: a text, or bytes that need not be one. -/
inductive Contents where
  | text (given : String)
  | bytes (given : List UInt8)
  deriving DecidableEq

/-- The text of a file. There is none if the bytes are not UTF-8. -/
def Contents.decode? : Contents → Option String
  | text given => some given
  | bytes given => String.fromUTF8? ⟨given.toArray⟩

/-- Every line break as a single line feed. -/
def unifyBreaks : List Char → List Char
  | [] => []
  | '\r' :: '\n' :: rest => '\n' :: unifyBreaks rest
  | '\r' :: rest => '\n' :: unifyBreaks rest
  | c :: rest => c :: unifyBreaks rest

/-- How a failure to read a file is told, from the number and the words of the system. -/
def failureText (number : Nat) (reason path : String) : String :=
  "[Errno " ++ toString number ++ "] " ++ reason ++ ": " ++ quoted path

/-- Why a file cannot be opened. -/
inductive OpenFailure where
  | missing
  | notFolder
  | isFolder
  | nameTooLong
  deriving DecidableEq

namespace OpenFailure

def number : OpenFailure → Nat
  | missing => 2
  | notFolder => 20
  | isFolder => 21
  | nameTooLong => 36

def reason : OpenFailure → String
  | missing => "No such file or directory"
  | notFolder => "Not a directory"
  | isFolder => "Is a directory"
  | nameTooLong => "File name too long"

def message (failure : OpenFailure) (path : String) : String :=
  failureText failure.number failure.reason path

end OpenFailure

/-- Failures to read a file, told with the path that was tried. -/
class TellsFailure (Failure : Type) where
  message : Failure → String → String

instance : TellsFailure OpenFailure := ⟨OpenFailure.message⟩

/-- The parts of a path that lead anywhere. -/
def pathParts (path : String) : List String :=
  ((path.toList.splitOn '/').map String.ofList).filter fun part => part ≠ "" ∧ part ≠ "."

/-- The slashes that a path starts from. Two of them are kept, more are one. -/
def pathRoot (path : String) : String :=
  match (path.toList.takeWhile (· = '/')).length with
  | 0 => ""
  | 2 => "//"
  | _ => "/"

/-- A path without the parts that lead nowhere. -/
def plainPath (path : String) : String :=
  let plain := pathRoot path ++ "/".intercalate (pathParts path)
  if plain.isEmpty then "." else plain

/-- The files under a folder, each with the parts of its path. Entries without contents are folders,
and so is everything on the way to an entry. -/
structure Folder where
  entries : List (List String × Option Contents)

/-- What a path leads to. -/
inductive Place where
  | nothing
  | folder
  | file (contents : Contents)
  deriving DecidableEq

namespace Folder

def empty : Folder := ⟨[]⟩

def place (folder : Folder) (parts : List String) : Place :=
  match folder.entries.find? fun entry => entry.1 = parts ∧ entry.2.isSome with
  | some (_, some contents) => .file contents
  | _ =>
    if parts.isEmpty || folder.entries.any fun entry => parts.isPrefixOf entry.1 then .folder
    else .nothing

/-- The names directly in the folder, sorted. -/
def names (folder : Folder) : List String :=
  (folder.entries.filterMap (·.1.head?)).eraseDups.mergeSort (· ≤ ·)

/-- The longest name of a file, in bytes. -/
def nameLimit : Nat := 255

/-- Follow a path from where `here` leads. The way up from the top stays at the top. -/
def follow (folder : Folder) : List String → List String → Except OpenFailure Contents
  | _, [] => .error .isFolder
  | here, part :: rest =>
    if part = ".." then folder.follow here.dropLast rest
    else if nameLimit < part.utf8ByteSize then .error .nameTooLong
    else match folder.place (here ++ [part]) with
      | .nothing => .error .missing
      | .folder => folder.follow (here ++ [part]) rest
      | .file contents => if rest.isEmpty then .ok contents else .error .notFolder

end Folder

end LineScript
