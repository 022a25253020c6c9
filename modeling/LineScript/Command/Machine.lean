import LineScript.Command.Folder

namespace LineScript

/-- The folders that stand on every machine. -/
def standardFolders : List (List String) :=
  ["bin", "boot", "dev", "etc", "home", "lib", "media", "mnt", "opt", "proc", "root", "run", "sbin",
    "srv", "sys", "tmp"].map ([·]) ++
  ["bin", "lib", "local", "sbin", "share"].map (["usr", ·]) ++
  ["cache", "lib", "local", "lock", "log", "opt", "run", "spool", "tmp"].map (["var", ·])

/-- Where the working folder stands: among the temporary files, under a name that no path can
spell. -/
def workingPlace : List String := ["tmp", ""]

/-- The longest path, in bytes. -/
def pathLimit : Nat := 4095

/-- Where a path starts: at the top, or in the working folder. -/
def pathStart (path : String) : List String :=
  if (pathRoot path).isEmpty then workingPlace else []

/-- Where a path leads when every way up is taken by name alone. -/
def settle : List String → List String → List String
  | here, [] => here
  | here, part :: rest =>
    if part = ".." then settle here.dropLast rest else settle (here ++ [part]) rest

namespace Folder

/-- A machine with the folder as its working folder. It also holds the standard folders and the
device that is always empty. -/
def onMachine (folder : Folder) : Folder where
  entries :=
    (["dev", "null"], some (.text "")) :: standardFolders.map (·, none) ++
    (workingPlace, none) :: folder.entries.map fun entry => (workingPlace ++ entry.1, entry.2)

/-- Open the file at a path. -/
def openFile (folder : Folder) (path : String) : Except OpenFailure Contents :=
  if pathLimit < path.utf8ByteSize then .error .nameTooLong
  else folder.onMachine.follow (pathStart path) (pathParts path)

/-- Open a file to write at its end, and make it if only the file is missing: the names that this
adds to the working folder. -/
def openToAppend (folder : Folder) (path : String) : Except OpenFailure (List String) :=
  let parts := settle (pathStart path) (pathParts path)
  if pathLimit < ("/" ++ "/".intercalate parts).utf8ByteSize then .error .nameTooLong
  else match folder.onMachine.follow [] parts with
    | .ok _ => .ok []
    | .error .missing =>
      if folder.onMachine.place parts.dropLast = .folder then
        .ok (if parts.dropLast = workingPlace then parts.getLast?.toList else [])
      else .error .missing
    | .error failure => .error failure

end Folder

/-- Why a log file cannot be opened. -/
inductive LogFailure where
  | nullInPath
  | cannotOpen (failure : OpenFailure)
  deriving DecidableEq

/-- Open a log file: the names that this adds to the working folder. -/
def Folder.openLog (folder : Folder) (path : String) : Except LogFailure (List String) :=
  if '\x00' ∈ path.toList then .error .nullInPath
  else match folder.openToAppend path with
    | .ok made => .ok made
    | .error failure => .error (.cannotOpen failure)

end LineScript
