/-!
# Files

Commands name files by paths. A path is followed step by step from the folder in which the
program runs, and every step but the last has to lead to a folder.

## Main definitions

* `FileError` — why a path gives no bytes.
* `Files` — what reading each path gives.
* `Folder.read` — the files of a folder that holds files only.
-/
namespace ChessMachine

inductive FileError where
  /-- The path cannot be opened. -/
  | unopened (reason : String)
  /-- The path was opened, but there is nothing to read. -/
  | unread (reason : String)
deriving DecidableEq

namespace FileError

def missing : FileError := unopened "No such file or directory (os error 2)"

/-- A path goes on behind a file. -/
def noFolder : FileError := unopened "Not a directory (os error 20)"

def longName : FileError := unopened "File name too long (os error 36)"

/-- No path holds the character that ends one. -/
def nulByte : FileError := unopened "file name contained an unexpected NUL byte"

/-- A folder can be opened but not read. -/
def folder : FileError := unread "Is a directory (os error 21)"

def message (path : String) : FileError → String
  | unopened reason => s!"Failed to open {path}: {reason}"
  | unread reason => s!"Failed to read line 1: {reason}"

end FileError

/-- What reading each path gives. -/
abbrev Files := String → Except FileError ByteArray

/-- The names and contents of files that are together in a folder. -/
structure Folder where
  entries : List (String × ByteArray)

/-- Where the steps of a path lead. -/
inductive Place where
  | inside
  /-- Any folder around, which holds nothing to be found. -/
  | outside
  | file (content : ByteArray)

namespace Folder

/-- The longest name of a file, in bytes. -/
def maxName : Nat := 255

/-- The longest path, in bytes. -/
def maxPath : Nat := 4095

/-- Looks up a name in a place. -/
def enter (f : Folder) (name : String) : Place → Except FileError Place
  | .file _ => .error .noFolder
  | place =>
    if name = "" || name = "." then .ok place
    else if name = ".." then .ok .outside
    else if maxName < name.utf8ByteSize then .error .longName
    else
      match place, f.entries.lookup name with
      | .inside, some content => .ok (.file content)
      | _, _ => .error .missing

/-- Follows a path; one that begins with a slash starts outside. -/
def follow (f : Folder) (path : String) : Except FileError Place :=
  let start : Place := if path.startsWith "/" then .outside else .inside
  ((path.toList.splitOn '/').map String.ofList).foldlM (fun place name => f.enter name place) start

def read (f : Folder) : Files := fun path =>
  if path.contains '\x00' then .error .nulByte
  else if path.isEmpty then .error .missing
  else if maxPath < path.utf8ByteSize then .error .longName
  else
    match f.follow path with
    | .ok (.file content) => .ok content
    | .ok _ => .error .folder
    | .error e => .error e

end Folder

end ChessMachine
