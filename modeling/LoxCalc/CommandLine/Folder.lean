/-!
# Folders

A folder as the command sees it: files with names below it, read by a path. The name `.` and the
empty name stay where they are, and `..` goes up. Nothing is known of the directories above a folder
but that they are there. A path that starts with a slash is read from the root of the system.
-/

namespace LoxCalc.CommandLine

/-- Why a file cannot be read. -/
inductive ReadFault
  | notFound
  | notDirectory
  | isDirectory
  | nameTooLong
  | other (details : String) (code : Nat)
  | notText
  deriving DecidableEq

/-- The wording of a fault in reading. -/
def ReadFault.message : ReadFault → String
  | notFound => "No such file or directory (os error 2)"
  | notDirectory => "Not a directory (os error 20)"
  | isDirectory => "Is a directory (os error 21)"
  | nameTooLong => "File name too long (os error 36)"
  | other details code => details ++ " (os error " ++ toString code ++ ")"
  | notText => "stream did not contain valid UTF-8"

/-- The text of bytes in UTF-8. -/
def decode (bytes : ByteArray) : Except ReadFault String :=
  match String.fromUTF8? bytes with
  | none => .error .notText
  | some text => .ok text

/-- Puts a character before the first of some names, or starts a new name if it is a slash. -/
def addToNames (c : Char) : List (List Char) → List (List Char)
  | [] => [[c]]
  | name :: names => if c = '/' then [] :: name :: names else (c :: name) :: names

/-- The names in a path, which slashes stand between. -/
def pathNames (path : String) : List String :=
  (path.toList.foldr addToNames [[]]).map String.ofList

/-- The files of a folder with the names on the way to them, and directories that may be empty. A
folder that is the root of its system has nothing above it. -/
structure Folder where
  files : List (List String × ByteArray)
  directories : List (List String)
  isRoot : Bool

namespace Folder

/-- The folder with some files, whose paths are written with slashes. -/
def ofFiles (files : List (String × ByteArray)) : Folder :=
  ⟨files.map fun (path, bytes) => (pathNames path, bytes), [], false⟩

/-- The root of a system, as far as every system has it: the directories `/dev` and `/tmp`, the empty
file `/dev/null`, and the input as `/dev/stdin`. -/
def root (input : ByteArray) : Folder :=
  ⟨[(["dev", "null"], .empty), (["dev", "stdin"], input)], [["tmp"]], true⟩

/-- The most bytes that a name can have. -/
def maxName : Nat := 255

/-- The most bytes that a path can have. -/
def maxPath : Nat := 4095

/-- Whether there is a directory with a path: one that is listed, or one on the way to a file. -/
def hasDirectory (folder : Folder) (path : List String) : Bool :=
  folder.directories.contains path || folder.files.any fun (file, _) => path.isPrefixOf file

/-- A path above the folder: the directories on the way up can be seen, but nothing in them. A name
that is too long is refused before it is looked for. -/
def readAbove : List String → Except ReadFault ByteArray
  | [] => .error .isDirectory
  | name :: names =>
    if name = "" ∨ name = "." ∨ name = ".." then readAbove names
    else if maxName < name.utf8ByteSize then .error .nameTooLong
    else .error .notFound

/-- The file that is reached from the directory `here` along some names. -/
def readFrom (folder : Folder) (here : List String) : List String → Except ReadFault ByteArray
  | [] => .error .isDirectory
  | name :: names =>
    if name = "" ∨ name = "." then readFrom folder here names
    else if name = ".." then
      if here.isEmpty && !folder.isRoot then readAbove names
      else readFrom folder here.dropLast names
    else if maxName < name.utf8ByteSize then .error .nameTooLong
    else
      match folder.files.lookup (here ++ [name]) with
      | some bytes => if names.isEmpty then .ok bytes else .error .notDirectory
      | none =>
        if folder.hasDirectory (here ++ [name]) then readFrom folder (here ++ [name]) names
        else .error .notFound

/-- The file with a path, which starts at the root if a slash comes first. -/
def read (folder root : Folder) (path : String) : Except ReadFault ByteArray :=
  if path.isEmpty then .error .notFound
  else if maxPath < path.utf8ByteSize then .error .nameTooLong
  else
    let start := if path.toList.head? = some '/' then root else folder
    start.readFrom [] (pathNames path)

end Folder

end LoxCalc.CommandLine
