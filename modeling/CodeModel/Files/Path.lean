/-!
# Paths

A path is a string whose parts are separated by slashes. A path that begins with a slash is absolute.

* The **file name** of a path is its last part; empty parts and single dots do not count, and a path
  that ends in a double dot has none.
* The **extension** of a path is what stands behind the last dot of its file name. A dot at the very
  front begins a hidden file and no extension.
* **Joining** puts a relative name behind a directory, with one slash between them unless there is one
  already or the directory is empty; an absolute name stands for itself.
* Not every part can be given to something as its **name**: a name has at most 255 bytes and holds no
  NUL. A path as a whole has at most 4095 bytes, and one that is longer cannot be walked.
-/

namespace CodeModel.Path

/-- The pieces of a text between the separators, empty ones included. -/
def pieces (separator : Char) (s : String) : List String := (s.toList.splitOn separator).map String.ofList

/-- The parts of a path, empty ones included. -/
def parts (path : String) : List String := pieces '/' path

/-- The path does not hang on a directory. -/
def isAbsolute (path : String) : Bool := path.startsWith "/"

/-- The path can be walked from the top: it is absolute and not too long. -/
def isWalkable (path : String) : Bool := isAbsolute path && decide (path.utf8ByteSize ≤ 4095)

/-- A file or a directory can bear the name. -/
def isName (name : String) : Bool := decide (name.utf8ByteSize ≤ 255) && !name.toList.contains '\x00'

/-- The last part of a path that names something. -/
def fileName? (path : String) : Option String :=
  match ((parts path).filter fun p => p != "" && p != ".").getLast? with
  | some ".." => none
  | last => last

/-- What stands behind the last dot of a file name. -/
def extensionOf? (name : String) : Option String :=
  match (pieces '.' name).reverse with
  | last :: stem :: [] => if stem == "" then none else some last
  | last :: _ :: _ => some last
  | _ => none

/-- The extension of a path. -/
def extension? (path : String) : Option String := (fileName? path).bind extensionOf?

/-- The path of a name within a directory. -/
def join (directory name : String) : String :=
  if isAbsolute name then name
  else if directory == "" || directory.endsWith "/" then directory ++ name
  else directory ++ "/" ++ name

end CodeModel.Path
