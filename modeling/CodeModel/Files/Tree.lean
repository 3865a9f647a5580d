import CodeModel.Error
import CodeModel.Files.Path

/-!
# File trees

A file tree holds files and directories by their places, a place being the list of names that lead to
it from the top. The top itself is a directory that is always there.

* A path is **walked** from the top part by part: each part but the last has to be a directory, and so
  has the last one if something follows it, be it a slash only.
* A path that is too long leads nowhere, even if there is a shorter one to the same place. Nor does a
  path that is not absolute.
* A directory is made together with the directories above it that are missing, from the top downwards
  and as far as no file stands in the way. Nothing that was there is lost by that
  (`at?_makeDirectory_of_some`).
* A file whose bytes are no text has no content that could be read.
* A file that cannot be written or deleted leaves the tree as it is.
-/

namespace CodeModel

/-- The names that lead to a file or directory. -/
abbrev Place := List String

/-- Where a part of a path leads from a place. Above the top there is only the top. -/
def Place.step (place : Place) (part : String) : Place :=
  if part == "" || part == "." then place
  else if part == ".." then place.dropLast
  else place ++ [part]

/-- What stands at a place. -/
inductive Entry where
  /-- A file with its text; `none` if its bytes are no text. -/
  | file (content : Option Text)
  /-- A directory. -/
  | directory
deriving DecidableEq

/-- A file with the given bytes, which are text if they are well-formed UTF-8. -/
def Entry.ofBytes (bytes : ByteArray) : Entry := .file ((String.fromUTF8? bytes).map String.toList)

/-- Files and directories by their places. -/
structure FileTree where
  /-- What stands where; each place occurs at most once. -/
  entries : List (Place × Entry) := []
deriving DecidableEq

namespace FileTree

/-- What stands at a place. -/
def at? (t : FileTree) : Place → Option Entry
  | [] => some .directory
  | place => t.entries.lookup place

/-- Checks that there is a directory at a place. -/
def directoryAt (t : FileTree) (place : Place) : Except FileError Unit :=
  match t.at? place with
  | some .directory => .ok ()
  | some (.file _) => .error .notDirectory
  | none => .error .notFound

/-- Walks from a place along the parts of a path. -/
def walk (t : FileTree) : Place → List String → Except FileError Place
  | place, [] => .ok place
  | place, part :: parts => do
    t.directoryAt place
    t.walk (place.step part) parts

/-- The place that a path leads to. -/
def resolve (t : FileTree) (path : String) : Except FileError Place :=
  if Path.isWalkable path then t.walk [] (Path.parts path) else .error .notFound

/-- What a path leads to. -/
def find (t : FileTree) (path : String) : Except FileError Entry := do
  let place ← t.resolve path
  match t.at? place with
  | some entry => .ok entry
  | none => .error .notFound

/-- The path leads to a file. -/
def isFile (t : FileTree) (path : String) : Bool :=
  match t.find path with
  | .ok (.file _) => true
  | _ => false

/-- The path leads to a directory. -/
def isDirectory (t : FileTree) (path : String) : Bool :=
  match t.find path with
  | .ok .directory => true
  | _ => false

/-- The text of the file that a path leads to. -/
def read (t : FileTree) (path : String) : Except FileError Text := do
  match ← t.find path with
  | .file (some content) => .ok content
  | .file none => .error .invalidData
  | .directory => .error .isDirectory

/-- The names of the files that stand directly in the directory a path leads to. -/
def fileNames (t : FileTree) (path : String) : Except FileError (List String) := do
  let place ← t.resolve path
  t.directoryAt place
  return t.entries.filterMap fun (p, entry) =>
    match entry, p.getLast? with
    | .file _, some name => if p == place ++ [name] then some name else none
    | _, _ => none

/-- Puts an entry at a place, in the stead of what was there. -/
def put (t : FileTree) (place : Place) (entry : Entry) : FileTree :=
  ⟨t.entries.filter (·.1 != place) ++ [(place, entry)]⟩

/-- A file can be written at a place: a file can bear its name, the directory that holds it is there,
and it is no directory itself. -/
def isWritable (t : FileTree) (place : Place) : Bool :=
  place.getLast?.any Path.isName && t.at? place.dropLast == some .directory
    && t.at? place != some .directory

/-- Writes a file; one that was there is replaced. -/
def write (t : FileTree) (path : String) (file : Entry) : FileTree :=
  match t.resolve path with
  | .ok place => if t.isWritable place then t.put place file else t
  | .error _ => t

/-- Makes the directories that are missing on the way from a place along the parts of a path. -/
def makeAlong : FileTree → Place → List String → FileTree
  | t, _, [] => t
  | t, place, part :: parts =>
    match t.at? (place.step part) with
    | some .directory => t.makeAlong (place.step part) parts
    | some (.file _) => t
    | none =>
      if Path.isName part then (t.put (place.step part) .directory).makeAlong (place.step part) parts
      else t

/-- Makes a directory with those above it; one that is there stays as it is. -/
def makeDirectory (t : FileTree) (path : String) : FileTree :=
  if Path.isWalkable path then t.makeAlong [] (Path.parts path) else t

/-- Deletes a file. -/
def delete (t : FileTree) (path : String) : FileTree :=
  match t.resolve path with
  | .ok place =>
    if t.at? place == some .directory then t else ⟨t.entries.filter (·.1 != place)⟩
  | .error _ => t

/-- Deletes a directory with all in it. -/
def deleteAll (t : FileTree) (path : String) : FileTree :=
  match t.resolve path with
  | .ok place => ⟨t.entries.filter fun e => !place.isPrefixOf e.1⟩
  | .error _ => t

/-! ## Laws -/

theorem at?_put_self (t : FileTree) (name : String) (place : Place) (entry : Entry) :
    (t.put (name :: place) entry).at? (name :: place) = some entry := by
  have none_before : (t.entries.filter (·.1 != name :: place)).lookup (name :: place) = none := by
    rw [List.lookup_eq_none_iff]
    intro p hp
    have hne : p.1 ≠ name :: place := bne_iff_ne.1 (List.mem_filter.1 hp).2
    exact bne_iff_ne.2 hne.symm
  show (t.put (name :: place) entry).entries.lookup (name :: place) = some entry
  simp [put, List.lookup_append, none_before]

/-- To put an entry somewhere changes nothing elsewhere. -/
theorem at?_put_of_ne (t : FileTree) {place other : Place} (entry : Entry) (h : other ≠ place) :
    (t.put place entry).at? other = t.at? other := by
  cases other with
  | nil => rfl
  | cons name names =>
    have kept : (t.entries.filter (·.1 != place)).lookup (name :: names) =
        t.entries.lookup (name :: names) := by
      induction t.entries with
      | nil => rfl
      | cons e es ih =>
        obtain ⟨p, entry'⟩ := e
        by_cases hp : p = place
        · have hne : (name :: names == p) = false := beq_eq_false_iff_ne.2 (hp ▸ h)
          simp [hp ▸ hne, hp, List.lookup_cons, ih]
        · simp [hp, List.lookup_cons, ih]
    have absent : (name :: names == place) = false := beq_eq_false_iff_ne.2 h
    show (t.put place entry).entries.lookup (name :: names) = t.entries.lookup (name :: names)
    simp [put, List.lookup_append, kept, List.lookup_cons, absent]

/-- What is there stays as it is while directories are made. -/
theorem at?_makeAlong_of_some (t : FileTree) (place : Place) (parts : List String) {other : Place}
    {entry : Entry} (h : t.at? other = some entry) :
    (t.makeAlong place parts).at? other = some entry := by
  fun_induction makeAlong t place parts with
  | case1 => exact h
  | case2 t place part parts hat ih => exact ih h
  | case3 => exact h
  | case4 t place part parts hat hname ih =>
    refine ih ?_
    have hne : other ≠ place.step part := by
      rintro rfl
      simp [hat] at h
    rw [at?_put_of_ne t .directory hne]
    exact h
  | case5 => exact h

/-- What is there stays as it is when a directory is made. -/
theorem at?_makeDirectory_of_some (t : FileTree) (path : String) {place : Place} {entry : Entry}
    (h : t.at? place = some entry) : (t.makeDirectory path).at? place = some entry := by
  unfold makeDirectory
  split
  · exact at?_makeAlong_of_some t [] (Path.parts path) h
  · exact h

end FileTree

end CodeModel
