import CodeModel.Files.Tree
import CodeModel.Foo.Parser
import CodeModel.Session.Basic

/-!
# The Foo model

A code model of Foo projects. A project is a directory; its files with the extension `foo` are the
source files, and the declarations of a text are the elements of its file.

* A **declaration** is named after what it declares, a function together with the number of its
  parameters, so that functions of one name and different arity are different elements. Those that
  still agree in kind and name are told apart by their occurrence, which a **tally** of the
  declarations so far gives.
* The bodies of a file and of its declarations are a function of the file and its text alone
  (`fileBodies`). A file with syntax errors has bodies too; its body tells how many errors there are.
-/

namespace CodeModel.Foo

/-- The kind of projects. -/
def projectKind : Kind := { name := "FooProject", openable := true }

/-- The kind of source files. -/
def fileKind : Kind := { name := "FooFile", openable := true }

/-- The kind of variables. -/
def varKind : Kind := { name := "FooVar" }

/-- The kind of functions. -/
def functionKind : Kind := { name := "FooDef" }

/-- The extension of source files. -/
def fileExtension : String := "foo"

/-! ## Files -/

namespace Declaration

/-- The kind of the element that is declared. -/
def elementKind (d : Declaration) : Kind :=
  match d.kind with
  | .var => varKind
  | .function _ => functionKind

/-- The name of the element that is declared. -/
def elementName (d : Declaration) : String :=
  match d.kind with
  | .var => d.name
  | .function parameters => d.name ++ "/" ++ parameters.length.repr

/-- What a declaration is counted under: the name of its kind, and its own. -/
def key (d : Declaration) : String × String := (d.elementKind.name, d.elementName)

/-- The element of a declaration, the given one of its kind and name. -/
def element (d : Declaration) (file : Handle) (occurrence : Nat) : Handle :=
  file.sub d.elementKind d.elementName occurrence

/-- What the model records about a declaration. -/
def properties (d : Declaration) : Properties :=
  match d.kind with
  | .var => {}
  | .function parameters =>
    Properties.set {} "parameters" (.list (parameters.map Value.text))

/-- The body of a declaration of the given text. -/
def body (d : Declaration) (snapshot : Snapshot) : Body :=
  { source := some
      { fullRange := some d.fullRange
        nameRange := some d.nameRange
        snapshot := some snapshot
        properties := d.properties } }

end Declaration

/-- How many declarations there were so far, by what they are counted under. -/
abbrev Tally := List ((String × String) × Nat)

namespace Tally

/-- The count of a key; a key without an entry has not been counted yet. -/
def count (t : Tally) (key : String × String) : Nat := (t.lookup key).getD 0

/-- Makes sure that a key has an entry; a new one is zero. -/
def enter (t : Tally) (key : String × String) : Tally :=
  if (t.lookup key).isSome then t else t ++ [(key, 0)]

/-- Adds one to the entry of a key. -/
def increment (t : Tally) (key : String × String) : Tally :=
  t.map fun p => if p.1 == key then (p.1, p.2 + 1) else p

/-- Counts one more of a key; the answer is how many there are with it. -/
def bump (t : Tally) (key : String × String) : Nat × Tally :=
  let t := (t.enter key).increment key
  (t.count key, t)

end Tally

/-- The elements of the declarations, in the order of the text. The tally has those that came before. -/
def elements (file : Handle) : Tally → List Declaration → List (Handle × Declaration)
  | _, [] => []
  | tally, d :: ds =>
    let (occurrence, tally) := tally.bump d.key
    (d.element file occurrence, d) :: elements file tally ds

/-- Every declaration has its element, in the order of the text. -/
theorem map_snd_elements (file : Handle) (tally : Tally) (ds : List Declaration) :
    (elements file tally ds).map Prod.snd = ds := by
  induction ds generalizing tally with
  | nil => rfl
  | cons d ds ih => simp [elements, ih]

/-- The body of a file with the given text and elements. -/
def fileBody (snapshot : Snapshot) (problems : Nat) (children : List Handle) : Body :=
  ({ source := some
      { fullRange := some ⟨0, snapshot.text.length⟩
        snapshot := some snapshot
        properties := Properties.set {} "problems" (.int problems) } } : Body).setChildren children

/-- The bodies of a file and of its declarations; the file comes last. -/
def fileBodies (file : Handle) (snapshot : Snapshot) : List (Handle × Body) :=
  let outline := parse snapshot.text
  let declared := elements file [] outline.declarations
  declared.map (fun (e, d) => (e, d.body snapshot)) ++
    [(file, fileBody snapshot outline.problems.length (declared.map Prod.fst))]

/-! ## Projects -/

/-- A directory of Foo files. -/
structure Project where
  /-- The path of the directory. -/
  root : String
deriving DecidableEq

namespace Project

/-- The element of the project, named after its directory. -/
def handle (p : Project) : Handle :=
  Handle.top projectKind (some ((Path.fileName? p.root).getD "project"))

/-- The element of a file of the project. -/
def file (p : Project) (name : String) : Handle := p.handle.sub fileKind name

/-- The path of a project or of a file. -/
def pathOf? (p : Project) (e : Handle) : Option String :=
  if e.kind.name == projectKind.name then some p.root
  else if e.kind.name == fileKind.name then e.name.map (Path.join p.root)
  else none

/-- The element has a resource, or needs none. -/
def hasResource (p : Project) (files : FileTree) (e : Handle) : Bool :=
  if e.kind.name == projectKind.name then files.isDirectory p.root
  else if e.kind.name == fileKind.name then
    (p.pathOf? e).any files.isFile && e.name.any (Path.extension? · == some fileExtension)
  else true

/-- The names of the source files that stand directly in the directory, sorted. -/
def sourceFiles (p : Project) (files : FileTree) : Except FileError (List String) := do
  let names ← files.fileNames p.root
  return (names.filter (Path.extension? · == some fileExtension)).mergeSort (· ≤ ·)

/-- The body of the project. -/
def body (p : Project) (files : FileTree) (project : Handle) : Except Error Body :=
  match p.sourceFiles files with
  | .ok names => .ok (Body.plain (names.map (project.sub fileKind ·)))
  | .error cause => .error (.file cause)

/-- The text of a file. -/
def text (p : Project) (files : FileTree) (file : Handle) : Except Error Text :=
  match p.pathOf? file with
  | none => .error (.doesNotExist file)
  | some path => (files.read path).mapError .file

/-- The bodies that a build of `e` makes, from the given text if there is one. -/
def bodies (p : Project) (files : FileTree) (e : Handle) (snapshot : Option Snapshot) :
    Except Error (List (Handle × Body)) := do
  if e.kind.name == projectKind.name then
    return [(e, ← p.body files e)]
  else if e.kind.name == fileKind.name then
    match snapshot with
    | some snapshot => return fileBodies e snapshot
    | none => return fileBodies e (Snapshot.detached (← p.text files e))
  else throw (.illegalArgument (.notOpenable e))

/-- The code model of a project, whose files are part of the world. -/
def model {σ : Type} (p : Project) (files : σ → FileTree) : Model σ where
  validate world e := if p.hasResource (files world) e then .ok () else .error (.doesNotExist e)
  build e snapshot := do
    match p.bodies (files (← get).world) e snapshot with
    | .ok bodies => bodies.forM fun (e, b) => Session.putBody e b
    | .error error => throw error

end Project

end CodeModel.Foo
