import CodeModel.Delta.Flags
import CodeModel.Element.Handle
import CodeModel.Element.Property
import CodeModel.Text.Buffer

/-!
# Bodies

The body of an element is its state: its children and, if the element stands in a text, where it
stands there and what the model recorded about it. Bodies are values; a changed element gets another
body.

* The children of a body are listed **without repetition**.
* A body with a source part differs in content from a body without one; a **plain** body has no
  content that could differ.
-/

namespace CodeModel

/-- What a body says about an element that stands in a text. -/
structure Source where
  /-- The whole stretch of the element. -/
  fullRange : Option Range := none
  /-- The stretch of the element's name. -/
  nameRange : Option Range := none
  /-- The text the ranges speak of. -/
  snapshot : Option Snapshot := none
  /-- What the model recorded. -/
  properties : Properties := {}
deriving DecidableEq, Inhabited

namespace Source

/-- The text of the full range. -/
def text? (s : Source) : Option Text := do
  let range ← s.fullRange
  let snapshot ← s.snapshot
  snapshot.slice? range.offset range.stop

/-- Both snapshots are missing, or both show the same text. -/
def snapshotsAgree : Option Snapshot → Option Snapshot → Bool
  | some s, some t => s.agrees t
  | none, none => true
  | _, _ => false

/-- Ranges, text and properties are the same. -/
def agrees (new old : Source) : Bool :=
  new.properties == old.properties && new.fullRange == old.fullRange &&
    new.nameRange == old.nameRange && snapshotsAgree new.snapshot old.snapshot

/-- The full range is known and covers the position. -/
def covers (s : Source) (position : Nat) : Bool := s.fullRange.any (·.covers position)

end Source

/-- The state of an element. -/
structure Body where
  /-- The children, in order and without repetition. -/
  children : List Handle := []
  /-- The source part, if the element stands in a text. -/
  source : Option Source := none
deriving DecidableEq, Inhabited

namespace Body

/-- Appends a child unless it is there already. -/
def addChild (b : Body) (child : Handle) : Body :=
  if b.children.any (·.same child) then b else { b with children := b.children ++ [child] }

/-- Replaces all children. -/
def setChildren (b : Body) (children : List Handle) : Body :=
  children.foldl addChild { b with children := [] }

/-- A plain body with the listed children. -/
def plain (children : List Handle) : Body := ({} : Body).setChildren children

/-- Takes a child out. -/
def removeChild (b : Body) (child : Handle) : Body :=
  { b with children := b.children.filter (fun c => !c.same child) }

/-- The children of the named kind. -/
def childrenOfKind (b : Body) (kindName : String) : List Handle :=
  b.children.filter (·.kind.name == kindName)

/-- The text of the element, if its body knows it. -/
def text? (b : Body) : Option Text := b.source.bind Source.text?

/-- The snapshot that the body's ranges speak of. -/
def snapshot? (b : Body) : Option Snapshot := b.source.bind Source.snapshot

/-- The full range of the element is known and covers the position. -/
def covers (b : Body) (position : Nat) : Bool := b.source.any (·.covers position)

/-- The element's own content is different in `new`, children apart. -/
def contentDiffers (new old : Body) : Bool :=
  match new.source, old.source with
  | none, _ => false
  | some _, none => true
  | some s, some t => !s.agrees t

/-- The flags that report a difference in content. -/
def contentChange (new old : Body) : Flags :=
  if new.contentDiffers old then Flags.content else ∅

theorem contentChange_isEmpty (new old : Body) :
    (new.contentChange old).isEmpty = !new.contentDiffers old := by
  unfold contentChange
  cases new.contentDiffers old <;> decide

end Body

end CodeModel
