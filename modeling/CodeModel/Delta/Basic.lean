import CodeModel.Delta.Flags
import CodeModel.Error

/-!
# Deltas

A delta is a tree of reports: what happened to an element and, below it, to the children that are
affected. Reports about one element are **composed**, the later one into the earlier one:

* nothing reported before: the later report stands;
* **added**, then changed or added again: added;
* **added**, then removed: the two cancel and nothing is left;
* **removed**, then added: changed in content;
* **removed**, then anything else: removed;
* **changed**, then added or removed: the later report stands;
* **changed**, then changed: flags are joined and the children composed one by one.

An element that came or went as a whole stands for all that is below it, so it has no children in
the tree. A node that has children is changed and says so by the flag `Flags.children`.

Children are found by the relaxed comparison of their elements, and by the strict one where a caller
asks for the delta of a certain element.
-/

namespace CodeModel

/-- Names a marker (a problem, a bookmark) attached to an element. -/
abbrev MarkerId := Nat

/-- What happened to a resource that is no element. -/
inductive ResourceStatus where
  /-- It came into being. -/
  | added
  /-- It went away. -/
  | removed
  /-- It is different. -/
  | changed
deriving DecidableEq, Inhabited

/-- The same, as the status of an element. -/
def ResourceStatus.toStatus : ResourceStatus → Status
  | .added => .added
  | .removed => .removed
  | .changed => .changed

/-- A change of a resource that is no element, carried along by the report about one. -/
structure ResourceChange where
  /-- Where the resource is. -/
  path : String
  /-- What happened to it. -/
  status : ResourceStatus
deriving DecidableEq, Inhabited

/-- What happened to an element and to the children below it. -/
structure Delta where
  /-- The element reported about. -/
  element : Handle
  /-- What happened to it. -/
  status : Status := .unchanged
  /-- The details. -/
  flags : Flags := ∅
  /-- Where the element was before. -/
  movedFrom : Option Handle := none
  /-- Where the element is now. -/
  movedTo : Option Handle := none
  /-- The markers that changed. -/
  markers : List MarkerId := []
  /-- The resources that changed. -/
  resources : List ResourceChange := []
  /-- The reports about affected children, in the order in which they came up. -/
  children : List Delta := []
deriving Inhabited

namespace Delta

/-! ## Questions -/

/-- Nothing at all is reported. -/
def isEmpty (d : Delta) : Bool :=
  d.status == .unchanged && d.children.isEmpty && d.markers.isEmpty && d.resources.isEmpty

/-- The element came or went as a whole. -/
def isWhole (d : Delta) : Bool := d.status.isWhole

/-- The shape of the element tree is different at this element. -/
def isStructural (d : Delta) : Bool :=
  d.isWhole || d.flags.intersects (Flags.children ∪ Flags.reorder)

/-- The reports about children with the given status. -/
def childrenOf (d : Delta) (status : Status) : List Delta :=
  d.children.filter (·.status == status)

/-! ## Composition -/

/-- Replaces the first report that `e` matches by what `update` makes of it, or takes it out where
`update` says so; without a match `fresh` is appended. -/
def upsert (e : Handle) (update : Delta → Option Delta) (fresh : Delta) : List Delta → List Delta
  | [] => [fresh]
  | d :: ds =>
    if e.same d.element then
      match update d with
      | some d => d :: ds
      | none => ds
    else d :: upsert e update fresh ds

/-- Changes the first report that `e` matches. -/
def modifyChild (e : Handle) (update : Delta → Delta) : List Delta → List Delta
  | [] => []
  | d :: ds => if e.same d.element then update d :: ds else d :: modifyChild e update ds

/-- Registers a report about a child; `update` composes it with an earlier one. An element that came
or went as a whole takes no children. -/
def addChildWith (update : Delta → Option Delta) (d child : Delta) : Delta :=
  if d.isWhole then d
  else
    { d with
      status := .changed
      flags := d.flags ∪ Flags.children
      children := upsert child.element update child d.children }

/-- Joins flags, moves and attachments, children left aside. -/
def joinNode (d incoming : Delta) : Delta :=
  { d with
    flags := d.flags ∪ incoming.flags
    movedFrom := incoming.movedFrom.or d.movedFrom
    movedTo := incoming.movedTo.or d.movedTo
    markers := d.markers ++ incoming.markers
    resources := d.resources ++ incoming.resources }

/-- The table of compositions. `absorbed` is the outcome where the later report is taken in piece by
piece; `none` says that the two reports **cancel**. -/
def composeNode (d incoming : Delta) (absorbed : Unit → Delta) : Option Delta :=
  match d.status, incoming.status with
  | _, .unchanged => some (absorbed ())
  | .unchanged, _ =>
    some { incoming with
      flags := incoming.flags ∪ d.flags
      markers := d.markers ++ incoming.markers
      resources := d.resources ++ incoming.resources }
  | .added, .removed => none
  | .added, _ => some d
  | .removed, .added =>
    some { incoming with status := .changed, flags := incoming.flags ∪ Flags.content }
  | .removed, _ => some d
  | .changed, .changed => some (absorbed ())
  | .changed, _ => some incoming

mutual

/-- Composes a later report into `d`, a report about the same element. -/
def compose (d : Delta) : Delta → Option Delta
  | ⟨element, status, flags, movedFrom, movedTo, markers, resources, children⟩ =>
    let incoming : Delta :=
      ⟨element, status, flags, movedFrom, movedTo, markers, resources, children⟩
    composeNode d incoming fun _ => joinChildren (joinNode d incoming) children

/-- Registers reports about children one after the other. -/
def joinChildren (d : Delta) : List Delta → Delta
  | [] => d
  | c :: cs => joinChildren (addChildWith (fun existing => compose existing c) d c) cs

end

/-- Registers a report about a child, composing it with an earlier one. -/
def addChild (d child : Delta) : Delta := addChildWith (fun existing => existing.compose child) d child

/-- Composes a later report into `d`; reports that cancel leave an empty one. -/
def composeOrReset (d incoming : Delta) : Delta :=
  (d.compose incoming).getD { element := d.element }

/-! ## Paths -/

/-- The handles strictly below `root` down to `e`, from the top; `none` outside the tree of `root`. -/
def pathBelow? (root : Handle) : Handle → Option (List Handle)
  | .root n => if (Handle.root n).sameChain root then some [] else none
  | .child p n =>
    if (Handle.child p n).sameChain root then some []
    else (pathBelow? root p).map (· ++ [.child p n])

/-- Composes a report in at the end of a path. Intermediate nodes come into being on the way; a node
that came or went as a whole swallows the report. -/
def composeAlong (incoming : Delta) : List Handle → Delta → Delta
  | [], d => d.composeOrReset incoming
  | [_], d => d.addChild incoming
  | next :: rest, d =>
    if d.isWhole then d
    else
      let d := d.addChild { element := next }
      { d with children := modifyChild next (composeAlong incoming rest) d.children }

/-- Follows a path down; each node on it must be strictly the element asked for. -/
def descend : List Handle → Delta → Option Delta
  | [], d => some d
  | next :: rest, d =>
    if d.isWhole then none
    else
      match d.children.find? (fun c => next.same c.element) with
      | none => none
      | some c => if c.element.sameChain next then descend rest c else none

/-- The report about `e` in the tree. -/
def find? (d : Delta) (e : Handle) : Option Delta :=
  (pathBelow? d.element e).bind fun path => descend path d

/-! ## Joining whole trees -/

/-- Composes a later delta for the same element into `d`. -/
def merge (d incoming : Delta) : Except Error Delta :=
  if d.element.sameChain incoming.element then .ok (d.composeOrReset incoming)
  else .error (.illegalArgument (.mergeMismatch incoming.element d.element))

/-- Puts a child in, in the place of an earlier report about it. -/
def replaceChild (children : List Delta) (child : Delta) : List Delta :=
  upsert child.element (fun _ => some child) child children

/-- Takes over what `source` reports about the same element, and the reports about its children if
the copy is `deep`. Two different statuses do not go together. -/
def copy (d source : Delta) (deep : Bool) : Except Error Delta :=
  if !d.element.sameChain source.element then
    .error (.illegalArgument (.copyMismatch source.element d.element))
  else if d.status != .unchanged && source.status != .unchanged && d.status != source.status then
    .error (.illegalArgument (.statusMismatch d.element d.status source.status))
  else
    let status := if source.status == .unchanged then d.status else source.status
    let d := { joinNode d source with status }
    .ok { d with
      children :=
        if d.isWhole then []
        else if deep then source.children.foldl replaceChild d.children
        else d.children }

/-! ## Laws -/

@[simp] theorem isWhole_new (e : Handle) : ({ element := e } : Delta).isWhole = false := rfl

theorem isEmpty_new (e : Handle) : ({ element := e } : Delta).isEmpty = true := rfl

@[simp] theorem joinChildren_nil (d : Delta) : d.joinChildren [] = d := rfl

@[simp] theorem joinChildren_cons (d c : Delta) (cs : List Delta) :
    d.joinChildren (c :: cs) = (d.addChild c).joinChildren cs := rfl

/-- A composition is settled by the table; only absorbing goes on to the children. -/
theorem compose_eq (d incoming : Delta) :
    d.compose incoming =
      composeNode d incoming fun _ => (joinNode d incoming).joinChildren incoming.children := by
  cases incoming; rfl

/-- A later report about nothing adds its attachments and children. -/
theorem compose_unchanged (d incoming : Delta) (h : incoming.status = .unchanged) :
    d.compose incoming = some ((joinNode d incoming).joinChildren incoming.children) := by
  rw [compose_eq, composeNode, h]

/-- An addition and a removal cancel. -/
theorem compose_added_removed (d incoming : Delta) (hd : d.status = .added)
    (h : incoming.status = .removed) : d.compose incoming = none := by
  rw [compose_eq, composeNode, hd, h]

end Delta

end CodeModel
