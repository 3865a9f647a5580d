import CodeModel.Delta.Basic
import CodeModel.Element.Table

/-!
# Building deltas

A builder collects reports about elements of one tree into a delta for its root. A report names an
element anywhere below the root; the nodes in between come into being as changed.

* A report about an element **outside** the tree of the root is refused.
* Markers can be attached to an element **once**.
-/

namespace CodeModel

/-- A report about one element. -/
inductive Report where
  /-- The element was added. -/
  | added (element : Handle) (flags : Flags := ∅)
  /-- The element was removed. -/
  | removed (element : Handle) (flags : Flags := ∅)
  /-- The element changed. -/
  | changed (element : Handle) (flags : Flags)
  /-- The element was added by a move from another place. -/
  | movedFrom (element origin : Handle)
  /-- The element was removed by a move to another place. -/
  | movedTo (element destination : Handle)
  /-- Markers of the element changed. -/
  | markers (element : Handle) (ids : List MarkerId)
  /-- A resource that belongs to the element changed. -/
  | resource (element : Handle) (change : ResourceChange)
deriving DecidableEq

namespace Report

/-- The delta that says just what the report says. -/
def toDelta : Report → Delta
  | .added element flags => { element, status := .added, flags }
  | .removed element flags => { element, status := .removed, flags }
  | .changed element flags => { element, status := .changed, flags }
  | .movedFrom element origin =>
    { element, status := .added, flags := Flags.movedFrom, movedFrom := some origin }
  | .movedTo element destination =>
    { element, status := .removed, flags := Flags.movedTo, movedTo := some destination }
  | .markers element ids =>
    { element, status := .changed, flags := Flags.markers, markers := ids }
  | .resource element change =>
    { element, status := .changed, flags := Flags.content, resources := [change] }

/-- The element reported about. -/
def element (r : Report) : Handle := r.toDelta.element

/-- The report attaches markers. -/
def attachesMarkers : Report → Bool
  | .markers _ _ => true
  | _ => false

end Report

/-- A delta in the making. -/
structure Builder where
  /-- What has been reported so far. -/
  delta : Delta
  /-- The elements that markers have been attached to. -/
  marked : HandleSet := []
deriving Inhabited

namespace Builder

/-- A builder with nothing reported. -/
def new (root : Handle) : Builder := ⟨{ element := root }, []⟩

/-- Composes a delta for an element of the tree in. -/
def insert (b : Builder) (d : Delta) : Except Error Builder :=
  match Delta.pathBelow? b.delta.element d.element with
  | none => .error (.illegalArgument (.outsideRoot d.element b.delta.element))
  | some path => .ok { b with delta := Delta.composeAlong d path b.delta }

/-- Takes a report in. Attaching markers a second time is refused before anything else is checked. -/
def report (b : Builder) (r : Report) : Except Error Builder :=
  if r.attachesMarkers then
    if HandleSet.contains b.marked r.element then
      .error (.illegalState (.markersAttached r.element))
    else (b.insert r.toDelta).map fun b => { b with marked := HandleSet.insert b.marked r.element }
  else b.insert r.toDelta

/-- Takes reports in one after the other; those that are refused have no effect. -/
def reportAll (b : Builder) (rs : List Report) : Builder :=
  rs.foldl (fun b r => (b.report r).toOption.getD b) b

@[simp] theorem delta_new (root : Handle) : (new root).delta = { element := root } := rfl

/-- A report is refused for its place exactly if its element lies outside the tree. -/
theorem insert_eq_error_iff (b : Builder) (d : Delta) (e : Error) :
    b.insert d = .error e ↔
      Delta.pathBelow? b.delta.element d.element = none ∧
        e = .illegalArgument (.outsideRoot d.element b.delta.element) := by
  unfold insert
  cases Delta.pathBelow? b.delta.element d.element <;> simp [eq_comm]

end Builder

end CodeModel
