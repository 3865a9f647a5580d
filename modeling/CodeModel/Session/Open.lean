import CodeModel.Session.Basic

/-!
# Opening and asking

Elements are opened on demand: a query for the body of an element builds it if it is not cached.

* An **openable** element is built on its own, after its parent has been opened.
* Any **other** element gets its body from the build of its owner. If the owner is cached but the body of
  the element is not, the owner is built again from the text its present structure came from, so that
  the two fit together.
* An element is built **once at a time**; a build that asks for itself fails.

Opening walks up the chain of ancestors, so it ends.
-/

namespace CodeModel

namespace Session

variable {σ : Type}

/-- Builds an openable element without committing anything. Without a snapshot the resource has to
exist. -/
def buildBodies (m : Model σ) (canceled : Bool) (e : Handle) (snapshot : Option Snapshot) :
    Op σ (Table Body) := do
  if canceled then throw .canceled
  if snapshot.isNone then validate m e
  inDraft (m.build e snapshot)

/-- The body that a build made for `e`. -/
def bodyIn (bodies : Table Body) (e : Handle) : Op σ Body :=
  match Table.get? bodies e with
  | some b => pure b
  | none => throw (.doesNotExist e)

/-- The capacity that makes room for the children of an element whose build made `count` bodies. -/
def roomFor (loadFactor : Float) (count : Nat) : Nat :=
  ((1 + loadFactor) * count.toUInt64.toFloat).ceil.toUInt64.toNat + 1

/-- Builds an openable element whose build is claimed, and commits it. -/
def buildFresh (m : Model σ) (canceled : Bool) (e : Handle) : Op σ Body := do
  let bodies ← buildBodies m canceled e (← ask (·.copySnapshot? e))
  let body ← bodyIn bodies e
  let config := (← get).config
  if config.childHeadroom then
    modifyStore (·.raiseCapacity (roomFor config.loadFactor bodies.length) e)
  let (existing, evicted) ← onStore fun s =>
    let (existing, evicted, s) := s.commitIfAbsent e bodies
    ((existing, evicted), s)
  evicted.forM fun p => (m.onClose p.1 .evicted : Action σ Unit)
  return existing.getD body

/-- Opens an openable element whose parent, if any, is open. -/
def openFresh (m : Model σ) (canceled : Bool) (e : Handle) : Op σ Body := do
  match ← tryStore (·.claim e) with
  | .existing b => return b
  | .claimed => holding e (buildFresh m canceled e)

/-- Builds `owner` again, whose build is claimed, for the sake of the body of `e`. -/
def buildAgain (m : Model σ) (canceled : Bool) (owner : Handle) (ownerBody : Body) (e : Handle) :
    Op σ Body := do
  match ← onStore (·.get? e) with
  | some b => return b
  | none =>
    let ownerBody := (← onStore (·.get? owner)).getD ownerBody
    let snapshot := ownerBody.snapshot?.or (← ask (·.copySnapshot? owner))
    let bodies ← buildBodies m canceled owner snapshot
    let body ← bodyIn bodies e
    evicting m (·.commit owner bodies)
    return body

/-- Gets the body of an element from its owner, which is open. -/
def openOwned (m : Model σ) (canceled : Bool) (owner : Handle) (ownerBody : Body) (e : Handle) :
    Op σ Body := do
  match ← onStore (·.get? e) with
  | some b => return b
  | none =>
    tryStore (·.claimAgain owner)
    holding owner (buildAgain m canceled owner ownerBody e)

/-- The body of an element, which is built if need be. -/
def openBody (m : Model σ) (canceled : Bool) (e : Handle) : Op σ Body := do
  match ← onStore (·.get? e) with
  | some b => return b
  | none =>
    if _hopen : e.openable then
      match _hp : e.parent? with
      | none => openFresh m canceled e
      | some p =>
        if ← ask (·.isCached p) then openFresh m canceled e
        else
          let _ ← openBody m canceled p
          match ← onStore (·.get? e) with
          | some b => return b
          | none => openFresh m canceled e
    else
      match _howner : e.owner? with
      | none => throw (.doesNotExist e)
      | some owner =>
        let ownerBody ← openBody m canceled owner
        openOwned m canceled owner ownerBody e
termination_by e.depth
decreasing_by
  · exact Handle.parent?_depth_lt _hp
  · exact Handle.owner?_depth_lt (by simpa using _hopen) _howner

/-! ## Queries -/

/-- The body of an element. -/
def body (m : Model σ) (e : Handle) : Op σ Body := openBody m false e

/-- The children of an element. -/
def children (m : Model σ) (e : Handle) : Op σ (List Handle) := return (← body m e).children

/-- Does the element exist? Only an error that says so counts as a no. -/
def isPresent (m : Model σ) (e : Handle) : Op σ Bool := do
  if ← ask (·.isCached e) then return true
  else
    match ← (body m e).attempt with
    | .ok _ => return true
    | .error error => if error.isMissing then return false else throw error

/-- The text of an element. -/
def sourceText (m : Model σ) (e : Handle) : Op σ (Option Text) := return (← body m e).text?

/-- Closes an openable element: its body and those it owns are dropped. Other elements stay as they
are, and a working copy cannot be closed. -/
def close (m : Model σ) (e : Handle) : Op σ Unit := do
  if e.openable then
    if (← ask (·.copyOf? e)).isSome then throw (.illegalState (.closingWorkingCopy e))
    let removed ← onStore (·.eraseTree e)
    let size := (← get).config.cacheSize
    evicting m (·.lowerCapacity size e)
    if !removed.isEmpty then m.onClose e .closed

/-- The first of the listed elements whose full range covers the position, with its body. -/
def firstCovering (m : Model σ) (position : Nat) : List Handle → Op σ (Option (Handle × Body))
  | [] => return none
  | c :: cs => do
    let b ← body m c
    if b.covers position then return some (c, b) else firstCovering m position cs

/-- Goes down from `e` to children that cover the position as long as there are any. -/
def descend (m : Model σ) (position : Nat) : Nat → Handle → Body → Op σ Handle
  | 0, e, _ => return e
  | fuel + 1, e, b => do
    match ← firstCovering m position b.children with
    | none => return e
    | some (c, cb) => descend m position fuel c cb

/-- More levels than element trees have. Where nothing covers a position more than `n` levels deep, `n + 1` levels
are enough, and any greater number of them finds the same. -/
def maxLevels : Nat := 65536

/-- The element of `file` at a position: the innermost one on the path of first children that cover it;
nothing if the file itself does not. A caller who looks at the text of `base` must not be answered from
the structure of another text. The search goes down by so many levels at most. -/
def innermostAt (m : Model σ) (file : Handle) (position : Nat) (base : Option Snapshot)
    (levels : Nat := maxLevels) : Op σ (Option Handle) := do
  let b ← body m file
  match b.source with
  | none => return none
  | some source =>
    if base.any fun base => !source.snapshot.any (·.agrees base) then throw .staleSnapshot
    if source.covers position then return some (← descend m position levels file b)
    else return none

end Session

end CodeModel
