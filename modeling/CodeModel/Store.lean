import CodeModel.Cache
import CodeModel.Error
import CodeModel.Store.WorkingCopy

/-!
# The store

Everything a session knows about its elements: the cached bodies, the working copies and their buffers,
and the builds in progress. All operations are plain functions; what the outside has to be told (which
entries were evicted, which working copy has come to its end) is part of their result.

* A **draft** holds the bodies of a build that is not committed yet. Lookups see the draft of the
  innermost build before the cache, and no other draft.
* The bodies of an element and of the elements it owns go **together**: committing an element drops what
  an earlier build left behind, and evicting an openable element drops the bodies it owns.
* A **working copy** is referenced as often as it was asked for, and each reference holds one on its
  buffer. It is pinned in the cache while it is registered.
* The bodies of one build have **no order of their own**: the store has an arrangement that says in which
  order they come to be the most recently used ones. It decides what a later overflow evicts.
* An operation that fails keeps what it had done up to then, just as one that succeeds.
-/

namespace CodeModel

/-- The bodies of a build in progress. -/
structure Draft where
  /-- What has been built so far. -/
  bodies : Table Body := []
  /-- The build was given up. -/
  canceled : Bool := false

/-- The order in which the bodies of one build go into the cache. A build says what the bodies are; which
of them comes first is up to the arrangement, which neither loses nor adds any. -/
structure Arrangement where
  /-- Puts the bodies of a build in order. -/
  arrange : Table Body → Table Body
  /-- The bodies are still the same. -/
  perm : ∀ bodies, (arrange bodies).Perm bodies

/-- The bodies go in as they were built, the element of the build at the end. -/
def Arrangement.asBuilt : Arrangement := ⟨id, fun bodies => .refl bodies⟩

/-- Evicted entries, in the order of their eviction. -/
abbrev Evicted := List (Handle × Body)

/-- What a session knows about its elements. -/
structure Store where
  /-- The cached bodies. -/
  cache : Cache
  /-- The buffers, by number. -/
  buffers : List Buffer := []
  /-- All working copies there have been, by number. -/
  copies : List WorkingCopy := []
  /-- The working copies in force. -/
  registry : Table CopyId := []
  /-- The elements whose builds are claimed. -/
  building : HandleSet := []
  /-- The drafts, the innermost first. -/
  drafts : List Draft := []
  /-- The order in which committed bodies become the most recently used. -/
  arrangement : Arrangement := .asBuilt

namespace Store

/-! ## Bodies -/

/-- The body of an element in the innermost draft. -/
def draftBody? (s : Store) (e : Handle) : Option Body :=
  s.drafts.head?.bind fun d => Table.get? d.bodies e

/-- The body of an element; the order of use stays. -/
def peek? (s : Store) (e : Handle) : Option Body := (s.draftBody? e).or (s.cache.peek? e)

/-- The body of an element; a cached one becomes the most recently used. -/
def get? (s : Store) (e : Handle) : Option Body × Store :=
  match s.draftBody? e with
  | some b => (some b, s)
  | none =>
    let (b, cache) := s.cache.get? e
    (b, { s with cache })

/-- The cache has a body for the element, drafts left aside. -/
def isCached (s : Store) (e : Handle) : Bool := s.cache.contains e

/-- All bodies that lookups can see. -/
def visible (s : Store) : Table Body :=
  (s.drafts.head?.map Draft.bodies).getD [] ++ s.cache.entries

/-- Takes the body of an element alone out of the cache. -/
def erase (s : Store) (e : Handle) : Option Body × Store :=
  (s.cache.peek? e, { s with cache := s.cache.erase e })

/-- Takes the bodies of all elements that `owner` owns out of a cache. -/
def dropOwned (c : Cache) (owner : Handle) : Cache :=
  (c.keysWhere (·.isOwnedBy owner)).foldl Cache.erase c

/-- Drops what evicted openable elements own. -/
def dropDependents (c : Cache) (evicted : Evicted) : Cache :=
  evicted.foldl (fun c p => if p.1.openable then dropOwned c p.1 else c) c

/-- Drops what evicted elements own, after an operation on the cache. -/
def afterEviction (s : Store) (r : Evicted × Cache) : Evicted × Store :=
  (r.1, { s with cache := dropDependents r.2 r.1 })

/-- Commits the bodies that a build of `e` made, in the order of the arrangement. Bodies that `e` owns from
an earlier build and that are not among them are dropped first. -/
def commit (s : Store) (e : Handle) (bodies : Table Body) : Evicted × Store :=
  let stale := s.cache.keysWhere fun k => k.isOwnedBy e && !Table.contains bodies k
  s.afterEviction ((stale.foldl Cache.erase s.cache).insertAll (s.arrangement.arrange bodies))

/-- Commits unless there is a body for `e` by now, which is then the answer. -/
def commitIfAbsent (s : Store) (e : Handle) (bodies : Table Body) :
    Option Body × Evicted × Store :=
  match s.cache.peek? e with
  | some existing => (some existing, [], { s with cache := s.cache.touch e })
  | none => (none, s.commit e bodies)

/-- Takes the body of an element and the bodies it owns out. The answer lists the elements that lost
their bodies, the owned ones from the most recently used on and the element itself last. -/
def eraseTree (s : Store) (e : Handle) : List Handle × Store :=
  let owned := s.cache.keysWhere (·.isOwnedBy e)
  let removed := if s.cache.contains e then owned ++ [e] else owned
  (removed, { s with cache := removed.foldl Cache.erase (s.cache.erase e) })

/-! ## Capacity -/

/-- Raises the capacity on behalf of the build of `owner`. -/
def raiseCapacity (s : Store) (n : Nat) (owner : Handle) : Store :=
  { s with cache := s.cache.raiseCapacity n owner }

/-- Sets the capacity back if `owner` raised it last. -/
def lowerCapacity (s : Store) (n : Nat) (owner : Handle) : Evicted × Store :=
  s.afterEviction (s.cache.lowerCapacity n owner)

/-- Sets the capacity. -/
def setCapacity (s : Store) (n : Nat) : Evicted × Store := s.afterEviction (s.cache.setCapacity n)

/-- Sets the share that an eviction leaves. -/
def setLoadFactor (s : Store) (x : Float) : Store := { s with cache := s.cache.setLoadFactor x }

/-! ## Claims and drafts -/

/-- The answer to a claim on a build. -/
inductive Claim where
  /-- There is a body already. -/
  | existing (body : Body)
  /-- The caller is to build. -/
  | claimed

/-- Claims a rebuild of an element, whether or not it has a body. -/
def claimAgain (s : Store) (e : Handle) : Except Error Unit × Store :=
  if HandleSet.contains s.building e then (.error (.illegalState (.recursiveBuild e)), s)
  else (.ok (), { s with building := HandleSet.insert s.building e })

/-- Claims the build of an element unless it has a body. -/
def claim (s : Store) (e : Handle) : Except Error Claim × Store :=
  match s.cache.peek? e with
  | some b => (.ok (.existing b), { s with cache := s.cache.touch e })
  | none =>
    let (claim, s) := s.claimAgain e
    (claim.map fun _ => .claimed, s)

/-- Gives a claim back. -/
def unclaim (s : Store) (e : Handle) : Store :=
  { s with building := HandleSet.erase s.building e }

/-- Puts a draft on top. -/
def pushDraft (s : Store) (d : Draft) : Store := { s with drafts := d :: s.drafts }

/-- Takes the top draft off. -/
def popDraft (s : Store) : Except Error Draft × Store :=
  match s.drafts with
  | [] => (.error (.illegalState .noDraft), s)
  | d :: drafts => (.ok d, { s with drafts })

/-- Changes the top draft. -/
def modifyDraft (s : Store) (f : Draft → Draft) : Store :=
  match s.drafts with
  | [] => s
  | d :: drafts => { s with drafts := f d :: drafts }

/-! ## Buffers -/

/-- The buffer of a number. -/
def buffer? (s : Store) (id : BufferId) : Option Buffer := s.buffers[id]?

/-- Changes a buffer. -/
def modifyBuffer (s : Store) (id : BufferId) (f : Buffer → Buffer) : Store :=
  { s with buffers := s.buffers.modify id f }

/-- Registers one more owner of a buffer. -/
def retainBuffer (s : Store) (id : BufferId) : Store := s.modifyBuffer id Buffer.retain

/-- Lets one owner of a buffer go. -/
def releaseBuffer (s : Store) (id : BufferId) : Except Error Unit × Store :=
  match (s.buffer? id).map Buffer.release with
  | some (.error cause) => (.error (.buffer cause), s)
  | some (.ok b) => (.ok (), s.modifyBuffer id fun _ => b)
  | none => (.ok (), s)

/-! ## Working copies -/

/-- The working copy of a number. -/
def copy? (s : Store) (id : CopyId) : Option WorkingCopy := s.copies[id]?

/-- Changes a working copy. -/
def modifyCopy (s : Store) (id : CopyId) (f : WorkingCopy → WorkingCopy) : Store :=
  { s with copies := s.copies.modify id f }

/-- The working copy in force for an element. -/
def copyOf? (s : Store) (e : Handle) : Option CopyId := Table.get? s.registry e

/-- The working copy in force for an element, with its particulars. -/
def workingCopy? (s : Store) (e : Handle) : Option (CopyId × WorkingCopy) :=
  (s.copyOf? e).bind fun id => (s.copy? id).map (id, ·)

/-- The text of an element's working copy at this moment. -/
def copySnapshot? (s : Store) (e : Handle) : Option Snapshot :=
  (s.workingCopy? e).bind fun (_, c) => (s.buffer? c.buffer).map Buffer.snapshot

/-- The working copy is the one in force for its element. -/
def isInForce (s : Store) (id : CopyId) : Bool :=
  match s.copy? id with
  | some c => s.copyOf? c.element == some id
  | none => false

/-- Takes one more reference, on the working copy and on its buffer. -/
def retainCopy (s : Store) (id : CopyId) : Store :=
  match s.copy? id with
  | some c => (s.retainBuffer c.buffer).modifyCopy id WorkingCopy.retain
  | none => s

/-- Drops one reference; the answer is the number of those left. The reference on the working copy goes
first, and it is gone even if the buffer refuses. -/
def releaseCopy (s : Store) (id : CopyId) : Except Error Nat × Store :=
  match s.copy? id with
  | none => (.ok 0, s)
  | some c =>
    match c.refs with
    | 0 => (.error (.illegalState (.notReferenced c.element)), s)
    | n + 1 =>
      let s := s.modifyCopy id fun c => { c with refs := n }
      let (r, s) := s.releaseBuffer c.buffer
      (r.map fun _ => n, s)

/-- Marks a working copy as disposed; the answer tells whether it was not before. -/
def disposeCopy (s : Store) (id : CopyId) : Bool × Store :=
  ((s.copy? id).any (!·.disposed), s.modifyCopy id fun c => { c with disposed := true })

/-- Registers a working copy of an element on a buffer, or takes one more reference on the one in force.
The answer tells which, and whether it is new. -/
def register (s : Store) (e : Handle) (buffer : BufferId) (callback : Option CallbackId) :
    CopyId × Bool × Store :=
  match s.copyOf? e with
  | some id => (id, false, s.retainCopy id)
  | none =>
    let id := s.copies.length
    let s : Store := { s with copies := s.copies ++ [{ element := e, buffer, callback }] }
    let s := s.retainCopy id
    (id, true, { s with registry := Table.insert s.registry e id, cache := s.cache.pin e })

/-- Takes one more reference on the working copy in force for an element, if there is one. -/
def acquire (s : Store) (e : Handle) : Option CopyId × Store :=
  match s.copyOf? e with
  | some id => (some id, s.retainCopy id)
  | none => (none, s)

/-- Takes the registration of an element away, with its pin and its bodies. -/
def unregister (s : Store) (e : Handle) : Store :=
  ({ s with registry := Table.erase s.registry e, cache := s.cache.unpin e }.eraseTree e).2

/-- What dropping a reference comes to. -/
inductive Release where
  /-- There are references left. -/
  | kept
  /-- It was the last one. `announce` tells whether the end of the working copy is news. -/
  | last (copy : CopyId) (announce : Bool)
deriving DecidableEq

/-- Drops one reference on the working copy in force for an element. With the last one the
registration and the bodies go, and the working copy is disposed. -/
def release (s : Store) (e : Handle) : Except Error Release × Store :=
  match s.copyOf? e with
  | none => (.error (.illegalState (.notWorkingCopy e)), s)
  | some id =>
    match s.releaseCopy id with
    | (.error error, s) => (.error error, s)
    | (.ok (_ + 1), s) => (.ok .kept, s)
    | (.ok 0, s) =>
      let (announce, s) := (s.unregister e).disposeCopy id
      (.ok (.last id announce), s)

/-- Takes the registration of a working copy away if it is the one in force. Its references stay. -/
def discard (s : Store) (id : CopyId) : Store :=
  match s.copy? id with
  | some c => if s.isInForce id then s.unregister c.element else s
  | none => s

/-- Drops one reference on a working copy that is no longer in force; with the last one it is
disposed. -/
def releaseStray (s : Store) (id : CopyId) : Except Error Release × Store :=
  match s.releaseCopy id with
  | (.error error, s) => (.error error, s)
  | (.ok (_ + 1), s) => (.ok .kept, s)
  | (.ok 0, s) =>
    let (announce, s) := s.disposeCopy id
    (.ok (.last id announce), s)

/-- The elements that have a working copy. -/
def workingCopies (s : Store) : List Handle := Table.keys s.registry

/-! ## Laws -/

@[simp] theorem popDraft_pushDraft (s : Store) (d : Draft) : (s.pushDraft d).popDraft = (.ok d, s) := rfl

theorem peek?_of_no_draft {s : Store} (h : s.drafts = []) (e : Handle) :
    s.peek? e = s.cache.peek? e := by
  simp [peek?, draftBody?, h]

end Store

end CodeModel
