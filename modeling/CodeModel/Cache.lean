import CodeModel.Element.Body
import CodeModel.Element.Table

/-!
# The body cache

Keeps bodies by element, ordered by use. The capacity is soft: an insertion that exceeds it evicts the
least recently used entries until the share `loadFactor` of the capacity is left.

* **Never evicted** are the entries of the insertion that causes the overflow, and the pinned elements
  with all that is below them, even if too many entries are left.
* **Headroom**: the build of an element may raise the capacity on its own behalf. The cache remembers
  the capacity before the first raise, and goes back to it when the element is evicted, or to a given
  one when the element asks for it.
* An inserted entry whose key is present **keeps the stored key**.
-/

namespace CodeModel

/-- A raised capacity. -/
structure Headroom where
  /-- The element whose build raised the capacity last. -/
  owner : Handle
  /-- The capacity before the first raise. -/
  previous : Nat
deriving DecidableEq

/-- Bodies by element, ordered by use. -/
structure Cache where
  /-- The entries, the most recently used first. -/
  entries : List (Handle × Body) := []
  /-- The capacity. -/
  capacity : Nat
  /-- The share of the capacity that an eviction leaves. -/
  loadFactor : Float
  /-- The raised capacity, if any. -/
  headroom : Option Headroom := none
  /-- How many entries have been evicted so far. -/
  evictions : Nat := 0
  /-- The elements protected from eviction, each with all that is below it. -/
  pinned : HandleSet := []

namespace Cache

/-! ## Making and asking -/

/-- A usable load factor: a positive number no larger than 1. Anything else counts as 1. -/
def usableShare (x : Float) : Float :=
  if x.isFinite && 0 < x then (if x ≤ 1 then x else 1) else 1

/-- An empty cache. Its capacity is at least 1. -/
def new (capacity : Nat) (loadFactor : Float) : Cache :=
  { capacity := max capacity 1, loadFactor := usableShare loadFactor }

/-- The number of entries. -/
def size (c : Cache) : Nat := c.entries.length

/-- The cached elements, the most recently used first. -/
def keys (c : Cache) : List Handle := c.entries.map Prod.fst

/-- The body of an element; its place in the order of use stays. -/
def peek? (c : Cache) (e : Handle) : Option Body := Table.get? c.entries e

/-- There is a body for the element. -/
def contains (c : Cache) (e : Handle) : Bool := (c.peek? e).isSome

/-- The cached elements with a property, the most recently used first. -/
def keysWhere (c : Cache) (p : Handle → Bool) : List Handle := c.keys.filter p

/-- The element or one of its ancestors is pinned. -/
def isPinned (c : Cache) (e : Handle) : Bool := HandleSet.covers c.pinned e

/-! ## Using entries -/

/-- Takes an entry out. -/
def erase (c : Cache) (e : Handle) : Cache := { c with entries := Table.erase c.entries e }

/-- Makes the entry of an element, if there is one, the most recently used. -/
def touch (c : Cache) (e : Handle) : Cache :=
  match c.entries.find? (fun p => e.same p.1) with
  | none => c
  | some p => { c with entries := p :: Table.erase c.entries e }

/-- The body of an element, which becomes the most recently used. -/
def get? (c : Cache) (e : Handle) : Option Body × Cache := (c.peek? e, c.touch e)

/-- Stores a body as the most recently used entry. A present key keeps its spelling. -/
def store (c : Cache) (e : Handle) (b : Body) : Cache :=
  let key := match c.entries.find? (fun p => e.same p.1) with
    | some (k, _) => k
    | none => e
  { c with entries := (key, b) :: Table.erase c.entries e }

/-! ## Eviction -/

/-- The number of entries that an eviction leaves if it can: the share of the capacity, rounded down. -/
def target (c : Cache) : Nat := (c.capacity.toUInt64.toFloat * c.loadFactor).toUInt64.toNat

/-- The entries that an overflow evicts: the least recently used ones outside `protect` and outside
the pinned trees, as many as are beyond the target. -/
def victims (c : Cache) (protect : HandleSet) : List (Handle × Body) :=
  (c.entries.reverse.filter fun p => !HandleSet.contains protect p.1 && !c.isPinned p.1).take
    (c.size - c.target)

/-- Takes back a raised capacity if its owner is among the evicted elements. -/
def settle (c : Cache) (evicted : List (Handle × Body)) : Cache :=
  match c.headroom with
  | some w =>
    if evicted.any (fun p => p.1.sameChain w.owner) then
      { c with capacity := w.previous, headroom := none }
    else c
  | none => c

/-- Evicts entries if there are more than the capacity allows. The evicted entries are returned in the
order of their eviction. -/
def trim (c : Cache) (protect : HandleSet) : List (Handle × Body) × Cache :=
  if c.size ≤ c.capacity then ([], c)
  else
    let evicted := c.victims protect
    let c := evicted.foldl (fun c p => c.erase p.1) c
    (evicted, { c with evictions := c.evictions + evicted.length }.settle evicted)

/-- Stores bodies as one insertion, none of which it evicts. -/
def insertAll (c : Cache) (bodies : List (Handle × Body)) : List (Handle × Body) × Cache :=
  (bodies.foldl (fun c p => c.store p.1 p.2) c).trim (HandleSet.ofList (bodies.map Prod.fst))

/-- Stores one body. -/
def insert (c : Cache) (e : Handle) (b : Body) : List (Handle × Body) × Cache := c.insertAll [(e, b)]

/-! ## Capacity -/

/-- Sets the capacity, which is at least 1. -/
def setCapacity (c : Cache) (n : Nat) : List (Handle × Body) × Cache :=
  { c with capacity := max n 1 }.trim []

/-- Sets the share that an eviction leaves. -/
def setLoadFactor (c : Cache) (x : Float) : Cache := { c with loadFactor := usableShare x }

/-- Raises the capacity to `n` on behalf of `owner` if it is smaller. -/
def raiseCapacity (c : Cache) (n : Nat) (owner : Handle) : Cache :=
  if n ≤ c.capacity then c
  else
    let previous := match c.headroom with
      | some w => w.previous
      | none => c.capacity
    { c with capacity := n, headroom := some ⟨owner, previous⟩ }

/-- Sets the capacity back to `n` if `owner` raised it last. -/
def lowerCapacity (c : Cache) (n : Nat) (owner : Handle) : List (Handle × Body) × Cache :=
  if c.headroom.any (·.owner.sameChain owner) then
    { c with capacity := max n 1, headroom := none }.trim []
  else ([], c)

/-! ## Pins -/

/-- Protects an element and all that is below it. -/
def pin (c : Cache) (e : Handle) : Cache := { c with pinned := HandleSet.insert c.pinned e }

/-- Lifts the protection. -/
def unpin (c : Cache) (e : Handle) : Cache := { c with pinned := HandleSet.erase c.pinned e }

/-! ## Laws -/

/-- Looking a body up changes nothing but the order of use. -/
@[simp] theorem capacity_touch (c : Cache) (e : Handle) : (c.touch e).capacity = c.capacity := by
  unfold touch; split <;> rfl

@[simp] theorem size_touch (c : Cache) (e : Handle) : (c.touch e).size = c.size := by
  unfold touch size
  split
  · rfl
  · next p hp =>
    have : ∀ l : List (Handle × Body), l.find? (fun p => e.same p.1) = some p →
        (Table.erase l e).length + 1 = l.length := by
      intro l
      induction l with
      | nil => simp
      | cons q l ih =>
        obtain ⟨k, v⟩ := q
        intro h
        by_cases hk : e.same k = true
        · simp [Table.erase, hk]
        · have hl : l.find? (fun p => e.same p.1) = some p := by simpa [hk] using h
          simp [Table.erase, hk, ih hl]
    simpa using this c.entries hp

/-- Within its capacity a cache evicts nothing. -/
theorem trim_of_size_le {c : Cache} (h : c.size ≤ c.capacity) (protect : HandleSet) :
    c.trim protect = ([], c) := by
  simp [trim, h]

theorem peek?_store_self (c : Cache) (e : Handle) (b : Body) : (c.store e b).peek? e = some b := by
  unfold store peek?
  cases h : c.entries.find? (fun p => e.same p.1) with
  | none => simp [Table.get?]
  | some p =>
    have hp : e.same p.1 = true := by simpa using List.find?_some h
    simp [Table.get?, hp]

end Cache

end CodeModel
