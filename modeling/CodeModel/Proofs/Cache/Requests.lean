import CodeModel.Proofs.Cache.Entries

/-!
# Requests to the cache

Everything that can be asked of a cache, as data, so that a run of the cache is a list of requests.

* A request is **served** with the entries that it evicts and the cache that it leaves behind.
* Only an insertion, a new capacity and a capacity that is set back have the size checked (`limit?`), and
  they all come to a trim (`serve_of_limit?`). All others evict nothing (`serve_of_limit?_eq_none`).
-/

namespace CodeModel

namespace Cache

/-- What can be asked of a cache. -/
inductive Request where
  /-- Asks for a body and uses it. -/
  | get (e : Handle)
  /-- Asks for a body without using it. -/
  | peek (e : Handle)
  /-- Asks whether there is a body. -/
  | contains (e : Handle)
  /-- Stores one body. -/
  | put (e : Handle) (b : Body)
  /-- Stores bodies as one insertion. -/
  | putAll (bodies : Table Body)
  /-- Takes an entry out. -/
  | erase (e : Handle)
  /-- Protects an element and all that is below it. -/
  | pin (e : Handle)
  /-- Lifts the protection. -/
  | unpin (e : Handle)
  /-- Sets the share that an eviction leaves. -/
  | setLoadFactor (x : Float)
  /-- Sets the capacity. -/
  | setCapacity (n : Nat)
  /-- Raises the capacity on behalf of an element. -/
  | raise (n : Nat) (owner : Handle)
  /-- Sets the capacity back on behalf of an element. -/
  | lower (n : Nat) (owner : Handle)

namespace Request

/-- The evicted entries and the cache that is left behind. -/
def serve : Request → Cache → List (Handle × Body) × Cache
  | .get e, c => ([], (c.get? e).2)
  | .peek _, c => ([], c)
  | .contains _, c => ([], c)
  | .put e b, c => c.insert e b
  | .putAll bodies, c => c.insertAll bodies
  | .erase e, c => ([], c.erase e)
  | .pin e, c => ([], c.pin e)
  | .unpin e, c => ([], c.unpin e)
  | .setLoadFactor x, c => ([], c.setLoadFactor x)
  | .setCapacity n, c => c.setCapacity n
  | .raise n owner, c => ([], c.raiseCapacity n owner)
  | .lower n owner, c => c.lowerCapacity n owner

/-- The bodies that the request brings, in order. -/
def batch : Request → Table Body
  | .put e b => [(e, b)]
  | .putAll bodies => bodies
  | _ => []

/-- The capacity by which the request has the size checked, if it does. -/
def limit? : Request → Cache → Option Nat
  | .put _ _, c => some c.capacity
  | .putAll _, c => some c.capacity
  | .setCapacity n, _ => some (max n 1)
  | .lower n owner, c => if c.headroom.any (·.owner.sameChain owner) then some (max n 1) else none
  | _, _ => none

/-- All handles of the request follow the lexicon. -/
def Follows (lex : Lexicon) : Request → Prop
  | .get e | .peek e | .contains e | .erase e | .pin e | .unpin e | .raise _ e | .lower _ e => e.Follows lex
  | .put e _ => e.Follows lex
  | .putAll bodies => ∀ p ∈ bodies, p.1.Follows lex
  | .setLoadFactor _ | .setCapacity _ => True

instance (lex : Lexicon) : (r : Request) → Decidable (r.Follows lex)
  | .get e | .peek e | .contains e | .erase e | .pin e | .unpin e | .raise _ e | .lower _ e =>
    inferInstanceAs (Decidable (e.Follows lex))
  | .put e _ => inferInstanceAs (Decidable (e.Follows lex))
  | .putAll bodies => inferInstanceAs (Decidable (∀ p ∈ bodies, p.1.Follows lex))
  | .setLoadFactor _ | .setCapacity _ => inferInstanceAs (Decidable True)

variable {lex : Lexicon} {r : Request} {c : Cache} {limit : Nat}

theorem Follows.batch (h : r.Follows lex) : ∀ p ∈ r.batch, p.1.Follows lex := by
  cases r with
  | put e b =>
    intro p hp
    obtain rfl := List.mem_singleton.mp hp
    exact h
  | putAll bodies => exact h
  | _ => intro p hp; cases hp

/-- Using an entry changes nothing but the entries. -/
theorem exists_touch (c : Cache) (e : Handle) : ∃ entries, c.touch e = { c with entries } := by
  rw [touch]
  split
  · exact ⟨c.entries, rfl⟩
  · exact ⟨_, rfl⟩

/-- Raising the capacity changes nothing but the capacity and the headroom. -/
theorem exists_raiseCapacity (c : Cache) (n : Nat) (owner : Handle) :
    ∃ capacity headroom, c.raiseCapacity n owner = { c with capacity, headroom } := by
  rw [raiseCapacity]
  split
  · exact ⟨c.capacity, c.headroom, rfl⟩
  · exact ⟨n, _, rfl⟩

/-- Only the owner of the headroom can set the capacity back. To anyone else the request does nothing at all. -/
theorem lowerCapacity_of_limit?_eq_none {n : Nat} {owner : Handle} (h : (lower n owner).limit? c = none) :
    c.lowerCapacity n owner = ([], c) := by
  rw [limit?] at h
  split at h
  · cases h
  · next howner => rw [lowerCapacity, if_neg howner]

theorem storeAll_eq (c : Cache) (bodies : Table Body) :
    c.storeAll bodies = { c with entries := (c.storeAll bodies).entries } := by
  induction bodies generalizing c with
  | nil => rfl
  | cons p bodies ih => exact ih (c.store p.1 p.2)

/-- Where the size is checked, the batch is stored and **the excess goes**. All three kinds of such requests come to
one trim, so what is known of trims is known of them. -/
theorem serve_of_limit? (h : r.limit? c = some limit) :
    ∃ s : Cache, r.serve c = s.trim (HandleSet.ofList (r.batch.map Prod.fst)) ∧
      s.entries = (c.storeAll r.batch).entries ∧ s.capacity = limit ∧ s.loadFactor = c.loadFactor ∧
      s.evictions = c.evictions ∧ s.pinned = c.pinned := by
  cases r with
  | put e b => exact ⟨c.storeAll [(e, b)], rfl, rfl, Option.some.inj h, rfl, rfl, rfl⟩
  | putAll bodies =>
    refine ⟨c.storeAll bodies, insertAll_eq c bodies, rfl, ?_⟩
    rw [storeAll_eq c bodies]
    exact ⟨Option.some.inj h, rfl, rfl, rfl⟩
  | setCapacity n => exact ⟨{ c with capacity := max n 1 }, rfl, rfl, Option.some.inj h, rfl, rfl, rfl⟩
  | lower n owner =>
    rw [limit?] at h
    split at h
    · next howner =>
      refine ⟨{ c with capacity := max n 1, headroom := none }, ?_, rfl, Option.some.inj h, rfl, rfl, rfl⟩
      rw [serve, lowerCapacity, if_pos howner]
      rfl
    · cases h
  | _ => cases h

/-- Where the size is not checked **nothing is evicted**, and the counter stays as it is. Entries may still be taken
out on request. -/
theorem serve_of_limit?_eq_none (h : r.limit? c = none) :
    (r.serve c).1 = [] ∧ (r.serve c).2.evictions = c.evictions := by
  cases r with
  | get e =>
    obtain ⟨entries, htouch⟩ := exists_touch c e
    have hevictions : (c.touch e).evictions = c.evictions := by rw [htouch]
    exact ⟨rfl, hevictions⟩
  | raise n owner =>
    obtain ⟨n', headroom, hraise⟩ := exists_raiseCapacity c n owner
    have hevictions : (c.raiseCapacity n owner).evictions = c.evictions := by rw [hraise]
    exact ⟨rfl, hevictions⟩
  | lower n owner =>
    rw [serve, lowerCapacity_of_limit?_eq_none h]
    exact ⟨rfl, rfl⟩
  | peek | contains | erase | pin | unpin | setLoadFactor => exact ⟨rfl, rfl⟩
  | _ => cases h

end Request

/-- Serves requests one after the other. -/
def run (rs : List Request) (c : Cache) : Cache := rs.foldl (fun c r => (r.serve c).2) c

theorem run_concat (rs : List Request) (r : Request) (c : Cache) :
    run (rs ++ [r]) c = (r.serve (run rs c)).2 := by
  rw [run, List.foldl_append]
  rfl

/-- An element on its own. -/
def unit (name : String) : Handle := Handle.top { name := "unit", openable := true } (some name)

end Cache

end CodeModel
