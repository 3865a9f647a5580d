import CodeModel.Proofs.Cache.Requests
import CodeModel.Proofs.Store.Books

/-!
# Moves of a store

Everything that can happen to a store, as data: whatever a session does comes to a list of such moves.

* A move **evicts** entries only if it has the size of the cache checked: a commit, a new capacity, or a
  capacity that is set back (`overflow?`).
* As long as all handles follow one lexicon and only openable elements are enrolled, a store stays
  **guarded**: no element has two bodies, and every registered element is openable and pinned
  (`Guarded.run`).

The moves stand between the session and the store. What a session does is traced to moves once; what is to be
shown of overflows is shown of single moves, and carried over by what is guarded.
-/

namespace CodeModel

/-! ## Lawful tables -/

/-- The children of the body follow the lexicon. -/
def Body.Follows (lex : Lexicon) (b : Body) : Prop := ∀ c ∈ b.children, c.Follows lex

instance (lex : Lexicon) (b : Body) : Decidable (b.Follows lex) :=
  inferInstanceAs (Decidable (∀ c ∈ b.children, c.Follows lex))

/-- A distinct table of bodies that follow the lexicon as well. -/
structure Table.Lawful (lex : Lexicon) (t : Table Body) : Prop extends Table.Distinct lex t where
  /-- the bodies follow the lexicon -/
  bodies : ∀ p ∈ t, p.2.Follows lex

namespace Table

variable {lex : Lexicon} {t u : Table Body} {e k : Handle} {b : Body}

theorem lawful_nil : Lawful lex [] := ⟨distinct_nil, by simp⟩

theorem Lawful.sublist (h : Lawful lex t) (hu : u.Sublist t) : Lawful lex u :=
  ⟨h.toDistinct.sublist hu, fun p hp => h.bodies p (hu.subset hp)⟩

theorem Lawful.perm (h : Lawful lex t) (hu : u.Perm t) : Lawful lex u :=
  ⟨h.toDistinct.perm hu, fun p hp => h.bodies p (hu.subset hp)⟩

/-- What is found in a lawful table follows the lexicon. -/
theorem Lawful.get? (h : Lawful lex t) (hb : Table.get? t e = some b) : b.Follows lex := by
  obtain ⟨k, hk, -⟩ := exists_of_get? hb
  exact h.bodies _ hk

theorem snd_of_mem_insert {q : Handle × Body} (hq : q ∈ insert t e b) : q ∈ t ∨ q.2 = b := by
  induction t with
  | nil =>
    obtain rfl := List.mem_singleton.mp hq
    exact .inr rfl
  | cons r t ih =>
    obtain ⟨l, w⟩ := r
    rw [insert] at hq
    split at hq
    · rcases List.mem_cons.mp hq with rfl | hq
      · exact .inr rfl
      · exact .inl (List.mem_cons_of_mem _ hq)
    · rcases List.mem_cons.mp hq with rfl | hq
      · exact .inl (List.mem_cons_self ..)
      · exact (ih hq).imp_left (List.mem_cons_of_mem _)

theorem Lawful.insert (h : Lawful lex t) (he : e.Follows lex) (hb : b.Follows lex) :
    Lawful lex (insert t e b) := by
  refine ⟨distinct_insert h.toDistinct he, fun q hq => ?_⟩
  rcases snd_of_mem_insert hq with hq | hq
  · exact h.bodies q hq
  · exact hq ▸ hb

theorem Lawful.erase (h : Lawful lex t) (he : e.Follows lex) : Lawful lex (erase t e) := by
  rw [erase_eq_filter h.toDistinct he]
  exact h.sublist List.filter_sublist

theorem Lawful.front (h : Lawful lex t) (he : e.Follows lex) (hk : k.Follows lex) (hek : e.same k = true)
    (hb : b.Follows lex) : Lawful lex ((k, b) :: Table.erase t e) := by
  refine ⟨distinct_front h.toDistinct he hk hek, fun q hq => ?_⟩
  rcases List.mem_cons.mp hq with rfl | hq
  · exact hb
  · exact (h.erase he).bodies q hq

end Table

namespace Cache

variable {lex : Lexicon} {c : Cache} {e : Handle} {b : Body}

theorem lawful_touch (h : Table.Lawful lex c.entries) (he : e.Follows lex) :
    Table.Lawful lex (c.touch e).entries := by
  rcases entries_touch c e with ⟨hc, -⟩ | ⟨k, b, hm, hek, hc⟩
  · rwa [hc]
  · rw [hc]
    exact h.front he (h.follows _ hm) hek (h.bodies _ hm)

theorem lawful_store (h : Table.Lawful lex c.entries) (he : e.Follows lex)
    (hb : b.Follows lex) : Table.Lawful lex (c.store e b).entries := by
  obtain ⟨k, hk, hek, -, hc⟩ := entries_store h.toDistinct he b
  rw [hc]
  exact h.front he hk hek hb

theorem lawful_storeAll {bodies : Table Body} (h : Table.Lawful lex c.entries)
    (hb : Table.Lawful lex bodies) : Table.Lawful lex (c.storeAll bodies).entries := by
  induction bodies generalizing c with
  | nil => exact h
  | cons p bodies ih =>
    have hp : p ∈ p :: bodies := List.mem_cons_self ..
    exact ih (lawful_store h (hb.follows p hp) (hb.bodies p hp)) (hb.sublist (List.sublist_cons_self ..))

end Cache

/-! ## Moves -/

namespace Store

/-- What can happen to a store. -/
inductive Move where
  /-- Something that neither bodies nor registrations have to do with. -/
  | aside (buffers : List Buffer) (copies : List WorkingCopy) (building : HandleSet)
  /-- A body is used. -/
  | touch (e : Handle)
  /-- A body is taken out. -/
  | erase (e : Handle)
  /-- A body is taken out with those that its element owns. -/
  | eraseTree (e : Handle)
  /-- The bodies of a build are committed. -/
  | commit (e : Handle) (bodies : Table Body)
  /-- The capacity is raised. -/
  | raise (n : Nat) (owner : Handle)
  /-- The capacity is set back. -/
  | lower (n : Nat) (owner : Handle)
  /-- The capacity is set. -/
  | setCapacity (n : Nat)
  /-- The share that an eviction leaves is set. -/
  | setLoadFactor (x : Float)
  /-- A draft is begun. -/
  | push (d : Draft)
  /-- A draft ends. -/
  | pop
  /-- A body goes into the draft. -/
  | record (e : Handle) (b : Body)
  /-- The draft is given up. -/
  | cancel
  /-- A working copy is registered. -/
  | enroll (e : Handle) (id : CopyId)
  /-- A registration is taken away. -/
  | withdraw (e : Handle)

namespace Move

/-- The evicted entries and the store after the move. -/
def make : Move → Store → Evicted × Store
  | .aside buffers copies building, s => ([], { s with buffers, copies, building })
  | .touch e, s => ([], { s with cache := s.cache.touch e })
  | .erase e, s => ([], (s.erase e).2)
  | .eraseTree e, s => ([], (s.eraseTree e).2)
  | .commit e bodies, s => s.commit e bodies
  | .raise n owner, s => ([], s.raiseCapacity n owner)
  | .lower n owner, s => s.lowerCapacity n owner
  | .setCapacity n, s => s.setCapacity n
  | .setLoadFactor x, s => ([], s.setLoadFactor x)
  | .push d, s => ([], s.pushDraft d)
  | .pop, s => ([], s.popDraft.2)
  | .record e b, s => ([], s.modifyDraft fun d => { d with bodies := Table.insert d.bodies e b })
  | .cancel, s => ([], s.modifyDraft fun d => { d with canceled := true })
  | .enroll e id, s => ([], { s with registry := Table.insert s.registry e id, cache := s.cache.pin e })
  | .withdraw e, s => ([], s.unregister e)

/-- All handles of the move follow the lexicon, and only openable elements are enrolled. -/
def Follows (lex : Lexicon) : Move → Prop
  | .aside _ copies _ => ∀ c ∈ copies, c.element.Follows lex
  | .touch e | .erase e | .eraseTree e | .withdraw e | .raise _ e | .lower _ e => e.Follows lex
  | .commit e bodies => e.Follows lex ∧ Table.Lawful lex bodies
  | .push d => Table.Lawful lex d.bodies
  | .record e b => e.Follows lex ∧ b.Follows lex
  | .enroll e _ => e.Follows lex ∧ e.openable = true
  | .setCapacity _ | .setLoadFactor _ | .pop | .cancel => True

/-- The cache whose size the move has checked, if it does, with the elements that are protected. -/
def overflow? : Move → Store → Option (Cache × HandleSet)
  | .commit e bodies, s =>
    let bodies := s.arrangement.arrange bodies
    some (overlay s.cache e bodies, HandleSet.ofList (bodies.map Prod.fst))
  | .lower n owner, s =>
    if s.cache.headroom.any (·.owner.sameChain owner) then
      some ({ s.cache with capacity := max n 1, headroom := none }, [])
    else none
  | .setCapacity n, s => some ({ s.cache with capacity := max n 1 }, [])
  | _, _ => none

end Move

/-- Makes moves one after the other. -/
def run (ms : List Move) (s : Store) : Store := ms.foldl (fun s m => (m.make s).2) s

/-- The elements that are evicted on the way. -/
def evictedBy : List Move → Store → List Handle
  | [], _ => []
  | m :: ms, s => (m.make s).1.map Prod.fst ++ evictedBy ms (m.make s).2

variable {lex : Lexicon} {s : Store} {c : Cache} {e x : Handle} {m : Move} {ms ns : List Move}

theorem run_append (ms ns : List Move) (s : Store) : run (ms ++ ns) s = run ns (run ms s) :=
  List.foldl_append

/-- What is evicted on the way is evicted by the first moves or by those that follow. -/
theorem evictedBy_append (ms ns : List Move) (s : Store) :
    evictedBy (ms ++ ns) s = evictedBy ms s ++ evictedBy ns (run ms s) := by
  induction ms generalizing s with
  | nil => rfl
  | cons m ms ih =>
    rw [List.cons_append, evictedBy, ih, evictedBy, List.append_assoc]
    rfl

/-! ## Guarded stores -/

/-- No element has two bodies, and every registered element is openable and pinned. This is the invariant under
moves, and it is all that an overflow needs to know of a store to spare its working copies. -/
structure Guarded (lex : Lexicon) (s : Store) : Prop where
  /-- the cache is lawful -/
  entries : Table.Lawful lex s.cache.entries
  /-- and so are the drafts -/
  drafts : ∀ d ∈ s.drafts, Table.Lawful lex d.bodies
  /-- working copies are of elements that follow the lexicon -/
  copies : ∀ c ∈ s.copies, c.element.Follows lex
  /-- no element is pinned twice -/
  pins : HandleSet.Distinct lex s.cache.pinned
  /-- no element is registered twice -/
  registry : Table.Distinct lex s.registry
  /-- registered elements are openable -/
  openable : ∀ p ∈ s.registry, p.1.openable = true
  /-- registered elements are pinned -/
  pinned : ∀ p ∈ s.registry, HandleSet.contains s.cache.pinned p.1 = true

/-- A new store is guarded: it has no bodies and no registrations. -/
theorem guarded_new (capacity : Nat) (loadFactor : Float) (buffers : List Buffer) (arrangement : Arrangement) :
    Guarded lex { cache := Cache.new capacity loadFactor, buffers, arrangement } :=
  ⟨Table.lawful_nil, by simp, by simp, Table.distinct_nil, Table.distinct_nil, by simp, by simp⟩

/-- A cache with other entries and the same pins guards just as well. -/
theorem Guarded.withCache (h : Guarded lex s) (hc : Table.Lawful lex c.entries)
    (hpinned : c.pinned = s.cache.pinned) : Guarded lex { s with cache := c } :=
  ⟨hc, h.drafts, h.copies, hpinned ▸ h.pins, h.registry, h.openable, hpinned ▸ h.pinned⟩

theorem lawful_overlay {bodies : Table Body} (h : Table.Lawful lex c.entries)
    (hb : Table.Lawful lex bodies) : Table.Lawful lex (overlay c e bodies).entries :=
  Cache.lawful_storeAll (h.sublist List.filter_sublist) hb

theorem entries_afterEviction (h : Table.Distinct lex c.entries) (s : Store) (protect : HandleSet) :
    (s.afterEviction (c.trim protect)).2.cache.entries = c.entries.filter fun p =>
      !lostOwner (c.trim protect).1 p.1 && !(c.trim protect).1.any (·.1.same p.1) := by
  have htrim : Table.Distinct lex (c.trim protect).2.entries := by
    rw [Cache.trim_entries h]
    exact h.filter _
  rw [afterEviction, dropDependents_eq htrim, Cache.trim_entries h, List.filter_filter]

/-- An overflow keeps a store guarded: it takes entries out, and neither pins nor registrations. -/
theorem Guarded.afterEviction (h : Guarded lex s) (hc : Table.Lawful lex c.entries)
    (hpinned : c.pinned = s.cache.pinned) (protect : HandleSet) :
    Guarded lex (s.afterEviction (c.trim protect)).2 := by
  refine h.withCache (c := (s.afterEviction (c.trim protect)).2.cache) ?_ ?_
  · rw [entries_afterEviction hc.toDistinct]
    exact hc.sublist List.filter_sublist
  · rw [Store.afterEviction, pinned_dropDependents, Cache.pinned_trim, hpinned]

/-- Where the size is checked, **the excess goes**, and what evicted elements own goes with them. All three kinds of
such moves come to a trim of some cache with the pins of the store. -/
theorem Guarded.make_of_overflow? {protect : HandleSet} (h : Guarded lex s) (hm : m.Follows lex)
    (ho : m.overflow? s = some (c, protect)) :
    m.make s = s.afterEviction (c.trim protect) ∧ Table.Lawful lex c.entries ∧
      c.pinned = s.cache.pinned := by
  cases m with
  | commit e bodies =>
    cases ho
    exact ⟨commit_eq h.entries.toDistinct,
      lawful_overlay h.entries (hm.2.perm (s.arrangement.perm bodies)), pinned_overlay ..⟩
  | lower n owner =>
    rw [Move.overflow?] at ho
    split at ho
    · next howner =>
      cases ho
      refine ⟨?_, h.entries, rfl⟩
      rw [Move.make, lowerCapacity, Cache.lowerCapacity, if_pos howner]
    · cases ho
  | setCapacity n =>
    cases ho
    exact ⟨rfl, h.entries, rfl⟩
  | _ => cases ho

/-- Where the size is not checked **nothing is evicted**: moves that evict are those that ask for an overflow. -/
theorem make_of_overflow?_eq_none (ho : m.overflow? s = none) : (m.make s).1 = [] := by
  cases m with
  | lower n owner =>
    rw [Move.overflow?] at ho
    split at ho
    · cases ho
    · next howner => rw [Move.make, lowerCapacity, Cache.lowerCapacity, if_neg howner]; rfl
  | commit | setCapacity => cases ho
  | _ => rfl

/-- Enrolling an element that can be opened pins it at the same time. -/
theorem Guarded.enroll (h : Guarded lex s) (he : e.Follows lex) (hopen : e.openable = true) (id : CopyId) :
    Guarded lex { s with registry := Table.insert s.registry e id, cache := s.cache.pin e } := by
  have hpinned : ∀ {x : Handle}, x.Follows lex → HandleSet.contains (HandleSet.insert s.cache.pinned e) x =
      (x.same e || HandleSet.contains s.cache.pinned x) :=
    fun hx => HandleSet.contains_insert h.pins.follows he hx
  have hregistry := Table.distinct_insert (v := id) h.registry he
  have hkeys : ∀ p ∈ Table.insert s.registry e id, p.1 ∈ Table.keys s.registry ∨ p.1 = e :=
    fun p hp => Table.mem_keys_of_insert hp
  refine ⟨h.entries, h.drafts, h.copies, HandleSet.distinct_insert h.pins he, hregistry, ?_, ?_⟩
  · intro p hp
    rcases hkeys p hp with hp | hp
    · obtain ⟨q, hq, hqp⟩ := List.mem_map.mp hp
      exact hqp ▸ h.openable q hq
    · exact hp ▸ hopen
  · intro p hp
    show HandleSet.contains (HandleSet.insert s.cache.pinned e) p.1 = true
    rw [hpinned (hregistry.follows p hp)]
    rcases hkeys p hp with hp | hp
    · obtain ⟨q, hq, hqp⟩ := List.mem_map.mp hp
      rw [← hqp, h.pinned q hq, Bool.or_true]
    · rw [hp, Handle.same_refl, Bool.true_or]

theorem Guarded.eraseTree (h : Guarded lex s) (he : e.Follows lex) : Guarded lex (s.eraseTree e).2 := by
  refine h.withCache (c := (s.eraseTree e).2.cache) ?_ (pinned_eraseTree s e)
  rw [entries_eraseTree h.entries.toDistinct he]
  exact h.entries.sublist List.filter_sublist

/-- Withdrawing a registration takes its own pin away, and the other elements keep theirs. -/
theorem Guarded.withdraw (h : Guarded lex s) (he : e.Follows lex) : Guarded lex (s.unregister e) := by
  have hregistry : Table.erase s.registry e = s.registry.filter fun p => !e.same p.1 :=
    Table.erase_eq_filter h.registry he
  apply Guarded.eraseTree _ he
  refine ⟨h.entries, h.drafts, h.copies, HandleSet.distinct_erase h.pins he, Table.distinct_erase h.registry he,
    ?_, ?_⟩
  · intro p hp
    rw [hregistry] at hp
    exact h.openable p (List.mem_filter.mp hp).1
  · intro p hp
    rw [hregistry] at hp
    obtain ⟨hp, hep⟩ := List.mem_filter.mp hp
    have hpf := h.registry.follows p hp
    show HandleSet.contains (HandleSet.erase s.cache.pinned e) p.1 = true
    rw [HandleSet.contains_erase h.pins he hpf, h.pinned p hp, Handle.same_comm hpf he, hep]
    rfl

/-- Drafts may change, as long as they stay lawful: being guarded is about the cache and the registry, and asks no
more of drafts. -/
theorem Guarded.modifyDraft (h : Guarded lex s) {f : Draft → Draft}
    (hf : ∀ d, Table.Lawful lex d.bodies → Table.Lawful lex (f d).bodies) :
    Guarded lex (s.modifyDraft f) := by
  rw [Store.modifyDraft]
  split
  · exact h
  · next d drafts hd =>
    refine ⟨h.entries, ?_, h.copies, h.pins, h.registry, h.openable, h.pinned⟩
    intro d' hd'
    rcases List.mem_cons.mp hd' with rfl | hd'
    · exact hf d (h.drafts d (by rw [hd]; exact List.mem_cons_self ..))
    · exact h.drafts d' (by rw [hd]; exact List.mem_cons_of_mem _ hd')

/-- **A move** leaves a guarded store guarded, whichever it is: those about the cache leave pins and registrations
alone, and those about registrations change both together. -/
theorem Guarded.make (h : Guarded lex s) (hm : m.Follows lex) : Guarded lex (m.make s).2 := by
  rcases ho : m.overflow? s with _ | ⟨c, protect⟩
  · cases m with
    | aside buffers copies building =>
      exact ⟨h.entries, h.drafts, hm, h.pins, h.registry, h.openable, h.pinned⟩
    | touch e => exact h.withCache (Cache.lawful_touch h.entries hm) (Cache.pinned_touch ..)
    | erase e => exact h.withCache (c := s.cache.erase e) (h.entries.erase hm) rfl
    | eraseTree e => exact h.eraseTree hm
    | raise n owner =>
      obtain ⟨n', headroom, hraise⟩ := Cache.Request.exists_raiseCapacity s.cache n owner
      show Guarded lex { s with cache := s.cache.raiseCapacity n owner }
      rw [hraise]
      exact h.withCache h.entries rfl
    | lower n owner =>
      rw [Move.overflow?] at ho
      split at ho
      · cases ho
      · next howner =>
        rw [Move.make, lowerCapacity, Cache.lowerCapacity, if_neg howner]
        exact h
    | setLoadFactor x => exact h.withCache (c := s.cache.setLoadFactor x) h.entries rfl
    | push d =>
      refine ⟨h.entries, ?_, h.copies, h.pins, h.registry, h.openable, h.pinned⟩
      intro d' hd'
      rcases List.mem_cons.mp hd' with rfl | hd'
      · exact hm
      · exact h.drafts d' hd'
    | pop =>
      rw [Move.make, popDraft]
      split
      · exact h
      · next d drafts hd =>
        refine ⟨h.entries, ?_, h.copies, h.pins, h.registry, h.openable, h.pinned⟩
        exact fun d' hd' => h.drafts d' (by rw [hd]; exact List.mem_cons_of_mem _ hd')
    | record e b => exact h.modifyDraft fun d hd => hd.insert hm.1 hm.2
    | cancel => exact h.modifyDraft fun d hd => hd
    | enroll e id => exact h.enroll hm.1 hm.2 id
    | withdraw e => exact h.withdraw hm
    | commit | setCapacity => cases ho
  · obtain ⟨hmake, hc, hpinned⟩ := h.make_of_overflow? hm ho
    rw [hmake]
    exact h.afterEviction hc hpinned protect

/-- **Moves** leave a guarded store guarded, by induction on their list. -/
theorem Guarded.run (h : Guarded lex s) (hms : ∀ m ∈ ms, m.Follows lex) : Guarded lex (run ms s) := by
  induction ms generalizing s with
  | nil => exact h
  | cons m ms ih =>
    exact ih (h.make (hms m (List.mem_cons_self ..))) fun n hn => hms n (List.mem_cons_of_mem _ hn)

end Store

end CodeModel
