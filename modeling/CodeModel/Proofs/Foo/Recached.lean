import CodeModel.Proofs.Foo.Steps

/-!
# Sessions that differ in their caches

What is done to buffers and working copies has nothing to do with what is cached, and what is told to the
outside neither.

* Stores that differ in their **caches** only, and in the order in which builds fill them, go on to do so,
  and operations on them have the same results (`Recached`).
* The same goes for sessions (`Same`), which may have different **settings** for their caches, too. Whether
  an element is there before it becomes a working copy is the only thing that is looked up in the cache
  (`Same.starting`).
-/

namespace CodeModel.Foo

open Session

variable {u v : Store} {s t : Session Desk} {e : Handle} {id : CopyId} {b : Buffer}

/-! ## Stores -/

/-- **The store with another cache.** The bodies of a build may go into it in another order, too, for the
order is about the cache and nothing else. -/
inductive Recached (u : Store) : Store → Prop where
  | mk (cache : Cache) (arrangement : Arrangement) : Recached u { u with cache, arrangement }

namespace Recached

theorem exchange {u' v' : Store} (h : Recached u v) (hu : u' = { u with cache := u'.cache })
    (hv : v' = { v with cache := v'.cache }) : Recached u' v' := by
  rw [hu, hv]
  cases h with
  | mk cache arrangement => exact .mk _ arrangement

/-- What an element is registered with has nothing to do with the cache. -/
theorem copyOf? (h : Recached u v) (e : Handle) : v.copyOf? e = u.copyOf? e := by
  cases h
  rfl

theorem copy? (h : Recached u v) (id : CopyId) : v.copy? id = u.copy? id := by
  cases h
  rfl

theorem buffer? (h : Recached u v) (i : BufferId) : v.buffer? i = u.buffer? i := by
  cases h
  rfl

theorem copies (h : Recached u v) : v.copies = u.copies := by
  cases h
  rfl

theorem registry (h : Recached u v) : v.registry = u.registry := by
  cases h
  rfl

theorem workingCopy? (h : Recached u v) (e : Handle) : v.workingCopy? e = u.workingCopy? e := by
  cases h
  rfl

/-- A working copy that can be used can be used on the other side, on the same buffer. -/
theorem inForce {c : WorkingCopy} (h : Recached u v) (hin : InForce u e id c b) :
    InForce v e id c b :=
  ⟨(h.copyOf? e).trans hin.registered, (h.copy? id).trans hin.copy, hin.element, hin.ready, hin.live,
    (h.buffer? c.buffer).trans hin.buffer⟩

/-- **Operations** that change working copies and buffers only give stores that still differ in their caches only.
-/
theorem modifyCopy (h : Recached u v) (id : CopyId) (f : WorkingCopy → WorkingCopy) :
    Recached (u.modifyCopy id f) (v.modifyCopy id f) := by
  cases h with
  | mk cache arrangement => exact .mk cache arrangement

theorem modifyBuffer (h : Recached u v) (i : BufferId) (f : Buffer → Buffer) :
    Recached (u.modifyBuffer i f) (v.modifyBuffer i f) := by
  cases h with
  | mk cache arrangement => exact .mk cache arrangement

/-- A registration is dropped with bodies and a pin, and these are parts of the cache. -/
theorem unregister (h : Recached u v) (e : Handle) : Recached (u.unregister e) (v.unregister e) := by
  cases h with
  | mk cache arrangement => exact .mk _ arrangement

/-- A new working copy brings a pin, which is part of the cache. -/
theorem enrolled (h : Recached u v) (e : Handle) (buffer : BufferId) (callback : Option CallbackId) :
    Recached (enrolled u e buffer callback) (enrolled v e buffer callback) := by
  cases h with
  | mk cache arrangement => exact .mk _ arrangement

/-- A new structure goes into the cache, whatever else happens there. -/
theorem renewed (h : Recached u v) (id : CopyId) (e : Handle) (bodies : Table Body) (version : Nat) :
    Recached (renewed u id e bodies version) (renewed v id e bodies version) := by
  cases h with
  | mk cache arrangement => exact .mk _ arrangement

/-- Where buffers and working copies are all that matters, the cache is none of it. -/
theorem of_aside {w : Store} (h : aside w u = w) (cache : Cache) (arrangement : Arrangement) :
    Recached w (aside w { u with cache, arrangement }) := by
  have hcache : aside w { u with cache, arrangement } = { w with cache, arrangement } := by
    rw [← h]
    rfl
  rw [hcache]
  exact .mk cache arrangement

theorem retainCopy (h : Recached u v) (id : CopyId) :
    Recached (u.retainCopy id) (v.retainCopy id) := by
  cases h with
  | mk cache arrangement =>
    have hstep : ({ u with cache, arrangement } : Store).retainCopy id = aside (u.retainCopy id) { u with cache, arrangement } :=
      retainCopy_aside u { u with cache, arrangement } id
    rw [hstep]
    exact of_aside (retainCopy_aside u u id).symm cache arrangement

/-- A release has the same result on both sides, for it goes by the counts of working copies and buffers. -/
theorem releaseCopy (h : Recached u v) (id : CopyId) :
    (v.releaseCopy id).1 = (u.releaseCopy id).1 ∧
      Recached (u.releaseCopy id).2 (v.releaseCopy id).2 := by
  cases h with
  | mk cache arrangement =>
    have hstep : ({ u with cache, arrangement } : Store).releaseCopy id =
        ((u.releaseCopy id).1, aside (u.releaseCopy id).2 { u with cache, arrangement }) :=
      releaseCopy_aside u { u with cache, arrangement } id
    rw [hstep]
    exact ⟨rfl, of_aside (congrArg Prod.snd (releaseCopy_aside u u id)).symm cache arrangement⟩

/-- A release without a registration has the same result on both sides. -/
theorem releaseStray (h : Recached u v) (id : CopyId) :
    (v.releaseStray id).1 = (u.releaseStray id).1 ∧
      Recached (u.releaseStray id).2 (v.releaseStray id).2 := by
  cases h with
  | mk cache arrangement =>
    have hstep : ({ u with cache, arrangement } : Store).releaseStray id =
        ((u.releaseStray id).1, aside (u.releaseStray id).2 { u with cache, arrangement }) :=
      releaseStray_aside u { u with cache, arrangement } id
    rw [hstep]
    exact ⟨rfl, of_aside (congrArg Prod.snd (releaseStray_aside u u id)).symm cache arrangement⟩

/-- Whether a failed working copy is still registered is the same on both sides. -/
theorem discard (h : Recached u v) (id : CopyId) : Recached (u.discard id) (v.discard id) := by
  have hforce : v.isInForce id = u.isInForce id := by
    cases h
    rfl
  simp only [Store.discard, h.copy?, hforce]
  rcases u.copy? id with _ | c
  · exact h
  · simp only
    split
    · exact h.unregister c.element
    · exact h

/-- **Releasing an element** has the same result on both sides: whether it was the last reference is told by the
count, and nothing about it by the cache. -/
theorem release (h : Recached u v) (e : Handle) :
    (v.release e).1 = (u.release e).1 ∧ Recached (u.release e).2 (v.release e).2 := by
  simp only [Store.release, h.copyOf?]
  rcases u.copyOf? e with _ | id
  · exact ⟨rfl, h⟩
  · obtain ⟨heq, hnext⟩ := h.releaseCopy id
    simp only
    generalize u.releaseCopy id = r at heq hnext
    generalize v.releaseCopy id = r' at heq hnext
    obtain ⟨r, u'⟩ := r
    obtain ⟨r', v'⟩ := r'
    obtain rfl : r' = r := heq
    rcases r' with error | _ | n
    · exact ⟨rfl, hnext⟩
    · have hlast := hnext.unregister e
      simp only [Store.disposeCopy, hlast.copy?]
      exact ⟨trivial, hlast.modifyCopy id _⟩
    · exact ⟨rfl, hnext⟩

/-- The end of a working copy is told in the same way on both sides. -/
theorem endNotices (h : Recached u v) (r : Store.Release) : endNotices v r = endNotices u r := by
  rcases r with _ | ⟨id, _ | _⟩
  · rfl
  · rfl
  · simp only [Foo.endNotices, h.copy?]

/-- The differences that a reconcile found are told in the same way on both sides. -/
theorem reconcileNotices (h : Recached u v) (id : CopyId) (delta : Delta) :
    reconcileNotices v id delta = reconcileNotices u id delta := by
  simp only [Foo.reconcileNotices, h.copy?]

end Recached

/-! ## Sessions -/

/-- **The sessions differ in their caches**, and in the settings of these, at most. What is left of a session when
the cache is taken away is the same on both sides, and so operations that do not ask for bodies do the same to both.
-/
structure Same (s t : Session Desk) : Prop where
  /-- the stores differ in their caches -/
  store : Recached s.store t.store
  /-- reconciles go into the same detail -/
  depth : t.config.reconcileDepth = s.config.reconcileDepth
  /-- the same listeners are told -/
  listeners : t.listeners = s.listeners
  /-- the files are the same, and so is what was told -/
  world : t.world = s.world

namespace Same

variable (h : Same s t)

include h

theorem withStore (huv : Recached u v) : Same (withStore s u) (withStore t v) :=
  ⟨huv, h.depth, h.listeners, h.world⟩

theorem noted (l : List Notice) : Same (noted s l) (noted t l) := by
  refine ⟨h.store, h.depth, h.listeners, ?_⟩
  rw [Foo.noted, Foo.noted, h.world]

/-- An event is told to the same listeners on both sides. -/
theorem eventNotices (event : Event) : eventNotices t event = eventNotices s event := by
  rw [Foo.eventNotices, Foo.eventNotices, h.listeners]

/-- A new structure for a working copy is a matter of the cache but for its version. -/
theorem structured (id : CopyId) (e : Handle) (bodies : Table Body) (version : Nat) :
    Same (structured id e bodies version s) (structured id e bodies version t) :=
  h.withStore (h.store.renewed id e bodies version)

/-- A callback sees the same desk on both sides, so it refuses on both or on none. -/
theorem consented (refusal : Refusal) (id : CopyId) (callback : Option CallbackId) :
    (consented refusal id callback t).1 = (consented refusal id callback s).1 ∧
      Same (consented refusal id callback s).2 (consented refusal id callback t).2 := by
  rcases callback with _ | callback
  · exact ⟨rfl, h⟩
  · simp only [Foo.consented, h.world]
    exact ⟨trivial, h.noted _⟩

/-- A set-up that failed is taken back in the same way, and ends are announced in the same way. -/
theorem withdrawn (id : CopyId) (error : Error) :
    (withdrawn id error t).1 = (withdrawn id error s).1 ∧
      Same (withdrawn id error s).2 (withdrawn id error t).2 := by
  obtain ⟨heq, hnext⟩ :=
    ((h.store.discard id).modifyCopy id fun c => { c with init := .failed }).releaseStray id
  simp only [Foo.withdrawn]
  generalize ((s.store.discard id).modifyCopy id fun c => { c with init := .failed }).releaseStray id =
    r at heq hnext
  generalize ((t.store.discard id).modifyCopy id fun c => { c with init := .failed }).releaseStray id =
    r' at heq hnext
  obtain ⟨r, u⟩ := r
  obtain ⟨r', v⟩ := r'
  obtain rfl : r' = r := heq
  rcases r' with cause | r
  · exact ⟨rfl, h.withStore hnext⟩
  · refine ⟨rfl, ?_⟩
    simp only [hnext.endNotices]
    exact (h.withStore hnext).noted _

/-- A working copy that is ready is announced in the same way. -/
theorem launched (id : CopyId) (event : Event) : Same (launched id event s) (launched id event t) := by
  rw [Foo.launched, Foo.launched, h.eventNotices]
  exact (h.withStore (h.store.modifyCopy id _)).noted _

/-- **Becoming a working copy** comes to the same, if it is the same whether the element was there before. This is
the one thing that is looked up in the cache, and it decides only about the event that is fired. -/
theorem starting (p : Project) (refusal : Refusal) (canceled : Bool) (buffer : BufferId) (b : Buffer)
    (callback : Option CallbackId)
    (hexisted : (t.store.isCached e || p.hasResource s.world.files e) =
      (s.store.isCached e || p.hasResource s.world.files e)) :
    (starting p refusal canceled e buffer b callback t).1 =
        (starting p refusal canceled e buffer b callback s).1 ∧
      Same (starting p refusal canceled e buffer b callback s).2
        (starting p refusal canceled e buffer b callback t).2 := by
  have henrolled := h.withStore (h.store.enrolled e buffer callback)
  simp only [Foo.starting, h.world, h.store.copies, hexisted]
  rcases p.made s.world.files canceled e (some b.snapshot) with error | bodies
  · exact henrolled.withdrawn _ error
  · obtain ⟨heq, hnext⟩ := (henrolled.structured s.store.copies.length e bodies b.version).consented
      refusal s.store.copies.length callback
    simp only
    generalize Foo.consented refusal s.store.copies.length callback
      (Foo.structured s.store.copies.length e bodies b.version
        (Foo.withStore s (enrolled s.store e buffer callback))) = r at heq hnext
    generalize Foo.consented refusal s.store.copies.length callback
      (Foo.structured s.store.copies.length e bodies b.version
        (Foo.withStore t (enrolled t.store e buffer callback))) = r' at heq hnext
    obtain ⟨r, s'⟩ := r
    obtain ⟨r', t'⟩ := r'
    obtain rfl : r' = r := heq
    rcases r' with error | _
    · exact hnext.withdrawn _ error
    · exact ⟨rfl, hnext.launched _ _⟩

/-- The same differences are reported in the same way. -/
theorem reported (id : CopyId) (delta : Delta) :
    (reported id delta t).1 = (reported id delta s).1 ∧
      Same (reported id delta s).2 (reported id delta t).2 := by
  simp only [Foo.reported, h.store.reconcileNotices, h.eventNotices]
  split
  · exact ⟨rfl, h.noted _⟩
  · exact ⟨rfl, h.noted _⟩

/-- An edit has the same outcome on both sides, as buffers are no matter of the cache. -/
theorem changed (buffer : BufferId) (f : Buffer → Except BufferError Buffer) :
    (changed buffer f t).1 = (changed buffer f s).1 ∧
      Same (changed buffer f s).2 (changed buffer f t).2 := by
  simp only [Foo.changed, h.store.buffer?]
  rcases (s.store.buffer? buffer).map f with _ | _ | b
  · exact ⟨rfl, h⟩
  · exact ⟨rfl, h⟩
  · exact ⟨rfl, h.withStore (h.store.modifyBuffer buffer _)⟩

end Same

end CodeModel.Foo
