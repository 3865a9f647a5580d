import CodeModel.Proofs.Store.Commit

/-!
# The books of a store

What a store knows about references: which elements are registered as working copies, how often each
working copy and each buffer is referenced, and which elements are pinned. Buffers may have other owners
than working copies; their references are told apart.

* Commits and drafts **leave the books alone** (`books_commit`, `books_popDraft`).
* Every operation on working copies **does to the books** what it does to the store; the versions that
  structures were built from, and all bodies, are not in them.
-/

namespace CodeModel

/-- The working copy, whatever version of its buffer its structure was built from. Reconciles change the version and
nothing else that has to do with references. -/
def WorkingCopy.undated (c : WorkingCopy) : WorkingCopy := { c with reconciled := none }

/-- What there is to know about references. Proofs about counting look at books instead of stores, so that caches,
drafts and texts are out of sight from the start. -/
structure Books where
  /-- The working copies in force. -/
  registry : Table CopyId
  /-- All working copies there have been, by number. -/
  copies : List WorkingCopy
  /-- How many references there are on a buffer, those of its other owners left aside. -/
  refs : BufferId → Int
  /-- The number of buffers. -/
  size : Nat
  /-- The elements protected from eviction. -/
  pinned : HandleSet

namespace Books

/-- The working copy registered for an element. -/
def copyOf? (b : Books) (e : Handle) : Option CopyId := Table.get? b.registry e

/-- A number of references more on a buffer. -/
def charge (refs : BufferId → Int) (i : BufferId) (d : Int) : BufferId → Int :=
  fun j => if i = j then refs j + d else refs j

/-- One more reference on a working copy and on its buffer. -/
def retained (b : Books) (id : CopyId) (buffer : BufferId) : Books :=
  { b with copies := b.copies.modify id WorkingCopy.retain, refs := charge b.refs buffer 1 }

/-- One reference less on a working copy and on its buffer. -/
def released (b : Books) (id : CopyId) (buffer : BufferId) : Books :=
  { b with
    copies := b.copies.modify id fun c => { c with refs := c.refs - 1 }
    refs := charge b.refs buffer (-1) }

/-- A new working copy. -/
def enrolled (b : Books) (e : Handle) (buffer : BufferId) (callback : Option CallbackId)
    (init : InitState) : Books :=
  { b with
    registry := Table.insert b.registry e b.copies.length
    copies := b.copies ++ [{ element := e, buffer, callback, refs := 1, init }]
    refs := charge b.refs buffer 1
    pinned := HandleSet.insert b.pinned e }

/-- A new working copy whose set-up failed. -/
def failed (b : Books) (e : Handle) (buffer : BufferId) (callback : Option CallbackId) : Books :=
  { b with
    copies := b.copies ++ [{ element := e, buffer, callback, init := .failed, disposed := true }] }

/-- The working copy of an element has come to its end. -/
def ended (b : Books) (e : Handle) (id : CopyId) : Books :=
  { b with
    registry := Table.erase b.registry e
    copies := b.copies.modify id fun c => { c with disposed := true }
    pinned := HandleSet.erase b.pinned e }

theorem contains_registry {b : Books} {e : Handle} (h : b.copyOf? e = none) :
    Table.contains b.registry e = false := by
  rw [Table.contains, ← copyOf?, h, Option.isSome_none]

end Books

namespace Store

variable {owned : BufferId → Nat} {s : Store} {e : Handle} {copy : CopyId} {c : WorkingCopy}

/-- The books of a store, if the other owners of a buffer hold `owned` references on it. -/
def books (owned : BufferId → Nat) (s : Store) : Books :=
  { registry := s.registry
    copies := s.copies.map WorkingCopy.undated
    refs := fun i => ((s.buffer? i).elim 0 Buffer.refs : Nat) - owned i
    size := s.buffers.length
    pinned := s.cache.pinned }

/-- What the books say of a working copy holds of it, apart from the version that it was last built from, which they
do not keep. -/
theorem exists_of_books (h : (s.books owned).copies[copy]? = some c) :
    ∃ c', s.copy? copy = some c' ∧ c'.undated = c := by
  simpa [books, copy?] using h

/-! ## What leaves the books alone -/

theorem pinned_dropDependents (c : Cache) (evicted : Evicted) :
    (dropDependents c evicted).pinned = c.pinned := by
  rw [dropDependents]
  induction evicted generalizing c with
  | nil => rfl
  | cons p evicted ih =>
    rw [List.foldl_cons, ih]
    split
    · rw [dropOwned, Cache.foldl_erase_eq]
    · rfl

theorem pinned_commit (s : Store) (e : Handle) (bodies : Table Body) :
    (s.commit e bodies).2.cache.pinned = s.cache.pinned := by
  simp only [commit, afterEviction, pinned_dropDependents, Cache.insertAll_eq, Cache.pinned_trim,
    Cache.pinned_storeAll, Cache.foldl_erase_eq]

/-- **A commit** leaves the books alone: it is about bodies, and an overflow that it causes changes neither pins nor
registrations. -/
theorem books_commit (owned : BufferId → Nat) (s : Store) (e : Handle) (bodies : Table Body) :
    (s.commit e bodies).2.books owned = s.books owned :=
  congrArg (fun pinned => { s.books owned with pinned }) (pinned_commit s e bodies)

theorem books_popDraft (owned : BufferId → Nat) (s : Store) :
    s.popDraft.2.books owned = s.books owned := by
  rw [popDraft]
  split <;> rfl

/-! ## Changes of one working copy or one buffer -/

theorem map_modify {α β : Type} {f : α → β} {g : α → α} {g' : β → β} {l : List α} {i : Nat}
    (h : ∀ a, l[i]? = some a → f (g a) = g' (f a)) : (l.modify i g).map f = (l.map f).modify i g' := by
  refine List.ext_getElem? fun j => ?_
  by_cases hij : i = j
  · subst hij
    rcases ha : l[i]? with _ | a
    · simp [ha]
    · simp [ha, h a ha]
  · simp [hij]

theorem modify_concat {α : Type} (l : List α) (a : α) (f : α → α) :
    (l ++ [a]).modify l.length f = l ++ [f a] := by
  induction l with
  | nil => rfl
  | cons b l ih => simp [ih]

theorem copy?_modifyCopy_self (h : s.copy? copy = some c) (f : WorkingCopy → WorkingCopy) :
    (s.modifyCopy copy f).copy? copy = some (f c) := by
  rw [copy?] at h
  simp [modifyCopy, copy?, h]

/-- A working copy that is retained has one reference more. -/
theorem copy?_retainCopy_self (h : s.copy? copy = some c) :
    (s.retainCopy copy).copy? copy = some c.retain := by
  simp only [retainCopy, h]
  exact copy?_modifyCopy_self (s := s.retainBuffer c.buffer) h _

/-- A working copy that can be used still can with one more reference. -/
theorem isReady_retainCopy (h : s.copy? copy = some c) (hready : c.isReady = true) :
    ((s.retainCopy copy).copy? copy).any WorkingCopy.isReady = true := by
  rw [copy?_retainCopy_self h]
  exact hready

/-- What is done to a working copy is done to it in the books, as far as the books can tell the difference. -/
theorem books_modifyCopy {f g : WorkingCopy → WorkingCopy}
    (h : ∀ c, s.copy? copy = some c → (f c).undated = g c.undated) :
    (s.modifyCopy copy f).books owned =
      { s.books owned with copies := (s.books owned).copies.modify copy g } :=
  congrArg (fun copies => { s.books owned with copies }) (map_modify h)

/-- The version that a structure was built from is not in the books. -/
theorem books_dated (owned : BufferId → Nat) (s : Store) (copy : CopyId) (version : Option Nat) :
    (s.modifyCopy copy fun c => { c with reconciled := version }).books owned = s.books owned := by
  have hsame : (s.modifyCopy copy fun c => { c with reconciled := version }).books owned =
      { s.books owned with copies := (s.books owned).copies.modify copy id } :=
    books_modifyCopy fun _ _ => rfl
  rw [hsame, List.modify_id]

/-- What is done to the references on a buffer is done to them in the books. -/
theorem books_modifyBuffer {f : Buffer → Buffer} {b : Buffer} {i : BufferId} {d : Int}
    (hb : s.buffer? i = some b) (h : ((f b).refs : Int) = b.refs + d) :
    (s.modifyBuffer i f).books owned =
      { s.books owned with refs := Books.charge (s.books owned).refs i d } := by
  have hrefs : ((s.modifyBuffer i f).books owned).refs = Books.charge (s.books owned).refs i d := by
    funext j
    rw [buffer?] at hb
    by_cases hij : i = j
    · subst hij
      simp [books, Books.charge, modifyBuffer, buffer?, hb, h]
      omega
    · simp [books, Books.charge, modifyBuffer, buffer?, hij]
  have hsize : (s.buffers.modify i f).length = s.buffers.length := List.length_modify ..
  exact congrArg₂ (fun refs size => { s.books owned with refs, size }) hrefs hsize

/-- One more owner of a buffer is one more reference in the books. -/
theorem books_retainBuffer {i : BufferId} (owned : BufferId → Nat) (h : i < s.buffers.length) :
    (s.retainBuffer i).books owned =
      { s.books owned with refs := Books.charge (s.books owned).refs i 1 } :=
  books_modifyBuffer (List.getElem?_eq_getElem h) rfl

/-- A buffer that is referenced, and not by other owners alone, drops a reference. -/
theorem releaseBuffer_of_books {i : BufferId} (h : 0 < (s.books owned).refs i) :
    ∃ t, s.releaseBuffer i = (.ok (), t) ∧
      t.books owned = { s.books owned with refs := Books.charge (s.books owned).refs i (-1) } := by
  rcases hb : s.buffer? i with _ | b
  · simp only [books, hb, Option.elim_none] at h
    omega
  · simp only [books, hb, Option.elim_some] at h
    obtain ⟨r, hr⟩ : ∃ r, b.refs = r + 1 := ⟨b.refs - 1, by omega⟩
    have hrelease : (s.buffer? i).map Buffer.release = some (.ok { b with refs := r }) := by
      rw [hb, Option.map_some, Buffer.release, hr]
    refine ⟨_, by rw [releaseBuffer, hrelease], books_modifyBuffer hb ?_⟩
    simp only [hr]
    omega

/-! ## References -/

/-- One more reference on a working copy is one on its buffer as well. -/
theorem books_retainCopy (h : (s.books owned).copies[copy]? = some c)
    (hbuffer : c.buffer < s.buffers.length) :
    (s.retainCopy copy).books owned = (s.books owned).retained copy c.buffer := by
  obtain ⟨c', hc', rfl⟩ := exists_of_books h
  have hretain := books_retainBuffer owned hbuffer
  rw [retainCopy, hc', books_modifyCopy (g := WorkingCopy.retain) fun _ _ => rfl]
  have hundated : c'.undated.buffer = c'.buffer := rfl
  rw [hundated] at hretain ⊢
  rw [hretain]
  rfl

/-- A working copy that is referenced, as its buffer is, drops a reference. -/
theorem releaseCopy_of_books {k : Nat} (h : (s.books owned).copies[copy]? = some c)
    (hrefs : c.refs = k + 1) (hbuffer : 0 < (s.books owned).refs c.buffer) :
    ∃ t, s.releaseCopy copy = (.ok k, t) ∧
      t.books owned = (s.books owned).released copy c.buffer := by
  obtain ⟨c', hc', rfl⟩ := exists_of_books h
  have hk : c'.refs = k + 1 := hrefs
  have hcopies : (s.modifyCopy copy fun c => { c with refs := k }).books owned =
      { s.books owned with
        copies := (s.books owned).copies.modify copy fun c => { c with refs := c.refs - 1 } } := by
    refine books_modifyCopy fun c hc => ?_
    cases hc'.symm.trans hc
    simp [WorkingCopy.undated, hk]
  have hpos : 0 < ((s.modifyCopy copy fun c => { c with refs := k }).books owned).refs c'.buffer :=
    hbuffer
  obtain ⟨t, ht, hbooks⟩ := releaseBuffer_of_books hpos
  refine ⟨t, ?_, ?_⟩
  · simp only [releaseCopy, hc', hk, ht]
    rfl
  · rw [hbooks, hcopies]
    rfl

/-- A working copy that is at its end is marked so, and nothing else changes. -/
theorem disposeCopy_of_books (h : (s.books owned).copies[copy]? = some c)
    (hlive : c.disposed = false) :
    ∃ t, s.disposeCopy copy = (true, t) ∧ t.books owned =
      { s.books owned with
        copies := (s.books owned).copies.modify copy fun c => { c with disposed := true } } := by
  obtain ⟨c', hc', rfl⟩ := exists_of_books h
  have hlive' : c'.disposed = false := hlive
  refine ⟨s.modifyCopy copy fun c => { c with disposed := true }, ?_, books_modifyCopy fun _ _ => rfl⟩
  simp [disposeCopy, hc', hlive']

/-! ## Registrations -/

/-- An element that is not registered gets a new working copy. -/
theorem register_of_books {buffer : BufferId} (owned : BufferId → Nat) (h : s.copyOf? e = none)
    (hbuffer : buffer < s.buffers.length) (callback : Option CallbackId) :
    ∃ t, s.register e buffer callback = (s.copies.length, true, t) ∧
      t.books owned = (s.books owned).enrolled e buffer callback .pending := by
  refine ⟨{ s.retainBuffer buffer with
    copies := s.copies ++ [{ element := e, buffer, callback, refs := 1 }]
    registry := Table.insert s.registry e s.copies.length
    cache := s.cache.pin e }, ?_, ?_⟩
  · simp [register, h, retainCopy, copy?, retainBuffer, modifyBuffer, modifyCopy, modify_concat,
      WorkingCopy.retain]
  · calc
      _ = { (s.retainBuffer buffer).books owned with
            registry := Table.insert s.registry e s.copies.length
            copies := s.copies.map WorkingCopy.undated ++
              [{ element := e, buffer, callback, refs := 1 }]
            pinned := HandleSet.insert s.cache.pinned e } := by
        simp [books, Cache.pin, buffer?, WorkingCopy.undated]
      _ = (s.books owned).enrolled e buffer callback .pending := by
        rw [books_retainBuffer owned hbuffer]
        simp [Books.enrolled, books]

/-- Taking an element out of the registry takes its pin out with it, so that the two never disagree. -/
theorem books_unregister (owned : BufferId → Nat) (s : Store) (e : Handle) :
    (s.unregister e).books owned =
      { s.books owned with
        registry := Table.erase (s.books owned).registry e
        pinned := HandleSet.erase (s.books owned).pinned e } := by
  have hpinned := pinned_eraseTree
    { s with registry := Table.erase s.registry e, cache := s.cache.unpin e } e
  exact congrArg (fun pinned => { s.books owned with registry := Table.erase s.registry e, pinned }) hpinned

/-- A working copy with more than one reference stays when one is dropped. -/
theorem release_kept_of_books (h : s.copyOf? e = some copy)
    (hc : (s.books owned).copies[copy]? = some c) (hrefs : 1 < c.refs)
    (hbuffer : 0 < (s.books owned).refs c.buffer) :
    ∃ t, s.release e = (.ok .kept, t) ∧ t.books owned = (s.books owned).released copy c.buffer := by
  obtain ⟨k, hk⟩ : ∃ k, c.refs = k + 1 + 1 := ⟨c.refs - 2, by omega⟩
  obtain ⟨t, ht, hbooks⟩ := releaseCopy_of_books hc hk hbuffer
  exact ⟨t, by simp only [release, h, ht], hbooks⟩

/-- **With its last reference** a working copy comes to its end: the reference goes, and the element loses its
registration and its pin. -/
theorem release_last_of_books (h : s.copyOf? e = some copy)
    (hc : (s.books owned).copies[copy]? = some c) (hrefs : c.refs = 1) (hlive : c.disposed = false)
    (hbuffer : 0 < (s.books owned).refs c.buffer) :
    ∃ t, s.release e = (.ok (.last copy true), t) ∧
      t.books owned = ((s.books owned).released copy c.buffer).ended e copy := by
  obtain ⟨t, ht, hbooks⟩ := releaseCopy_of_books hc hrefs hbuffer
  have hcopy : ((t.unregister e).books owned).copies[copy]? = some { c with refs := 0 } := by
    simp [books_unregister, hbooks, Books.released, hc, hrefs]
  obtain ⟨u, hu, hubooks⟩ := disposeCopy_of_books hcopy hlive
  refine ⟨u, by simp only [release, h, ht, hu], ?_⟩
  rw [hubooks, books_unregister, hbooks]
  rfl

section Withdrawal

variable {b : Books} {buffer : BufferId} {callback : Option CallbackId}
  (hs : s.books owned = b.enrolled e buffer callback .pending)

include hs

/-- A working copy that is still set up is the one in force. -/
theorem discard_of_books : s.discard b.copies.length = s.unregister e := by
  have hcopy : (s.books owned).copies[b.copies.length]? =
      some { element := e, buffer, callback, refs := 1 } := by simp [hs, Books.enrolled]
  obtain ⟨c, hc, hundated⟩ := exists_of_books hcopy
  have hel : c.element = e := congrArg WorkingCopy.element hundated
  have hregistry : s.registry = Table.insert b.registry e b.copies.length :=
    congrArg Books.registry hs
  have hid : s.copyOf? e = some b.copies.length := by
    rw [copyOf?, hregistry, Table.get?_insert_self]
  simp [discard, hc, isInForce, hel, hid]

theorem books_discard (hnone : b.copyOf? e = none)
    (hpinned : HandleSet.contains b.pinned e = false) :
    ((s.discard b.copies.length).modifyCopy b.copies.length fun c =>
        { c with init := .failed }).books owned =
      { b with
        copies := b.copies ++ [{ element := e, buffer, callback, refs := 1, init := .failed }]
        refs := Books.charge b.refs buffer 1 } := by
  have hregistry : Table.erase (Table.insert b.registry e b.copies.length) e = b.registry :=
    Table.erase_insert_of_get?_eq_none hnone
  rw [discard_of_books hs, books_modifyCopy (g := fun c => { c with init := .failed }) fun _ _ => rfl,
    books_unregister, hs]
  simp [Books.enrolled, modify_concat, hregistry, HandleSet.erase_insert_of_not_contains hpinned]

/-- A working copy whose set-up **failed** leaves nothing behind but its number: its registration and its pin are
taken back, and so is its reference on the buffer. -/
theorem withdraw_of_books (hnone : b.copyOf? e = none)
    (hpinned : HandleSet.contains b.pinned e = false) (hbuffer : 0 ≤ b.refs buffer) :
    ∃ t, ((s.discard b.copies.length).modifyCopy b.copies.length fun c =>
        { c with init := .failed }).releaseStray b.copies.length =
          (.ok (.last b.copies.length true), t) ∧
      t.books owned = b.failed e buffer callback := by
  generalize hw : ((s.discard b.copies.length).modifyCopy b.copies.length fun c =>
    { c with init := .failed }) = w
  have hbooks := books_discard hs hnone hpinned
  rw [hw] at hbooks
  have hcopy : (w.books owned).copies[b.copies.length]? =
      some { element := e, buffer, callback, refs := 1, init := .failed } := by simp [hbooks]
  have hrefs : 0 < (w.books owned).refs buffer := by
    simp only [hbooks, Books.charge, if_true]
    omega
  obtain ⟨t, ht, htbooks⟩ := releaseCopy_of_books hcopy rfl hrefs
  have hlast : (t.books owned).copies[b.copies.length]? =
      some { element := e, buffer, callback, init := .failed } := by
    simp [htbooks, hbooks, Books.released]
  obtain ⟨u, hu, hubooks⟩ := disposeCopy_of_books hlast rfl
  have hback : Books.charge (Books.charge b.refs buffer 1) buffer (-1) = b.refs := by
    funext j
    simp only [Books.charge]
    split <;> omega
  refine ⟨u, by simp only [releaseStray, ht, hu], ?_⟩
  rw [hubooks, htbooks, hbooks]
  simp only [Books.released, Books.failed, modify_concat, hback]

end Withdrawal

end Store

end CodeModel
