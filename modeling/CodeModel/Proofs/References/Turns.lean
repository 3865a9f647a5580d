import CodeModel.Proofs.References.Attended

/-!
# Turns of the books

Clients take and drop references on working copies. Each request is one turn of the books.

* A **request** is to become a working copy, to take one more reference or to drop one. In between,
  anything may happen **outside**: buffers are edited, say, and other owners of theirs come and go.
* An **entry** is a request with its answer and the calls that were made for it.
* `Turn` lists all that a request can come to. As long as the books are **usable**, it comes to nothing
  else (`comes_serve`), however the hooks of the model fail.
-/

namespace CodeModel.References

open Session

/-! ## Requests -/

/-- What is asked of a session with `n` buffers, or happens around it. -/
inductive Request (σ : Type) (n : Nat) where
  /-- To make a file a working copy on a buffer. -/
  | start (file : Handle) (buffer : Fin n) (callback : Option CallbackId) (canceled : Bool)
  /-- One more reference on the working copy of a file. -/
  | acquire (file : Handle)
  /-- To drop a reference on the working copy of a file. -/
  | release (file : Handle)
  /-- Something happens outside. -/
  | outside (action : Action σ Unit)

/-- What is answered. -/
inductive Answer where
  /-- Whether the file was no working copy before, or is none any longer. -/
  | truth (result : Except Error Bool)
  /-- The working copy, if there is one. -/
  | copy (result : Option CopyId)
  /-- Nothing. -/
  | done

/-- A request with what came of it. -/
structure Entry (σ : Type) (n : Nat) where
  /-- The request. -/
  request : Request σ n
  /-- The answer to it. -/
  answer : Answer
  /-- The calls made meanwhile. -/
  calls : List Call

variable {σ : Type} {n : Nat} {k : Minutes σ}

/-- The answer to a request, and the session after it. -/
def serve (m : Model σ) (r : Request σ n) (s : Session σ) : Answer × Session σ :=
  match r with
  | .start file buffer callback canceled =>
    let (result, t) := (startWorkingCopy m canceled file buffer callback).run s
    (.truth result, t)
  | .acquire file =>
    let (result, t) := acquireWorkingCopy m file s
    (.copy result, t)
  | .release file =>
    let (result, t) := (releaseWorkingCopy m file).run s
    (.truth result, t)
  | .outside action => (.done, (action s).2)

/-- Serves a request and takes down what came of it. -/
def perform (m : Model σ) (k : Minutes σ) (r : Request σ n) (s : Session σ) :
    Entry σ n × Session σ :=
  let (answer, t) := serve m r s
  ({ request := r, answer, calls := (k.calls t.world).drop (k.calls s.world).length }, t)

/-- What happens outside leaves the books alone and calls nobody. -/
def Request.Aloof (k : Minutes σ) : Request σ n → Prop
  | .outside action => Action.Aloof k action
  | _ => True

/-! ## Turns -/

/-- Everything that a request can come to. -/
inductive Turn (listeners : Listeners) (b : Books) : Entry σ n → Books → Prop where
  /-- What does not build its own structure is no file. -/
  | notOpenable {file buffer callback canceled error} (h : file.openable = false) :
    Turn listeners b ⟨.start file buffer callback canceled, .truth (.error error), []⟩ b
  /-- The file becomes a working copy. -/
  | started {file buffer callback canceled} (status : Status) (ho : file.openable = true)
    (h : b.copyOf? file = none) :
    Turn listeners b ⟨.start file buffer callback canceled, .truth (.ok true),
      tidings listeners (workingCopyEvent file status)⟩ (b.enrolled file buffer callback .ready)
  /-- The set-up fails. -/
  | refused {file buffer callback canceled error} (ho : file.openable = true)
    (h : b.copyOf? file = none) :
    Turn listeners b ⟨.start file buffer callback canceled, .truth (.error error),
      farewell callback b.copies.length⟩ (b.failed file buffer callback)
  /-- The file is a working copy already. -/
  | joined {file buffer callback canceled id c} (ho : file.openable = true)
    (h : b.copyOf? file = some id) (hc : b.copies[id]? = some c) :
    Turn listeners b ⟨.start file buffer callback canceled, .truth (.ok false), []⟩
      (b.retained id c.buffer)
  /-- The working copy gets one more reference. -/
  | acquired {file id c} (h : b.copyOf? file = some id) (hc : b.copies[id]? = some c) :
    Turn listeners b ⟨.acquire file, .copy (some id), []⟩ (b.retained id c.buffer)
  /-- There is none. -/
  | missed {file} (h : b.copyOf? file = none) : Turn listeners b ⟨.acquire file, .copy none, []⟩ b
  /-- There is none to be released. -/
  | unknown {file error} (h : b.copyOf? file = none) :
    Turn listeners b ⟨.release file, .truth (.error error), []⟩ b
  /-- The working copy has references left. -/
  | kept {file id c} (h : b.copyOf? file = some id) (hc : b.copies[id]? = some c)
    (hrefs : 1 < c.refs) :
    Turn listeners b ⟨.release file, .truth (.ok false), []⟩ (b.released id c.buffer)
  /-- The last reference goes. -/
  | last {file id c} (status : Status) (h : b.copyOf? file = some id) (hc : b.copies[id]? = some c)
    (hrefs : c.refs = 1) :
    Turn listeners b ⟨.release file, .truth (.ok true),
      farewell c.callback id ++ tidings listeners (workingCopyEvent file status)⟩
      ((b.released id c.buffer).ended file id)
  /-- What happens outside is not in the books. -/
  | apart {action} : Turn listeners b ⟨.outside action, .done, []⟩ b

/-- Registered working copies can be used, they and their buffers are referenced, and just their elements are
pinned. It is what a request needs to find for coming to one of the turns. -/
structure Usable (n : Nat) (b : Books) : Prop where
  /-- a registered working copy can be used -/
  registered : ∀ {e id}, b.copyOf? e = some id → ∃ c, b.copies[id]? = some c ∧ c.isReady = true ∧
    c.disposed = false ∧ 0 < c.refs ∧ c.buffer < n ∧ 0 < b.refs c.buffer
  /-- no buffer has fewer references than its other owners hold -/
  refs : ∀ i : Fin n, 0 ≤ b.refs i
  /-- just the registered elements are pinned -/
  pinned : b.pinned = Table.keys b.registry
  /-- all buffers are there -/
  size : b.size = n

theorem Usable.not_pinned {b : Books} {e : Handle} (h : Usable n b) (he : b.copyOf? e = none) :
    HandleSet.contains b.pinned e = false := by
  rw [h.pinned, HandleSet.contains_keys, Books.contains_registry he]

/-! ## Serving requests -/

section Serving

variable {m : Model σ} {s : Session σ} {file : Handle} {buffer : Fin n} {callback : Option CallbackId}
  {canceled : Bool} {id : CopyId} {c : WorkingCopy}

/-- What came of a request: a turn of the books, with its calls taken down. -/
def Comes (k : Minutes σ) (s : Session σ) (r : Request σ n) (result : Answer × Session σ) : Prop :=
  ∃ calls, Turn s.listeners (s.books k) ⟨r, result.1, calls⟩ (result.2.books k) ∧
    result.2.listeners = s.listeners ∧ k.calls result.2.world = k.calls s.world ++ calls

/-- A turn of the books, after which some calls are made. -/
theorem Comes.of_only {r : Request σ n} {answer : Answer} {calls : List Call} {b : Books}
    {t u : Session σ} (hturn : Turn s.listeners (s.books k) ⟨r, answer, calls⟩ b)
    (hbooks : t.books k = b) (hlisteners : t.listeners = s.listeners)
    (hcalls : k.calls t.world = k.calls s.world) (honly : Only k calls t u) :
    Comes k s r (answer, u) := by
  subst hbooks
  exact ⟨calls, honly.books ▸ hturn, honly.listeners.trans hlisteners, hcalls ▸ honly.calls⟩

/-- A turn of the books without any calls. -/
theorem Comes.of_turn {r : Request σ n} {answer : Answer} {b : Books} {store : Store}
    (hturn : Turn s.listeners (s.books k) ⟨r, answer, []⟩ b)
    (hbooks : store.books (k.owned s.world) = b) : Comes k s r (answer, { s with store }) :=
  .of_only (t := { s with store }) hturn hbooks rfl rfl (Only.refl _)

section Comes

variable (hm : m.Attended k) (hu : Usable n (s.books k))

include hm hu

/-- **Becoming a working copy** is a registration that stands or fails with its set-up. The set-up leaves the books
alone either way, so that what is announced or taken back is what was registered. -/
theorem comes_start_of_none (ho : file.openable = true) (h : s.store.copyOf? file = none) :
    Comes k s (.start file buffer callback canceled)
      (serve m (.start file buffer callback canceled) s) := by
  have hbuffer : buffer.1 < s.store.buffers.length := Nat.lt_of_lt_of_eq buffer.2 hu.size.symm
  obtain ⟨t, ht, hbooks⟩ := Store.register_of_books (k.owned s.world) h hbuffer callback
  have hlength : s.store.copies.length = (s.books k).copies.length := by
    simp [Session.books, Store.books]
  rw [hlength] at ht
  have hset := hm.aloof_setUp canceled (s.books k).copies.length file { s with store := t }
  rcases hrun : (setUp m canceled (s.books k).copies.length file).run { s with store := t }
    with ⟨error | _, u⟩ <;> rw [hrun] at hset
  all_goals
    have hubooks : u.books k = (s.books k).enrolled file buffer callback .pending :=
      hset.books.trans hbooks
    have hcalls : k.calls u.world = k.calls s.world := by simpa using hset.calls
  · obtain ⟨w, hw, hwbooks⟩ := Store.withdraw_of_books hubooks h (hu.not_pinned h) (hu.refs buffer)
    have hcopy : (w.books (k.owned u.world)).copies[(s.books k).copies.length]? =
        some { element := file, buffer, callback, init := .failed, disposed := true } := by
      simp [hwbooks, Books.failed]
    have hend := hm.only_announce (s := { u with store := w }) hcopy
    simp only [serve, run_startWorkingCopy_of_new ho ht, hrun, hw]
    exact .of_only (t := { u with store := w }) (.refused ho h) hwbooks hset.listeners hcalls hend
  · let v : Session σ :=
      { u with store := u.store.modifyCopy (s.books k).copies.length fun c => { c with init := .ready } }
    have hready : v.books k = (s.books k).enrolled file buffer callback .ready := by
      have hmodify : v.books k = { u.books k with
          copies := (u.books k).copies.modify (s.books k).copies.length fun c =>
            { c with init := .ready } } := Store.books_modifyCopy fun _ _ => rfl
      rw [hmodify, hubooks]
      simp [Books.enrolled, Store.modify_concat]
    have hlisteners : v.listeners = s.listeners := hset.listeners
    have hfire : ∀ event, Only k (tidings s.listeners event) v (fire m event v).2 :=
      fun event => hlisteners ▸ hm.only_fire event v
    simp only [serve, run_startWorkingCopy_of_new ho ht, hrun]
    exact .of_only (.started _ ho h) hready hlisteners hcalls (hfire _)

omit hm in
/-- A file that is a working copy gets one more reference, and no other trace is left of the request: its buffer and
its callback are ignored. -/
theorem comes_start_of_some (ho : file.openable = true) (h : s.store.copyOf? file = some id) :
    Comes k s (.start file buffer callback canceled)
      (serve m (.start file buffer callback canceled) s) := by
  obtain ⟨c, hc, hready, -, -, hlt, -⟩ := hu.registered h
  obtain ⟨c', hc', rfl⟩ := Store.exists_of_books hc
  have hbuffer : c'.buffer < s.store.buffers.length := Nat.lt_of_lt_of_eq hlt hu.size.symm
  rw [serve, run_startWorkingCopy_of_ready ho h hc' hready]
  exact .of_turn (.joined ho h hc) (Store.books_retainCopy hc hbuffer)

omit hm in
theorem comes_acquire (file : Handle) :
    Comes k s (.acquire (n := n) file) (serve m (.acquire (n := n) file) s) := by
  rcases h : s.store.copyOf? file with _ | id
  · rw [serve, run_acquireWorkingCopy_of_none h]
    exact .of_turn (.missed h) rfl
  · obtain ⟨c, hc, hready, -, -, hlt, -⟩ := hu.registered h
    obtain ⟨c', hc', rfl⟩ := Store.exists_of_books hc
    have hbuffer : c'.buffer < s.store.buffers.length := Nat.lt_of_lt_of_eq hlt hu.size.symm
    rw [serve, run_acquireWorkingCopy_of_ready h hc' hready]
    exact .of_turn (.acquired h hc) (Store.books_retainCopy hc hbuffer)

/-- **Releasing** drops a reference, and with the last one the end of the working copy is told. -/
theorem comes_release (file : Handle) :
    Comes k s (.release (n := n) file) (serve m (.release (n := n) file) s) := by
  rcases h : s.store.copyOf? file with _ | id
  · have hrelease : s.store.release file = (.error (.illegalState (.notWorkingCopy file)), s.store) := by
      rw [Store.release, h]
    simp only [serve, run_releaseWorkingCopy, hrelease]
    exact .of_turn (.unknown h) rfl
  · obtain ⟨c, hc, -, hlive, hpos, -, hbuffer⟩ := hu.registered h
    by_cases hrefs : c.refs = 1
    · obtain ⟨t, ht, hbooks⟩ := Store.release_last_of_books h hc hrefs hlive hbuffer
      have hcopy : (t.books (k.owned s.world)).copies[id]? =
          some { c with refs := 0, disposed := true } := by
        rw [hbooks, ← Session.books]
        simp [Books.ended, Books.released, hc, hrefs]
      have hend := hm.only_announce (s := { s with store := t }) hcopy
      have hfire : ∀ event, Only k (tidings s.listeners event) _ (fire m event _).2 :=
        fun event => hend.listeners ▸ hm.only_fire event (announce m (.last id true) { s with store := t }).2
      simp only [serve, run_releaseWorkingCopy, ht]
      exact .of_only (t := { s with store := t }) (.last (c := c) _ h hc hrefs) hbooks rfl rfl
        (hend.trans (hfire _))
    · obtain ⟨t, ht, hbooks⟩ := Store.release_kept_of_books h hc (by omega) hbuffer
      simp only [serve, run_releaseWorkingCopy, ht]
      exact .of_turn (.kept h hc (by omega)) hbooks

/-- **Every request** comes to a turn of the books, however the hooks of the model fail. The requests are looked at
one by one; what hooks do in between leaves the books alone, as the model is attended. -/
theorem comes_serve {r : Request σ n} (hr : r.Aloof k) : Comes k s r (serve m r s) := by
  cases r with
  | start file buffer callback canceled =>
    by_cases ho : file.openable = true
    · rcases h : s.store.copyOf? file with _ | id
      · exact comes_start_of_none hm hu ho h
      · exact comes_start_of_some hu ho h
    · have ho : file.openable = false := by simpa using ho
      rw [serve, run_startWorkingCopy_of_not_openable ho]
      exact .of_turn (.notOpenable ho) rfl
  | acquire file => exact comes_acquire hu file
  | release file => exact comes_release hm hu file
  | outside action => exact .of_only .apart rfl rfl rfl (hr s)

end Comes

end Serving

end CodeModel.References
