import CodeModel.Proofs.Foo.Building
import CodeModel.Proofs.Session.Requests

/-!
# Working copies at the desk

What the life of a working copy comes to in a session at a desk, as equations between runs.

* Events and calls are **notices** at the desk; they change nothing else (`run_fire`, `run_announce`).
* Becoming a working copy is an **enrolment** in the store, a set-up, and either a launch or a withdrawal
  (`run_startWorkingCopy_new`).
* A reconcile is nothing at all, or a **commit** of the present text with a report of the differences that
  it makes (`run_reconcile`, `run_rebuild`).
-/

namespace CodeModel.Foo

open Session

variable {p : Project} {refusal : Refusal} {s t : Session Desk} {e f x : Handle} {canceled : Bool}
  {id : CopyId}

/-! ## Notices -/

/-- The session after some notices. -/
def noted (s : Session Desk) (notices : List Notice) : Session Desk :=
  { s with world := { s.world with notices := s.world.notices ++ notices } }

@[simp] theorem noted_nil (s : Session Desk) : noted s [] = s := by
  simp [noted]

theorem noted_noted (s : Session Desk) (l m : List Notice) : noted (noted s l) m = noted s (l ++ m) := by
  simp [noted]

/-- The notices of an event: one to each listener that is registered for it. -/
def eventNotices (s : Session Desk) (event : Event) : List Notice :=
  (s.listeners.receivers event.kind).map (Notice.event · event)

/-- Listeners that are told in turn give one notice each, and do nothing else. -/
theorem run_forM_onEvent (event : Event) (receivers : List ListenerId) (s : Session Desk) :
    (receivers.forM fun l => (p.hosted refusal).onEvent l event : Action Desk Unit) s =
      ((), noted s (receivers.map (Notice.event · event))) := by
  induction receivers generalizing s with
  | nil => rw [List.map_nil, noted_nil]; rfl
  | cons l receivers ih =>
    refine (ih (noted s [.event l event])).trans ?_
    rw [noted_noted]
    rfl

/-- **An event at the desk** is a notice to each of its receivers. Listeners of a desk take notes only, so what they
are told cannot change the session. -/
theorem run_fire (event : Event) (s : Session Desk) :
    (fire (p.hosted refusal) event : Action Desk Unit) s = ((), noted s (eventNotices s event)) :=
  run_forM_onEvent event _ s

theorem run_lift_fire (event : Event) (s : Session Desk) :
    (liftM (fire (p.hosted refusal) event : Action Desk Unit) : Op Desk Unit).run s =
      (.ok (), noted s (eventNotices s event)) :=
  congrArg (fun r : Unit × Session Desk => (Except.ok r.1, r.2)) (run_fire event s)

/-- The notice of the end of a working copy, if it is to be given. -/
def endNotices (s : Store) : Store.Release → List Notice
  | .last id true =>
    match (s.copy? id).bind WorkingCopy.callback with
    | some callback => [.disposed callback id]
    | none => []
  | _ => []

/-- The end of a working copy is a notice to its callback, if it has one and has not been told before. -/
theorem run_announce (r : Store.Release) (s : Session Desk) :
    (announce (p.hosted refusal) r : Action Desk Unit) s = ((), noted s (endNotices s.store r)) := by
  rcases r with _ | ⟨id, _ | _⟩
  · exact congrArg (Prod.mk ()) (noted_nil s).symm
  · exact congrArg (Prod.mk ()) (noted_nil s).symm
  · rw [announce, run_withCallback, endNotices]
    rcases (s.store.copy? id).bind WorkingCopy.callback with _ | callback
    · rw [noted_nil]
    · rfl

/-- Whether an element is valid is whether it has its resource. This may change at any time between two requests, as
files do. -/
theorem isOk_validate (w : Desk) (e : Handle) :
    ((p.hosted refusal).validate w e).isOk = p.hasResource w.files e := by
  have hvalidate : (p.hosted refusal).validate w e =
      if p.hasResource w.files e then .ok () else .error (.doesNotExist e) := rfl
  rw [hvalidate]
  by_cases hres : p.hasResource w.files e = true <;> simp [hres, Except.isOk, Except.toBool]

/-- The notice of a reconcile to the callback of the working copy. -/
def reconcileNotices (s : Store) (id : CopyId) (delta : Delta) : List Notice :=
  match (s.copy? id).bind WorkingCopy.callback with
  | some callback => [.reconciled callback id delta]
  | none => []

/-- A callback that is told of differences takes a note. It does nothing else, so the session stays as it is apart
from the note. -/
theorem run_withCallback_onReconcile (id : CopyId) (delta : Delta) (s : Session Desk) :
    (withCallback id fun callback => (p.hosted refusal).onReconcile callback id delta :
      Action Desk Unit) s = ((), noted s (reconcileNotices s.store id delta)) := by
  rw [run_withCallback, reconcileNotices]
  rcases (s.store.copy? id).bind WorkingCopy.callback with _ | callback
  · rw [noted_nil]
  · rfl

/-! ## Becoming a working copy -/

/-- The store after what was built for a working copy of `e` from a version of its buffer was committed. -/
def renewed (s : Store) (id : CopyId) (e : Handle) (bodies : Table Body) (version : Nat) : Store :=
  (s.commit e bodies).2.modifyCopy id fun c => { c with reconciled := some version }

/-- The working copy knows the version it was built from, and is else as it was. -/
theorem copy?_renewed {s : Store} {c : WorkingCopy} (h : s.copy? id = some c) (e : Handle)
    (bodies : Table Body) (version : Nat) :
    (renewed s id e bodies version).copy? id = some { c with reconciled := some version } :=
  Store.copy?_modifyCopy_self (s := (s.commit e bodies).2) h _

/-- The session with that store. -/
def structured (id : CopyId) (e : Handle) (bodies : Table Body) (version : Nat) (s : Session Desk) :
    Session Desk := withStore s (renewed s.store id e bodies version)

/-- What the callback of a working copy says to its first structure. -/
def consented (refusal : Refusal) (id : CopyId) (callback : Option CallbackId) (s : Session Desk) :
    Except Error Unit × Session Desk :=
  match callback with
  | none => (.ok (), s)
  | some callback =>
    (match refusal s.world callback id with
      | some error => .error error
      | none => .ok (),
     noted s [.started callback id])

/-- **The set-up** of a working copy builds its structure from the text that its buffer has, commits it and asks the
callback. A structure without a body for the element itself counts as none. -/
theorem run_setUp {c : WorkingCopy} {b : Buffer} (hc : s.store.copy? id = some c)
    (hb : s.store.buffer? c.buffer = some b) :
    (setUp (p.hosted refusal) canceled id e).run s =
      match p.made s.world.files canceled e (some b.snapshot) with
      | .error error => (.error error, s)
      | .ok bodies =>
        if Table.contains bodies e then
          consented refusal id c.callback (structured id e bodies b.version s)
        else (.error (.doesNotExist e), s) := by
  have hsnapshot : ((s.store.copy? id).bind fun c => (s.store.buffer? c.buffer).map Buffer.snapshot) =
      some b.snapshot := by
    rw [hc, Option.bind_some, hb]
    rfl
  simp only [setUp, Op.run_bind, run_ask, hsnapshot, run_buildBodies]
  rcases p.made s.world.files canceled e (some b.snapshot) with error | bodies
  · rfl
  · by_cases hcontains : Table.contains bodies e = true
    · -- the callback is looked up after the commit, which leaves it alone
      have hcopy : (structured id e bodies b.version s).store.copy? id =
          some { c with reconciled := some b.version } := copy?_renewed hc e bodies b.version
      have hrest : ((ask fun x : Store => x.copy? id) >>= fun c : Option WorkingCopy =>
            match c.bind WorkingCopy.callback with
            | some callback => (p.hosted refusal).onInit callback id
            | none => pure () : Op Desk Unit).run (structured id e bodies b.version s) =
          consented refusal id c.callback (structured id e bodies b.version s) := by
        rw [Op.run_bind, run_ask, hcopy]
        rcases c.callback with _ | callback <;> rfl
      simp only [hcontains, Op.run_bind, run_lift_evicting, Bool.not_true, Bool.false_eq_true,
        if_false, run_modifyStore, if_true]
      exact hrest
    · simp only [hcontains]
      rfl

/-- The store with a new working copy of `e`, which is still without a structure. -/
def enrolled (s : Store) (e : Handle) (buffer : BufferId) (callback : Option CallbackId) : Store :=
  { s with
    copies := s.copies ++ [{ element := e, buffer, callback, refs := 1 }]
    buffers := s.buffers.modify buffer Buffer.retain
    registry := Table.insert s.registry e s.copies.length
    cache := s.cache.pin e }

/-- A new working copy comes last and has one reference. -/
theorem copy?_enrolled (s : Store) (e : Handle) (buffer : BufferId) (callback : Option CallbackId) :
    (enrolled s e buffer callback).copy? s.copies.length =
      some { element := e, buffer, callback, refs := 1 } := by
  simp [enrolled, Store.copy?]

/-- Registering an element that is no working copy is an enrolment. -/
theorem register_of_none {s : Store} (h : s.copyOf? e = none) (buffer : BufferId)
    (callback : Option CallbackId) :
    s.register e buffer callback = (s.copies.length, true, enrolled s e buffer callback) := by
  simp [Store.register, h, Store.retainCopy, Store.copy?, Store.retainBuffer, Store.modifyBuffer,
    Store.modifyCopy, enrolled, Store.modify_concat, WorkingCopy.retain]

/-- What is left of a working copy that could not be set up: its registration is taken back. If the buffer refuses
the release, its error takes the place of the one that the set-up ended with. -/
def withdrawn (id : CopyId) (error : Error) (s : Session Desk) : Except Error Bool × Session Desk :=
  match ((s.store.discard id).modifyCopy id fun c => { c with init := .failed }).releaseStray id with
  | (.error cause, store) => (.error cause, withStore s store)
  | (.ok r, store) => (.error error, noted (withStore s store) (endNotices store r))

/-- The event that a file becomes a working copy; it may have been there before. -/
def startEvent (e : Handle) (existed : Bool) : Event :=
  workingCopyEvent e (if existed then .changed else .added)

/-- A working copy that can be used from now on. -/
def launched (id : CopyId) (event : Event) (s : Session Desk) : Session Desk :=
  noted (withStore s (s.store.modifyCopy id fun c => { c with init := .ready })) (eventNotices s event)

/-- **Becoming** a working copy: the set-up runs, and its outcome stands or is taken back. Whether the element was
there before is looked up first, as the event at the end tells of it. -/
theorem run_startWorkingCopy_new {buffer : BufferId} {callback : Option CallbackId}
    (ho : e.openable = true) (h : s.store.copyOf? e = none) :
    (startWorkingCopy (p.hosted refusal) canceled e buffer callback).run s =
      match (setUp (p.hosted refusal) canceled s.store.copies.length e).run
          (withStore s (enrolled s.store e buffer callback)) with
      | (.ok (), t) =>
        (.ok true, launched s.store.copies.length
          (startEvent e (s.store.isCached e || p.hasResource s.world.files e)) t)
      | (.error error, t) => withdrawn s.store.copies.length error t := by
  rw [run_startWorkingCopy_of_new ho (register_of_none h buffer callback), withStore]
  rcases (setUp (p.hosted refusal) canceled s.store.copies.length e).run
    { s with store := enrolled s.store e buffer callback } with ⟨error | _, t⟩
  · simp only [withdrawn, run_announce]
    rfl
  · simp only [run_fire, isOk_validate]
    rfl

/-- A file that is a working copy gets one more reference, and nothing is built. -/
theorem run_startWorkingCopy_again {c : WorkingCopy} {buffer : BufferId}
    {callback : Option CallbackId} (ho : e.openable = true) (h : s.store.copyOf? e = some id)
    (hc : s.store.copy? id = some c) (hready : c.isReady = true) :
    (startWorkingCopy (p.hosted refusal) canceled e buffer callback).run s =
      (.ok false, withStore s (s.store.retainCopy id)) :=
  run_startWorkingCopy_of_ready ho h hc hready

/-! ## References -/

/-- The event that a file ceases to be a working copy; it may remain without it. -/
def endEvent (e : Handle) (remains : Bool) : Event :=
  workingCopyEvent e (if remains then .changed else .removed)

/-- **Releasing** a working copy: with the last reference its end is announced. What the buffer refuses comes back
as the error, with the store as the release left it. -/
theorem run_releaseWorkingCopy :
    (releaseWorkingCopy (p.hosted refusal) e).run s =
      match s.store.release e with
      | (.error error, store) => (.error error, withStore s store)
      | (.ok .kept, store) => (.ok false, withStore s store)
      | (.ok (.last id news), store) =>
        (.ok true, noted (withStore s store) (endNotices store (.last id news) ++
          eventNotices s (endEvent e (p.hasResource s.world.files e)))) := by
  rw [Session.run_releaseWorkingCopy]
  rcases s.store.release e with ⟨error | _ | ⟨id, news⟩, store⟩
  · rfl
  · rfl
  · simp only [run_announce, run_fire, isOk_validate]
    rw [noted_noted]
    rfl

/-- Acquiring a working copy that can be used is one more reference. -/
theorem run_acquireWorkingCopy {c : WorkingCopy} (h : s.store.copyOf? e = some id)
    (hc : s.store.copy? id = some c) (hready : c.isReady = true) :
    acquireWorkingCopy (p.hosted refusal) e s = (some id, withStore s (s.store.retainCopy id)) :=
  run_acquireWorkingCopy_of_ready h hc hready

/-! ## Reconciling -/

/-- The differences between two states of a working copy, as a reconcile records them. -/
def differences (limit : Nat) (e : Handle) (old new : Bodies) : Except Error Delta :=
  ((Recorder.Recording.begun old e (Builder.new e) limit).finish new).map Builder.delta

/-- **A rebuild** of a working copy in force makes the structure, commits it and compares what was cached with what
is cached now. There are no drafts outside of builds, so what lookups can see is the cache, before as well as
afterwards. -/
theorem run_rebuild {c : WorkingCopy} {sn : Snapshot} (hd : s.store.drafts = [])
    (h : s.store.copyOf? e = some id) (hc : s.store.copy? id = some c) (hel : c.element = e)
    (hlive : c.disposed = false) :
    (rebuild (p.hosted refusal) canceled id e sn).run s =
      match p.made s.world.files canceled e (some sn) with
      | .error error => (.error error, s)
      | .ok bodies =>
        match differences s.config.reconcileDepth e s.store.cache.entries
            (s.store.commit e bodies).2.cache.entries with
        | .error error => (.error error, withStore s (s.store.commit e bodies).2)
        | .ok delta => (.ok (some delta), structured id e bodies sn.version s) := by
  have hended : ((s.store.copy? id).any WorkingCopy.disposed || !s.store.isInForce id) = false := by
    simp [Store.isInForce, hc, hel, h, hlive]
  -- without drafts the recorder sees the cache and nothing else
  have hvisible : ∀ store : Store, store.drafts = [] → store.visible = store.cache.entries := by
    intro store hd
    simp [Store.visible, hd]
  simp only [rebuild, Op.run_bind, Op.run_get, run_ask, run_buildBodies, hvisible s.store hd]
  rcases p.made s.world.files canceled e (some sn) with error | bodies
  · rfl
  · have hnew : (withStore s (s.store.commit e bodies).2).store.visible =
        (s.store.commit e bodies).2.cache.entries := hvisible _ hd
    simp only [Op.run_bind, run_ask, hended, Bool.false_eq_true, if_false, run_lift_evicting, differences,
      hnew]
    rcases Recorder.Recording.finish _ (s.store.commit e bodies).2.cache.entries with error | builder
    · rfl
    · rfl

/-- What is left to do after a reconcile found its differences. -/
def reported (id : CopyId) (delta : Delta) (s : Session Desk) : Reconciliation × Session Desk :=
  let told := reconcileNotices s.store id delta
  if delta.isEmpty then ({ reconciled := true }, noted s told)
  else
    ({ reconciled := true, delta := some delta },
      noted s (told ++ eventNotices s ⟨.postReconcile, [delta]⟩))

/-- To report differences leaves the store alone. -/
theorem store_reported (id : CopyId) (delta : Delta) (s : Session Desk) :
    (reported id delta s).2.store = s.store := by
  rw [reported]
  split <;> rfl

/-- To report differences leaves the files alone. -/
theorem files_reported (id : CopyId) (delta : Delta) (s : Session Desk) :
    (reported id delta s).2.world.files = s.world.files := by
  rw [reported]
  split <;> rfl

/-- A reconcile that came to its differences says that it reconciled. -/
theorem reconciled_reported (id : CopyId) (delta : Delta) (s : Session Desk) :
    (reported id delta s).1.reconciled = true := by
  rw [reported]
  split <;> rfl

theorem delta_reported (id : CopyId) (delta : Delta) (s : Session Desk) :
    (reported id delta s).1.delta = if delta.isEmpty then none else some delta := by
  rw [reported]
  split <;> rfl

/-- **Who is told of differences**: the callback of the working copy, whatever they are, and the listeners if there
are any. -/
theorem notices_reported (id : CopyId) (delta : Delta) (s : Session Desk) :
    (reported id delta s).2.world.notices = s.world.notices ++ (reconcileNotices s.store id delta ++
      if delta.isEmpty then [] else eventNotices s ⟨.postReconcile, [delta]⟩) := by
  rw [reported]
  split
  · rw [List.append_nil]
    rfl
  · rfl

/-- An element that is no working copy is not reconciled: nothing is built, and nobody is told. -/
theorem run_reconcile_of_none {force : Bool} (h : s.store.copyOf? e = none) :
    (reconcile (p.hosted refusal) canceled e force).run s = (.ok {}, s) := by
  have hnone : s.store.workingCopy? e = none := by simp [Store.workingCopy?, h]
  simp only [reconcile, Op.run_bind, run_ask, hnone]
  rfl

/-- **Reconciling** a working copy: nothing if it knows the present version and nobody insists, or else a rebuild
and a report of the differences. -/
theorem run_reconcile {c : WorkingCopy} {b : Buffer} {force : Bool}
    (h : s.store.copyOf? e = some id) (hc : s.store.copy? id = some c)
    (hb : s.store.buffer? c.buffer = some b) (hready : c.isReady = true) :
    (reconcile (p.hosted refusal) canceled e force).run s =
      if !force && c.reconciled == some b.version then (.ok {}, s)
      else
        match (rebuild (p.hosted refusal) canceled id e b.snapshot).run s with
        | (.error error, t) => (.error error, t)
        | (.ok none, t) => (.ok {}, t)
        | (.ok (some delta), t) => (.ok (reported id delta t).1, (reported id delta t).2) := by
  have hcopy : s.store.workingCopy? e = some (id, c) := by simp [Store.workingCopy?, h, hc]
  simp only [reconcile, Op.run_bind, run_ask, hcopy, hb, hready, Bool.not_true, Bool.false_or]
  split
  · rfl
  · rw [Op.run_bind]
    rcases (rebuild (p.hosted refusal) canceled id e b.snapshot).run s with ⟨error | _ | delta, t⟩
    · rfl
    · rfl
    · have hcall : (liftM (withCallback id fun callback =>
          (p.hosted refusal).onReconcile callback id delta : Action Desk Unit) : Op Desk Unit).run t =
            (.ok (), noted t (reconcileNotices t.store id delta)) :=
        congrArg (fun r : Unit × Session Desk => (Except.ok r.1, r.2))
          (run_withCallback_onReconcile id delta t)
      simp only [Op.run_bind, hcall, reported]
      split
      · rfl
      · simp only [Op.run_bind, run_lift_fire, noted_noted]
        rfl

/-! ## Closing -/

/-- **Closing** drops the tree of an element that can be opened and gives back the room that was made for it. A
working copy cannot be closed. -/
theorem run_close :
    (close (p.hosted refusal) e).run s =
      if e.openable then
        if (s.store.copyOf? e).isSome then (.error (.illegalState (.closingWorkingCopy e)), s)
        else
          (.ok (), withStore s ((s.store.eraseTree e).2.lowerCapacity s.config.cacheSize e).2)
      else (.ok (), s) := by
  by_cases ho : e.openable = true
  · by_cases hreg : (s.store.copyOf? e).isSome = true
    · simp only [close, ho, if_true, Op.run_bind, run_ask, hreg]
      rfl
    · simp only [close, ho, if_true, Op.run_bind, run_ask, hreg, Bool.false_eq_true, if_false,
        run_onStore, Op.run_get, run_lift_evicting]
      split <;> rfl
  · simp only [close, ho, Bool.false_eq_true, if_false]
    rfl

end CodeModel.Foo
