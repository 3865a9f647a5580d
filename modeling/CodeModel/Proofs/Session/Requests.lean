import CodeModel.Proofs.Store.Books
import CodeModel.Session.WorkingCopy

/-!
# Requests about working copies

What requests about working copies come to in a session of any model, whatever its hooks do, as equations
between runs.

* Becoming a working copy is a **registration** in the store and a set-up; then it is announced, or taken
  back (`run_startWorkingCopy_of_new`). A file that is one already only gets one more reference
  (`run_startWorkingCopy_of_ready`).
* The **last release** is told to the callback first and to the listeners after that
  (`run_releaseWorkingCopy`).
-/

namespace CodeModel.Session

variable {σ α : Type} {m : Model σ} {canceled : Bool} {file : Handle} {buffer : BufferId}
  {callback : Option CallbackId} {id : CopyId} {s : Session σ} {t : Store}

theorem run_liftM (x : Action σ α) (s : Session σ) :
    (liftM x : Op σ α).run s = (.ok (x s).1, (x s).2) := rfl

theorem run_withCallback (id : CopyId) (f : CallbackId → Action σ Unit) (s : Session σ) :
    withCallback id f s =
      match (s.store.copy? id).bind WorkingCopy.callback with
      | some callback => f callback s
      | none => ((), s) := by
  have hrun : withCallback id f s =
      (match (s.store.copy? id).bind WorkingCopy.callback with
        | some callback => f callback
        | none => return () : Action σ Unit) s := rfl
  rw [hrun]
  rcases (s.store.copy? id).bind WorkingCopy.callback with _ | callback <;> rfl

/-! ## Becoming a working copy -/

/-- What does not build its own structure cannot become a working copy. -/
theorem run_startWorkingCopy_of_not_openable (h : file.openable = false) :
    (startWorkingCopy m canceled file buffer callback).run s =
      (.error (.illegalArgument (.notSourceFile file)), s) := by
  simp only [startWorkingCopy, h, Bool.not_false, if_true]
  rfl

/-- **A new working copy**: the set-up runs, and its outcome stands or is taken back. The registration comes first,
so that whoever asks for the element meanwhile finds it registered. -/
theorem run_startWorkingCopy_of_new (ho : file.openable = true)
    (h : s.store.register file buffer callback = (id, true, t)) :
    (startWorkingCopy m canceled file buffer callback).run s =
      match (setUp m canceled id file).run { s with store := t } with
      | (.ok (), u) =>
        (.ok true, (fire m
          (workingCopyEvent file
            (if s.store.isCached file || (m.validate s.world file).isOk then .changed else .added))
          { u with store := u.store.modifyCopy id fun c => { c with init := .ready } }).2)
      | (.error error, u) =>
        match ((u.store.discard id).modifyCopy id fun c => { c with init := .failed }).releaseStray id with
        | (.error cause, w) => (.error cause, { u with store := w })
        | (.ok released, w) => (.error error, (announce m released { u with store := w }).2) := by
  have hvalid : isValid m file s = ((m.validate s.world file).isOk, s) := rfl
  simp only [startWorkingCopy, ho, Bool.not_true, Bool.false_eq_true, if_false, Op.run_bind, run_ask,
    run_liftM, hvalid, run_onStore, h, Op.attempt]
  rcases (setUp m canceled id file).run { s with store := t } with ⟨error | _, u⟩
  · simp only [Op.run_bind, run_modifyStore, run_tryStore]
    rcases ((u.store.discard id).modifyCopy id fun c => { c with init := .failed }).releaseStray id
      with ⟨cause | released, w⟩ <;> rfl
  · rfl

/-- **A working copy that can be used** gets one more reference. -/
theorem run_startWorkingCopy_of_ready {c : WorkingCopy} (ho : file.openable = true)
    (h : s.store.copyOf? file = some id) (hc : s.store.copy? id = some c) (hready : c.isReady = true) :
    (startWorkingCopy m canceled file buffer callback).run s =
      (.ok false, { s with store := s.store.retainCopy id }) := by
  have hvalid : isValid m file s = ((m.validate s.world file).isOk, s) := rfl
  have hregister : s.store.register file buffer callback = (id, false, s.store.retainCopy id) := by
    rw [Store.register, h]
  have hcopy := Store.isReady_retainCopy hc hready
  simp only [startWorkingCopy, ho, Bool.not_true, Bool.false_eq_true, if_false, Op.run_bind, run_ask,
    run_liftM, hvalid, run_onStore, hregister, Bool.not_false, if_true, hcopy]
  rfl

/-! ## Taking and dropping references -/

theorem run_acquireWorkingCopy_of_ready {c : WorkingCopy} (h : s.store.copyOf? file = some id)
    (hc : s.store.copy? id = some c) (hready : c.isReady = true) :
    acquireWorkingCopy m file s = (some id, { s with store := s.store.retainCopy id }) := by
  have hacquire : s.store.acquire file = (some id, s.store.retainCopy id) := by
    rw [Store.acquire, h]
  have hrun : (onStore (·.acquire file) : Action σ (Option CopyId)) s =
      (some id, { s with store := s.store.retainCopy id }) :=
    congrArg (fun r : Option CopyId × Store => (r.1, ({ s with store := r.2 } : Session σ))) hacquire
  have hask : (ask (·.copy? id) : Action σ (Option WorkingCopy)) { s with store := s.store.retainCopy id } =
      ((s.store.retainCopy id).copy? id, { s with store := s.store.retainCopy id }) := rfl
  have hcopy := Store.isReady_retainCopy hc hready
  simp only [acquireWorkingCopy, bind, StateT.bind, hrun, hask, hcopy, if_true]
  rfl

theorem run_acquireWorkingCopy_of_none (h : s.store.copyOf? file = none) :
    acquireWorkingCopy m file s = (none, s) := by
  have hacquire : s.store.acquire file = (none, s.store) := by
    rw [Store.acquire, h]
  have hrun : (onStore (·.acquire file) : Action σ (Option CopyId)) s = (none, s) :=
    congrArg (fun r : Option CopyId × Store => (r.1, ({ s with store := r.2 } : Session σ))) hacquire
  simp only [acquireWorkingCopy, bind, StateT.bind, hrun]
  rfl

/-- **Releasing** a working copy: with the last reference its end is announced, to its callback first and to the
listeners after that. What the store refuses is the answer, and nobody is told. -/
theorem run_releaseWorkingCopy (m : Model σ) (file : Handle) (s : Session σ) :
    (releaseWorkingCopy m file).run s =
      match s.store.release file with
      | (.error error, t) => (.error error, { s with store := t })
      | (.ok .kept, t) => (.ok false, { s with store := t })
      | (.ok (.last id news), t) =>
        let u := (announce m (.last id news) { s with store := t }).2
        (.ok true, (fire m
          (workingCopyEvent file (if (m.validate u.world file).isOk then .changed else .removed)) u).2) := by
  simp only [releaseWorkingCopy, Op.run_bind, run_tryStore]
  rcases s.store.release file with ⟨error | _ | ⟨id, news⟩, t⟩ <;> rfl

end CodeModel.Session
