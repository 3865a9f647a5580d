import CodeModel.Recorder
import CodeModel.Session.Open

/-!
# Working copies at work

The life of a working copy: an element becomes one on a buffer, its structure follows the buffer by
reconciles, and it ends when its last reference is released.

* **Becoming** a working copy builds the structure from the buffer and asks the callback. If either
  fails, the registration is taken back and the failure is the answer.
* **Reconciling** builds the structure from the present text and reports the differences. It does
  nothing if the buffer is at the version of the last build, unless it is forced to.
* The listeners are told when an element becomes a working copy and when it ceases to be one.
-/

namespace CodeModel

/-- What a reconcile came to. -/
structure Reconciliation where
  /-- The structure was built again. -/
  reconciled : Bool := false
  /-- The differences, if there were any. -/
  delta : Option Delta := none

namespace Session

variable {σ : Type}

/-- Runs the callback of a working copy, if it has one. -/
def withCallback (id : CopyId) (f : CallbackId → Action σ Unit) : Action σ Unit := do
  match (← ask (·.copy? id)).bind WorkingCopy.callback with
  | some callback => f callback
  | none => return ()

/-- Tells the model that a working copy has come to its end, if it has. -/
def announce (m : Model σ) : Store.Release → Action σ Unit
  | .last id true => withCallback id fun callback => m.onDispose callback id
  | _ => return ()

/-- The event that tells of a file which became a working copy or ceased to be one. -/
def workingCopyEvent (file : Handle) (status : Status) : Event :=
  ⟨.postChange, [{ element := file, status, flags := Flags.workingCopy }]⟩

/-- Builds the first structure of a working copy from its buffer, commits it and asks the callback. -/
def setUp (m : Model σ) (canceled : Bool) (id : CopyId) (file : Handle) : Op σ Unit := do
  let snapshot ← ask fun s => (s.copy? id).bind fun c => (s.buffer? c.buffer).map Buffer.snapshot
  let bodies ← buildBodies m canceled file snapshot
  if !Table.contains bodies file then throw (.doesNotExist file)
  evicting m (·.commit file bodies)
  modifyStore (·.modifyCopy id fun c => { c with reconciled := snapshot.map Snapshot.version })
  match (← ask (·.copy? id)).bind WorkingCopy.callback with
  | some callback => m.onInit callback id
  | none => return ()

/-- Makes a file a working copy on a buffer. The answer is whether it was none before; if it was one,
it only gets one more reference. -/
def startWorkingCopy (m : Model σ) (canceled : Bool) (file : Handle) (buffer : BufferId)
    (callback : Option CallbackId) : Op σ Bool := do
  if !file.openable then throw (.illegalArgument (.notSourceFile file))
  let cached ← ask (·.isCached file)
  let existed := cached || (← isValid m file)
  let (id, created) ← onStore fun s =>
    let (id, created, s) := s.register file buffer callback
    ((id, created), s)
  if !created then
    if (← ask (·.copy? id)).any WorkingCopy.isReady then return false
    let released ← tryStore (·.releaseStray id)
    announce m released
    throw (.illegalState (.stillInitializing file))
  match ← (setUp m canceled id file).attempt with
  | .error error =>
    modifyStore fun s => (s.discard id).modifyCopy id fun c => { c with init := .failed }
    let released ← tryStore (·.releaseStray id)
    announce m released
    throw error
  | .ok () =>
    modifyStore (·.modifyCopy id fun c => { c with init := .ready })
    fire m (workingCopyEvent file (if existed then .changed else .added))
    return true

/-- Drops one reference on the working copy of a file. The answer is whether it was the last one. -/
def releaseWorkingCopy (m : Model σ) (file : Handle) : Op σ Bool := do
  match ← tryStore (·.release file) with
  | .kept => return false
  | released =>
    announce m released
    let remains ← isValid m file
    fire m (workingCopyEvent file (if remains then .changed else .removed))
    return true

/-- Takes one more reference on the working copy of a file, if it has one that can be used. -/
def acquireWorkingCopy (m : Model σ) (file : Handle) : Action σ (Option CopyId) := do
  match ← onStore (·.acquire file) with
  | none => return none
  | some id =>
    if (← ask (·.copy? id)).any WorkingCopy.isReady then return some id
    else
      match ← onStore (·.releaseStray id) with
      | .ok released => announce m released
      | .error _ => pure ()
      return none

/-- The file is a working copy. -/
def isWorkingCopy (file : Handle) : Action σ Bool :=
  ask fun s => (s.workingCopy? file).any fun (_, c) => !c.disposed

/-- The buffer of the working copy of a file. -/
def workingCopyBuffer (file : Handle) : Action σ (Option Buffer) :=
  ask fun s => (s.workingCopy? file).bind fun (_, c) => s.buffer? c.buffer

/-- Builds the structure of a working copy from `snapshot`, commits it and gives the differences. The
answer is `none` if the working copy ended meanwhile. -/
def rebuild (m : Model σ) (canceled : Bool) (id : CopyId) (file : Handle) (snapshot : Snapshot) :
    Op σ (Option Delta) := do
  let limit := (← get).config.reconcileDepth
  let recording ← ask fun s => Recorder.Recording.begun s.visible file (Builder.new file) limit
  let bodies ← buildBodies m canceled file (some snapshot)
  let ended ← ask fun s => (s.copy? id).any WorkingCopy.disposed || !s.isInForce id
  if ended then return none
  else
    evicting m (·.commit file bodies)
    match recording.finish (← ask Store.visible) with
    | .error error => throw error
    | .ok builder =>
      modifyStore (·.modifyCopy id fun c => { c with reconciled := some snapshot.version })
      return some builder.delta

/-- Brings the structure of a working copy up to date with its buffer, and tells the listeners of the
differences if there are any. -/
def reconcile (m : Model σ) (canceled : Bool) (file : Handle) (force : Bool) :
    Op σ Reconciliation := do
  match ← ask (·.workingCopy? file) with
  | none => return {}
  | some (id, c) =>
    match ← ask (·.buffer? c.buffer) with
    | none => return {}
    | some buffer =>
      let current := !force && c.reconciled == some buffer.version
      if !c.isReady || current then return {}
      else
        match ← rebuild m canceled id file buffer.snapshot with
        | none => return {}
        | some delta =>
          withCallback id fun callback => m.onReconcile callback id delta
          if delta.isEmpty then return { reconciled := true }
          else
            fire m ⟨.postReconcile, [delta]⟩
            return { reconciled := true, delta := some delta }

end Session

end CodeModel
