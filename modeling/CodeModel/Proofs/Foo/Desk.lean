import CodeModel.Proofs.Foo.Elements
import CodeModel.Session.WorkingCopy

/-!
# A desk for Foo projects

Sessions on a Foo project as their clients see them: requests go in, answers and notices come out.

* A **desk** is the world of such a session. It holds the files, which may change at any time, and all
  notices given so far: events to listeners, calls to callbacks.
* A **request** is anything a client can ask for: queries, closings, working copies and their
  reconciles, edits of buffers, and changes of the files behind the back of the session.
* Callbacks may **refuse** a working copy, on any grounds they find on the desk.

Requests speak of elements of the model and of buffers of the session only, so none is malformed.
-/

namespace CodeModel.Foo

open Session

/-- What the outside is told. -/
inductive Notice where
  /-- A listener is told of an event. -/
  | event (listener : ListenerId) (event : Event)
  /-- A callback is told that its working copy has its first structure. -/
  | started (callback : CallbackId) (copy : CopyId)
  /-- A callback is told that its working copy has come to its end. -/
  | disposed (callback : CallbackId) (copy : CopyId)
  /-- A callback is told of the differences that a reconcile found. -/
  | reconciled (callback : CallbackId) (copy : CopyId) (delta : Delta)

/-- The world of a session on a Foo project. -/
structure Desk where
  /-- The files. -/
  files : FileTree
  /-- The notices given so far, the latest last. -/
  notices : List Notice := []

/-- The desk with one more notice. -/
def Desk.note (d : Desk) (n : Notice) : Desk := { d with notices := d.notices ++ [n] }

/-- When callbacks refuse a working copy, and with which error. -/
abbrev Refusal := Desk → CallbackId → CopyId → Option Error

/-- Gives a notice. -/
def give (n : Notice) : Action Desk Unit := modify fun s => { s with world := s.world.note n }

/-- The code model of a project with a desk that takes the notices down. -/
def Project.hosted (p : Project) (refusal : Refusal) : Model Desk :=
  { p.model Desk.files with
    onEvent := fun l event => give (.event l event)
    onInit := fun callback id => ⟨fun s =>
      (match refusal s.world callback id with
        | some error => .error error
        | none => .ok (),
       { s with world := s.world.note (.started callback id) })⟩
    onDispose := fun callback id => give (.disposed callback id)
    onReconcile := fun callback id delta => give (.reconciled callback id delta) }

/-- What a client can ask a session with `n` buffers for. -/
inductive Request (n : Nat) where
  /-- The body of an element; the request may have been given up. -/
  | body (e : Element) (canceled : Bool)
  /-- The children of an element. -/
  | children (e : Element)
  /-- Whether an element exists. -/
  | isPresent (e : Element)
  /-- The text of an element. -/
  | sourceText (e : Element)
  /-- The element at a position of a file. -/
  | innermostAt (file : Element) (position : Nat) (base : Option Snapshot)
  /-- To close an element. -/
  | close (e : Element)
  /-- To make an element a working copy. -/
  | start (file : Element) (buffer : Fin n) (callback : Option CallbackId) (canceled : Bool)
  /-- To let one reference on a working copy go. -/
  | release (file : Element)
  /-- One more reference on a working copy. -/
  | acquire (file : Element)
  /-- Whether an element is a working copy. -/
  | isWorkingCopy (file : Element)
  /-- The buffer of a working copy. -/
  | workingCopyBuffer (file : Element)
  /-- The elements that are working copies. -/
  | workingCopies
  /-- To bring the structure of a working copy up to date. -/
  | reconcile (file : Element) (force canceled : Bool)
  /-- To change a buffer. -/
  | edit (buffer : Fin n) (change : Change)
  /-- To replace the text of a buffer. -/
  | setText (buffer : Fin n) (text : Text)
  /-- One more owner of a buffer. -/
  | retainBuffer (buffer : Fin n)
  /-- To let one owner of a buffer go. -/
  | releaseBuffer (buffer : Fin n)
  /-- To register a listener. -/
  | listen (listener : ListenerId) (kinds : EventKinds)
  /-- To take a listener out. -/
  | unlisten (listener : ListenerId)
  /-- The files have become others. -/
  | files (files : FileTree)

/-- What a client is answered. -/
inductive Answer where
  /-- A body. -/
  | body (result : Except Error Body)
  /-- Some elements. -/
  | elements (result : Except Error (List Handle))
  /-- A yes or a no. -/
  | truth (result : Except Error Bool)
  /-- A text, if there is one. -/
  | text (result : Except Error (Option Text))
  /-- An element, if there is one. -/
  | element (result : Except Error (Option Handle))
  /-- A working copy, if there is one. -/
  | copy (result : Option CopyId)
  /-- A buffer, if there is one. -/
  | buffer (result : Option Buffer)
  /-- What a reconcile came to. -/
  | reconciliation (result : Except Error Reconciliation)
  /-- It is done. -/
  | done (result : Except Error Unit)
  /-- A new version. -/
  | version (result : Except Error Nat)

/-- Runs an operation for a client. -/
def answered {α : Type} (f : Except Error α → Answer) (x : Op Desk α) (s : Session Desk) :
    Answer × Session Desk := (f (x.run s).1, (x.run s).2)

/-- Changes a buffer for a client. A buffer stays as it is if the change fails. -/
def changed (buffer : BufferId) (f : Buffer → Except BufferError Buffer) (s : Session Desk) :
    Answer × Session Desk :=
  match (s.store.buffer? buffer).map f with
  | none => (.done (.ok ()), s)
  | some (.error cause) => (.version (.error (.buffer cause)), s)
  | some (.ok b) => (.version (.ok b.version), { s with store := s.store.modifyBuffer buffer fun _ => b })

/-- Carries out a request. -/
def perform {n : Nat} (m : Model Desk) : Request n → Session Desk → Answer × Session Desk
  | .body e canceled => answered .body (openBody m canceled e)
  | .children e => answered .elements (Session.children m e)
  | .isPresent e => answered .truth (Session.isPresent m e)
  | .sourceText e => answered .text (Session.sourceText m e)
  | .innermostAt file position base => answered .element (Session.innermostAt m file position base)
  | .close e => answered .done (Session.close m e)
  | .start file buffer callback canceled =>
    answered .truth (startWorkingCopy m canceled file buffer callback)
  | .release file => answered .truth (releaseWorkingCopy m file)
  | .acquire file => fun s => ((acquireWorkingCopy m file s).map .copy id)
  | .isWorkingCopy file => fun s => ((Session.isWorkingCopy file s).map (fun b => .truth (.ok b)) id)
  | .workingCopyBuffer file => fun s => ((Session.workingCopyBuffer file s).map .buffer id)
  | .workingCopies => fun s => (.elements (.ok s.store.workingCopies), s)
  | .reconcile file force canceled =>
    answered .reconciliation (Session.reconcile m canceled file force)
  | .edit buffer change => changed buffer (·.applyChange change)
  | .setText buffer text => changed buffer fun b => .ok (b.setText text)
  | .retainBuffer buffer => changed buffer fun b => .ok b.retain
  | .releaseBuffer buffer => changed buffer Buffer.release
  | .listen l kinds => answered .done (Session.listen l kinds : Action Desk Unit)
  | .unlisten l => answered .done (Session.unlisten l : Action Desk Unit)
  | .files t => fun s => (.done (.ok ()), { s with world := { s.world with files := t } })

/-- Carries out requests one after the other. -/
def run {n : Nat} (m : Model Desk) : List (Request n) → Session Desk → List Answer × Session Desk
  | [], s => ([], s)
  | r :: rs, s =>
    let (a, s) := perform m r s
    let (as, s) := run m rs s
    (a :: as, s)

/-- The numbered buffers with the given texts. -/
def freshBuffers (texts : List Text) : List Buffer := texts.mapIdx fun i text => { id := i, text }

/-- A session at its start: nothing is opened yet, and the buffers have the given texts. -/
def freshSession (config : Config) (files : FileTree) (texts : List Text)
    (arrangement : Arrangement := .asBuilt) : Session Desk :=
  let s : Session Desk := Session.new config { files } arrangement
  { s with store := { s.store with buffers := freshBuffers texts } }

/-- What one request does to an invariant, a run does to it: by induction on the requests, each of which is
performed in the session that the ones before it have left. -/
theorem run_invariant {n : Nat} {m : Model Desk} (inv : Session Desk → Prop)
    (hstep : ∀ (r : Request n) s, inv s → inv (perform m r s).2) (rs : List (Request n))
    {s : Session Desk} (h : inv s) : inv (run m rs s).2 := by
  induction rs generalizing s with
  | nil => exact h
  | cons r rs ih => exact ih (hstep r s h)

end CodeModel.Foo
