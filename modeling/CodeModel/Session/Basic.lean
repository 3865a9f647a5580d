import CodeModel.Config
import CodeModel.Delta.Builder
import CodeModel.Event
import CodeModel.Store

/-!
# Sessions

A session holds the state of one code model at work: its store, its listeners and its settings, and a
world of the model's own (the files it reads, say).

* A `Model` says how elements are built and what happens at the turning points of their lives. Its
  hooks are operations on the session themselves, so they may call back into it.
* An `Op` is an operation that may fail. A failure **keeps the state** reached when it happens; nothing
  is rolled back. An `Action` cannot fail.
-/

namespace CodeModel

/-- The state of a code model at work; `σ` is the model's own world. -/
structure Session (σ : Type) where
  /-- The elements. -/
  store : Store
  /-- The settings. -/
  config : Config
  /-- Those who are told of changes. -/
  listeners : Listeners := []
  /-- What the model needs besides. -/
  world : σ

/-- A step that cannot fail. -/
abbrev Action (σ α : Type) := StateM (Session σ) α

/-- An operation that may fail and then keeps the state reached. -/
structure Op (σ α : Type) where
  /-- What the operation answers, and the state it leaves. -/
  run : Session σ → Except Error α × Session σ

namespace Op

variable {σ α β : Type}

/-- Goes on with `f` after a success; a failure ends the operation. -/
def andThen (x : Op σ α) (f : α → Op σ β) : Op σ β :=
  ⟨fun s => match x.run s with
    | (.ok a, s) => (f a).run s
    | (.error error, s) => (.error error, s)⟩

instance : Monad (Op σ) where
  pure a := ⟨fun s => (.ok a, s)⟩
  bind := andThen

/-- Fails. -/
def fail (error : Error) : Op σ α := ⟨fun s => (.error error, s)⟩

/-- Goes on with `h` after a failure, in the state the failure left. -/
def orElse (x : Op σ α) (h : Error → Op σ α) : Op σ α :=
  ⟨fun s => match x.run s with
    | (.ok a, s) => (.ok a, s)
    | (.error error, s) => (h error).run s⟩

instance : MonadExcept Error (Op σ) where
  throw := fail
  tryCatch := orElse

instance : MonadStateOf (Session σ) (Op σ) where
  get := ⟨fun s => (.ok s, s)⟩
  set s := ⟨fun _ => (.ok (), s)⟩
  modifyGet f := ⟨fun s => (.ok (f s).1, (f s).2)⟩

instance : MonadLift (StateM (Session σ)) (Op σ) where
  monadLift x := ⟨fun s => (.ok (x s).1, (x s).2)⟩

/-- Runs an operation and takes its failure as an answer. -/
def attempt (x : Op σ α) : Action σ (Except Error α) := x.run

@[simp] theorem run_pure (a : α) (s : Session σ) : (pure a : Op σ α).run s = (.ok a, s) := rfl

@[simp] theorem run_throw (error : Error) (s : Session σ) :
    (throw error : Op σ α).run s = (.error error, s) := rfl

@[simp] theorem run_lift (x : Action σ α) (s : Session σ) :
    (monadLift x : Op σ α).run s = (.ok (x s).1, (x s).2) := rfl

/-- A sequence runs its second part in the state that the first one leaves. -/
theorem run_bind (x : Op σ α) (f : α → Op σ β) (s : Session σ) :
    (x >>= f).run s =
      match x.run s with
      | (.ok a, s) => (f a).run s
      | (.error error, s) => (.error error, s) := rfl

theorem run_forM_lift (l : List β) (act : β → Action σ Unit) (s : Session σ) :
    (l.forM fun b => (act b : Op σ Unit)).run s = (.ok (), ((l.forM act : Action σ Unit) s).2) := by
  induction l generalizing s with
  | nil => rfl
  | cons b l ih => exact ih (act b s).2

@[simp] theorem run_get (s : Session σ) : (get : Op σ (Session σ)).run s = (.ok s, s) := rfl

theorem andThen_pure (x : Op σ α) : x.andThen (fun a => pure a) = x := by
  cases x with
  | mk run =>
    simp only [andThen, Op.mk.injEq]
    funext s
    cases run s with
    | mk r s => cases r <;> rfl

theorem andThen_andThen {γ : Type} (x : Op σ α) (f : α → Op σ β) (g : β → Op σ γ) :
    (x.andThen f).andThen g = x.andThen fun a => (f a).andThen g := by
  simp only [andThen, Op.mk.injEq]
  funext s
  cases x.run s with
  | mk r s => cases r <;> rfl

instance : LawfulMonad (Op σ) :=
  LawfulMonad.mk' (Op σ) andThen_pure (fun _ _ => rfl) andThen_andThen

end Op

/-- Why the body of an element is dropped. -/
inductive DropReason where
  /-- The element was closed. -/
  | closed
  /-- The cache was too full. -/
  | evicted
deriving DecidableEq

/-- What a code model consists of. -/
structure Model (σ : Type) where
  /-- Checks that the resource of an element exists. -/
  validate : σ → Handle → Except Error Unit
  /-- Builds the body of an openable element, and those it owns, into the present draft. The snapshot is
  the text to build from; without one the resource is read. -/
  build : Handle → Option Snapshot → Op σ Unit
  /-- Is called after the body of an element was dropped. -/
  onClose : Handle → DropReason → Action σ Unit := fun _ _ => pure ()
  /-- Tells a listener of an event. -/
  onEvent : ListenerId → Event → Action σ Unit := fun _ _ => pure ()
  /-- Is called when a working copy has its first structure; it may still refuse. -/
  onInit : CallbackId → CopyId → Op σ Unit := fun _ _ => pure ()
  /-- Is called when a working copy comes to its end. -/
  onDispose : CallbackId → CopyId → Action σ Unit := fun _ _ => pure ()
  /-- Is called with the differences that a reconcile found. -/
  onReconcile : CallbackId → CopyId → Delta → Action σ Unit := fun _ _ _ => pure ()

namespace Session

variable {σ α : Type}

/-- A session with nothing opened yet. -/
def new (config : Config) (world : σ) (arrangement : Arrangement := .asBuilt) : Session σ :=
  { store := { cache := Cache.new config.cacheSize config.loadFactor, arrangement }, config, world }

/-! ## Steps on the store

These are steps of operations and of actions alike. -/

section Steps

variable {m : Type → Type} [MonadState (Session σ) m]

/-- Runs a function on the store. -/
def onStore (f : Store → α × Store) : m α :=
  modifyGet fun s =>
    let (a, store) := f s.store
    (a, { s with store })

/-- Asks the store. -/
def ask (f : Store → α) : m α := onStore fun s => (f s, s)

/-- Changes the store. -/
def modifyStore (f : Store → Store) : m Unit := onStore fun s => ((), f s)

end Steps

/-- Runs a function on the store that may fail. -/
def tryStore (f : Store → Except Error α × Store) : Op σ α := ⟨(onStore f : Action σ _)⟩

@[simp] theorem run_onStore (f : Store → α × Store) (s : Session σ) :
    (onStore f : Op σ α).run s = (.ok (f s.store).1, { s with store := (f s.store).2 }) := rfl

@[simp] theorem run_ask (f : Store → α) (s : Session σ) :
    (ask f : Op σ α).run s = (.ok (f s.store), s) := rfl

@[simp] theorem run_modifyStore (f : Store → Store) (s : Session σ) :
    (modifyStore f : Op σ Unit).run s = (.ok (), { s with store := f s.store }) := rfl

@[simp] theorem run_tryStore (f : Store → Except Error α × Store) (s : Session σ) :
    (tryStore f : Op σ α).run s = ((f s.store).1, { s with store := (f s.store).2 }) := rfl

/-- Checks that the resource of an element exists. -/
def validate (m : Model σ) (e : Handle) : Op σ Unit := ⟨fun s => (m.validate s.world e, s)⟩

/-- Does the resource of the element exist? -/
def isValid (m : Model σ) (e : Handle) : Action σ Bool := fun s =>
  ((m.validate s.world e).isOk, s)

/-- Runs a step on the store that may evict bodies, and tells the model about each of them. -/
def evicting (m : Model σ) (f : Store → Evicted × Store) : Action σ Unit := do
  let evicted ← onStore f
  evicted.forM fun p => m.onClose p.1 .evicted

/-! ## Events -/

/-- Registers a listener. -/
def listen (l : ListenerId) (kinds : EventKinds) : Action σ Unit :=
  modify fun s => { s with listeners := s.listeners.add l kinds }

/-- Takes a listener out. -/
def unlisten (l : ListenerId) : Action σ Unit :=
  modify fun s => { s with listeners := s.listeners.remove l }

/-- Tells the listeners that are registered now of an event. -/
def fire (m : Model σ) (event : Event) : Action σ Unit := do
  let receivers := (← get).listeners.receivers event.kind
  receivers.forM fun l => m.onEvent l event

/-! ## The draft of a build

What a model's `build` may do with the draft it builds into. -/

/-- Records a body. -/
def putBody (e : Handle) (b : Body) : Op σ Unit :=
  modifyStore fun s => s.modifyDraft fun d => { d with bodies := Table.insert d.bodies e b }

/-- The bodies recorded so far. -/
def draftBodies : Op σ (Table Body) :=
  ask fun s => (s.drafts.head?.map Draft.bodies).getD []

/-- Gives the build up; it fails at its next check, or at its end. -/
def cancelBuild : Op σ Unit :=
  modifyStore fun s => s.modifyDraft fun d => { d with canceled := true }

/-- Fails if the build was given up. -/
def checkCanceled : Op σ Unit := do
  if (← ask fun s => s.drafts.head?.any Draft.canceled) then throw .canceled

/-- Runs a build in a draft of its own and gives the bodies it made. -/
def inDraft (build : Op σ Unit) : Op σ (Table Body) := do
  modifyStore (·.pushDraft {})
  let result ← build.attempt
  let draft ← tryStore Store.popDraft
  match result with
  | .error error => throw error
  | .ok () => if draft.canceled then throw .canceled else return draft.bodies

/-- Runs an operation under a claim on the build of `e`, and gives the claim back in any case. -/
def holding (e : Handle) (op : Op σ α) : Op σ α :=
  ⟨fun s =>
    let (result, s) := op.run s
    (result, { s with store := s.store.unclaim e })⟩

end Session

end CodeModel
