import CodeModel.Proofs.Session.Requests

/-!
# Models that leave the books alone

The references of working copies are taken and dropped by requests alone: what else happens in a session,
builds and commits say, is none of their business.

* The world of a model keeps **minutes** of the calls to callbacks and listeners, and of the references
  that others than working copies hold on buffers. Their number cannot fall below zero, so these others
  never let go more than they took.
* A model is **attended** if its hooks leave the books alone, the references of others apart, and the
  minutes are kept. Beyond that its hooks may do what they like, and fail when they like.
* Then **setting up** a working copy leaves the books alone as well (`Attended.aloof_setUp`).
* The outside is called by **tidings** to listeners and **farewells** to callbacks (`Attended.only_fire`,
  `Attended.only_announce`).
-/

namespace CodeModel

/-! ## Calls -/

/-- What the outside is called for. -/
inductive Call where
  /-- A callback is told that its working copy has come to its end. -/
  | disposed (callback : CallbackId) (copy : CopyId)
  /-- A listener is told of an event. -/
  | told (listener : ListenerId) (event : Event)

namespace Call

/-- The callback that hears of the end of its working copy, and the working copy. -/
def farewell? : Call → Option (CallbackId × CopyId)
  | disposed callback copy => some (callback, copy)
  | told .. => none

/-- The listener that hears of an event, and the event. -/
def news? : Call → Option (ListenerId × Event)
  | disposed .. => none
  | told l event => some (l, event)

end Call

/-- The calls that tell the listeners of an event. -/
def tidings (listeners : Listeners) (event : Event) : List Call :=
  (listeners.receivers event.kind).map (Call.told · event)

/-- The call that tells a callback, if there is one, of the end of its working copy. -/
def farewell (callback : Option CallbackId) (copy : CopyId) : List Call :=
  (callback.map (Call.disposed · copy)).toList

@[simp] theorem farewells_farewell (callback : Option CallbackId) (copy : CopyId) :
    (farewell callback copy).filterMap Call.farewell? = (callback.map (·, copy)).toList := by
  cases callback <;> rfl

@[simp] theorem news_farewell (callback : Option CallbackId) (copy : CopyId) :
    (farewell callback copy).filterMap Call.news? = [] := by
  cases callback <;> rfl

@[simp] theorem farewells_tidings (listeners : Listeners) (event : Event) :
    (tidings listeners event).filterMap Call.farewell? = [] := by
  simp [tidings, Call.farewell?]

@[simp] theorem news_tidings (listeners : Listeners) (event : Event) :
    (tidings listeners event).filterMap Call.news? =
      (listeners.receivers event.kind).map (·, event) := by
  rw [tidings, List.filterMap_map, ← List.filterMap_eq_map]
  rfl

/-! ## Minutes -/

/-- What the world of a model takes down. -/
structure Minutes (σ : Type) where
  /-- The calls made so far. -/
  calls : σ → List Call
  /-- How many references on a buffer are held by others than working copies. -/
  owned : σ → BufferId → Nat

variable {σ α β : Type} {k : Minutes σ}

namespace Session

/-- The books of a session, the references of others left aside. -/
def books (k : Minutes σ) (s : Session σ) : Books := s.store.books (k.owned s.world)

/-- On the way from `s` to `t` the listed calls were made, and the books were left alone. It composes: calls add up,
and books that are left alone twice are left alone. -/
structure Only (k : Minutes σ) (calls : List Call) (s t : Session σ) : Prop where
  /-- the books are as they were -/
  books : t.books k = s.books k
  /-- the listeners are who they were -/
  listeners : t.listeners = s.listeners
  /-- the calls were taken down -/
  calls : k.calls t.world = k.calls s.world ++ calls

theorem Only.refl (s : Session σ) : Only k [] s s := ⟨rfl, rfl, by simp⟩

theorem Only.trans {c d : List Call} {s t u : Session σ} (h : Only k c s t) (h' : Only k d t u) :
    Only k (c ++ d) s u :=
  ⟨h'.books.trans h.books, h'.listeners.trans h.listeners, by simp [h'.calls, h.calls]⟩

/-- A change of the store that leaves the books alone. -/
theorem Only.of_store {s : Session σ} {store : Store}
    (h : ∀ owned, store.books owned = s.store.books owned) : Only k [] s { s with store } :=
  ⟨h _, rfl, by simp⟩

end Session

open Session

/-! ## Operations that leave the books alone -/

/-- The operation makes no calls and leaves the books alone, whether it fails or not. So do all that are put
together from such ones (`Aloof.bind`), which is how builds and set-ups are shown to be aloof. -/
def Op.Aloof (k : Minutes σ) (x : Op σ α) : Prop := ∀ s, Only k [] s (x.run s).2

/-- The action makes no calls and leaves the books alone. -/
def Action.Aloof (k : Minutes σ) (x : Action σ α) : Prop := ∀ s, Only k [] s (x s).2

namespace Op

theorem aloof_pure (a : α) : Aloof k (pure a : Op σ α) := Only.refl

theorem aloof_throw (error : Error) : Aloof k (throw error : Op σ α) := Only.refl

theorem Aloof.bind {x : Op σ α} {f : α → Op σ β} (hx : Aloof k x) (hf : ∀ a, Aloof k (f a)) :
    Aloof k (x >>= f) := by
  intro s
  have hs := hx s
  rw [run_bind]
  rcases hrun : x.run s with ⟨error | a, t⟩ <;> rw [hrun] at hs
  · exact hs
  · exact hs.trans (hf a t)

theorem aloof_ask (f : Store → α) : Aloof k (ask f : Op σ α) := Only.refl

theorem aloof_modifyStore {f : Store → Store} (h : ∀ owned s, (f s).books owned = s.books owned) :
    Aloof k (modifyStore f : Op σ Unit) := fun s => Only.of_store fun owned => h owned s.store

theorem aloof_tryStore {f : Store → Except Error α × Store}
    (h : ∀ owned s, (f s).2.books owned = s.books owned) : Aloof k (tryStore f : Op σ α) :=
  fun s => Only.of_store fun owned => h owned s.store

theorem aloof_lift {x : Action σ α} (h : Action.Aloof k x) : Aloof k (liftM x : Op σ α) := h

end Op

/-! ## Models whose hooks leave the books alone -/

/-- The hooks of the model do not meddle with working copies, and its world keeps the minutes. Beyond that nothing
is asked: builds and callbacks may fail, look at the session and change their world as they like. -/
structure Model.Attended (m : Model σ) (k : Minutes σ) : Prop where
  /-- builds may fail, but call nobody -/
  build : ∀ e snapshot, (m.build e snapshot).Aloof k
  /-- so may callbacks when a working copy has its first structure -/
  onInit : ∀ callback id, (m.onInit callback id).Aloof k
  /-- nobody is called when bodies are dropped -/
  onClose : ∀ e reason, Action.Aloof k (m.onClose e reason)
  /-- who hears of the end of a working copy is taken down -/
  onDispose : ∀ callback id s, Only k [.disposed callback id] s (m.onDispose callback id s).2
  /-- and so is who hears of an event -/
  onEvent : ∀ l event s, Only k [.told l event] s (m.onEvent l event s).2

namespace Model.Attended

variable {m : Model σ} (hm : m.Attended k)

include hm

theorem aloof_inDraft (e : Handle) (snapshot : Option Snapshot) :
    (inDraft (m.build e snapshot)).Aloof k := by
  have hpush : (modifyStore (·.pushDraft {}) : Op σ Unit).Aloof k :=
    Op.aloof_modifyStore fun _ _ => rfl
  refine hpush.bind fun _ => ?_
  refine (Op.aloof_lift (hm.build e snapshot)).bind fun result => ?_
  refine (Op.aloof_tryStore Store.books_popDraft).bind fun draft => ?_
  rcases result with error | _
  · exact Op.aloof_throw error
  · dsimp only
    split
    · exact Op.aloof_throw _
    · exact Op.aloof_pure _

theorem aloof_buildBodies (canceled : Bool) (e : Handle) (snapshot : Option Snapshot) :
    (buildBodies m canceled e snapshot).Aloof k := by
  have hvalidate : (Session.validate m e).Aloof k := Only.refl
  have hrest : Op.Aloof k (do
      if snapshot.isNone then Session.validate m e
      inDraft (m.build e snapshot)) := by
    split
    · exact hvalidate.bind fun _ => hm.aloof_inDraft e snapshot
    · exact hm.aloof_inDraft e snapshot
  rw [buildBodies]
  split
  · exact (Op.aloof_throw _).bind fun _ => hrest
  · exact hrest

theorem aloof_evicting {f : Store → Evicted × Store}
    (hf : ∀ owned s, (f s).2.books owned = s.books owned) : Action.Aloof k (evicting m f) := by
  have hclose : ∀ evicted : Evicted,
      Action.Aloof k (evicted.forM fun p => m.onClose p.1 .evicted) := by
    intro evicted
    induction evicted with
    | nil => exact Only.refl
    | cons p evicted ih => exact fun s => (hm.onClose p.1 .evicted s).trans (ih _)
  intro s
  exact (Only.of_store fun owned => hf owned s.store).trans (hclose _ _)

/-- **Setting up** a working copy leaves the books alone, whether it succeeds or not: it builds, commits, asks the
callback and notes a version, and none of these is in the books. -/
theorem aloof_setUp (canceled : Bool) (copy : CopyId) (file : Handle) :
    (setUp m canceled copy file).Aloof k := by
  refine (Op.aloof_ask _).bind fun snapshot => ?_
  refine (hm.aloof_buildBodies canceled file snapshot).bind fun bodies => ?_
  dsimp only
  split
  on_goal 1 => refine (Op.aloof_throw _).bind fun _ => ?_
  all_goals
    refine (Op.aloof_lift (hm.aloof_evicting fun owned s => s.books_commit owned file bodies)).bind
      fun _ => ?_
    refine (Op.aloof_modifyStore fun owned s => s.books_dated owned copy _).bind fun _ => ?_
    refine (Op.aloof_ask _).bind fun c => ?_
    rcases c.bind WorkingCopy.callback with _ | callback
    · exact Op.aloof_pure ()
    · exact hm.onInit callback copy

/-- **An event** calls its receivers and nobody else, one after the other, and what they do meanwhile leaves the
books alone. -/
theorem only_fire (event : Event) (s : Session σ) :
    Only k (tidings s.listeners event) s (fire m event s).2 := by
  have htell : ∀ (receivers : List ListenerId) (s : Session σ),
      Only k (receivers.map (Call.told · event)) s
        ((receivers.forM fun l => m.onEvent l event : Action σ Unit) s).2 := by
    intro receivers
    induction receivers with
    | nil => exact Only.refl
    | cons l receivers ih => exact fun s => (hm.onEvent l event s).trans (ih _)
  exact htell _ s

/-- **The end of a working copy** calls its callback, if there is one. Which one that is can be told from the books,
as callbacks do not change. -/
theorem only_announce {copy : CopyId} {c : WorkingCopy} {s : Session σ}
    (h : (s.books k).copies[copy]? = some c) :
    Only k (farewell c.callback copy) s (announce m (.last copy true) s).2 := by
  obtain ⟨c', hc', rfl⟩ := Store.exists_of_books h
  have hcallback : c'.undated.callback = c'.callback := rfl
  rw [announce, run_withCallback, hc', Option.bind_some, farewell, hcallback]
  rcases c'.callback with _ | callback
  · exact Only.refl s
  · exact hm.onDispose callback copy s

end Model.Attended

end CodeModel
