import CodeModel.Proofs.Cache.Entries
import CodeModel.Proofs.Session.Requests

/-!
# Failed builds

What a build that fails leaves behind: nothing, as long as the model's builds keep to their drafts
(`Model.Inward`). An operation builds under a claim and in a draft, and there are several points at which
it may come to its end; at each of them the claim is given back, the draft is gone, and nothing has been
made room for or committed.

* An element that is **opened on its own** changes nothing when that fails (`failsTo_openBody`).
* An element that is opened **through its owner** changes no more than that the owner was used
  (`failsTo_openBody_owned`).
* A **reconcile** whose build fails is not heard of, and the version that was reconciled last is still the
  same (`run_reconcile_of_build_failed`, `run_reconcile_again`).

`failed_builds_leave_nothing` says all this of every session at once.
-/

namespace CodeModel

open Session

/-! ## Sessions left alone -/

namespace Session

variable {σ α : Type} {s t u : Session σ}

/-- The one session is the other one, the model's own world aside. -/
structure Untouched (s t : Session σ) : Prop where
  /-- bodies, working copies, drafts and claims are the same -/
  store : t.store = s.store
  /-- the settings are -/
  config : t.config = s.config
  /-- the listeners are -/
  listeners : t.listeners = s.listeners

theorem Untouched.refl (s : Session σ) : Untouched s s := ⟨rfl, rfl, rfl⟩

theorem Untouched.trans (h : Untouched s t) (k : Untouched t u) : Untouched s u :=
  ⟨k.store.trans h.store, k.config.trans h.config, k.listeners.trans h.listeners⟩

/-- A change of the store is seen from sessions that differ in their worlds alike. -/
theorem Untouched.withStore (h : Untouched s t) (f : Store → Store) :
    Untouched { s with store := f s.store } { t with store := f t.store } :=
  ⟨congrArg f h.store, h.config, h.listeners⟩

end Session

/-- The builds of the model **keep to their drafts**: what they do changes the draft they build into, and perhaps
the model's own world, but nothing else of the session. A build that asks the session for other elements may open
these, and then there is more left of it than the build. -/
def Model.Inward {σ : Type} (m : Model σ) : Prop :=
  ∀ e snapshot (s : Session σ) draft drafts, s.store.drafts = draft :: drafts →
    ∃ draft', Untouched { s with store := { s.store with drafts := draft' :: drafts } }
      ((m.build e snapshot).run s).2

namespace Op

variable {σ α β : Type} {x : Op σ α} {f : α → Op σ β} {s base : Session σ}

theorem run_attempt (x : Op σ α) (s : Session σ) :
    (liftM x.attempt : Op σ (Except Error α)).run s = (.ok (x.run s).1, (x.run s).2) := rfl

/-- The operation fails from `s`. -/
def fails (x : Op σ α) (s : Session σ) : Bool := !(x.run s).1.isOk

/-- The session that the operation leaves. -/
def leaves (x : Op σ α) (s : Session σ) : Session σ := (x.run s).2

/-- If the operation fails, it leaves `base`, the model's own world aside. The base is fixed beforehand, so that a
sequence fails to it wherever it comes to its end. -/
def FailsTo (base : Session σ) (x : Op σ α) (s : Session σ) : Prop :=
  ∀ error t, x.run s = (.error error, t) → Untouched base t

/-- The first part fails so, or it comes to an end and the second one does. With this rule an operation is followed
through all the points at which it may fail. -/
theorem FailsTo.bind (hx : x.FailsTo base s)
    (hf : ∀ a t, x.run s = (.ok a, t) → (f a).FailsTo base t) : (x >>= f).FailsTo base s := by
  intro error t h
  rw [run_bind] at h
  rcases hrun : x.run s with ⟨cause | a, u⟩
  · rw [hrun] at h
    cases h
    exact hx _ _ hrun
  · rw [hrun] at h
    exact hf a u hrun error t h

theorem failsTo_of_ok (h : (x.run s).1.isOk = true) : x.FailsTo base s := by
  intro error t hrun
  rw [hrun] at h
  cases h

theorem FailsTo.leaves (h : x.FailsTo base s) (hx : x.fails s = true) : Untouched base (x.leaves s) := by
  rcases hrun : x.run s with ⟨error | a, t⟩
  · rw [Op.leaves, hrun]
    exact h error t hrun
  · simp [fails, hrun, Except.isOk, Except.toBool] at hx

end Op

namespace Store

variable {s : Store} {e o : Handle}

theorem get?_of_none (h : (s.get? e).1 = none) : s.get? e = (none, s) := by
  rcases hd : s.draftBody? e with _ | b
  · have hc : s.cache.peek? e = none := by simpa [get?, hd, Cache.get?] using h
    simp [get?, hd, Cache.get?, hc, Cache.touch_of_peek?_eq_none hc]
  · simp [get?, hd] at h

theorem draftBody?_get? (s : Store) (e o : Handle) : (s.get? o).2.draftBody? e = s.draftBody? e := by
  rw [get?]
  split <;> rfl

/-- Looking one element up brings forth no other one: it changes the order of entries and not which there are. -/
theorem get?_get?_of_none (h : (s.get? e).1 = none) : ((s.get? o).2.get? e).1 = none := by
  rcases hd : s.draftBody? e with _ | b
  · have hc : s.cache.peek? e = none := by simpa [get?, hd, Cache.get?] using h
    have hkept : (s.get? o).2.cache.peek? e = none := by
      rw [get?]
      split
      · exact hc
      · exact Cache.peek?_touch_eq_none hc
    simp [get?.eq_def (s.get? o).2, draftBody?_get?, hd, Cache.get?, hkept]
  · simp [get?, hd] at h

/-- Looking an element up twice is looking it up once, as far as the store is concerned. -/
theorem get?_get?_self (s : Store) (o : Handle) : ((s.get? o).2.get? o).2 = (s.get? o).2 := by
  rcases hd : s.draftBody? o with _ | b
  · have hd' := (draftBody?_get? s o o).trans hd
    rw [get?.eq_def (s.get? o).2, hd']
    simp [get?, hd, Cache.get?, Cache.touch_touch]
  · simp [get?, hd]

/-- Claims are not looked at. -/
theorem get?_building (s : Store) (building : HandleSet) (e : Handle) :
    { s with building }.get? e = ((s.get? e).1, { (s.get? e).2 with building }) := by
  have hd : ({ s with building } : Store).draftBody? e = s.draftBody? e := rfl
  rw [get?, hd, get?]
  split <;> rfl

end Store

namespace Session

open Op

variable {σ : Type} {m : Model σ} {canceled : Bool} {e owner : Handle} {snapshot : Option Snapshot}
  {s t base : Session σ}

/-! ## Builds -/

/-- Whatever a build in a draft came to, the draft is taken away after it, and that is all. -/
theorem leaves_inDraft (build : Op σ Unit) (s : Session σ) :
    (inDraft build).leaves s =
      let t := build.leaves { s with store := s.store.pushDraft {} }
      { t with store := t.store.popDraft.2 } := by
  rw [leaves, inDraft, run_bind, run_modifyStore]
  simp only [leaves]
  rcases hrun : build.run { s with store := s.store.pushDraft {} } with ⟨result, t⟩
  simp only [run_bind, run_attempt, hrun, run_tryStore]
  rcases t.store.popDraft with ⟨error | draft, store⟩
  · rfl
  · rcases result with error | ⟨⟩
    · rfl
    · simp only
      split <;> rfl

/-- A build leaves its draft behind, whatever it came to: the draft is taken off also where the build fails, with
all that it had put in. -/
theorem untouched_inDraft (hm : m.Inward) (e : Handle) (snapshot : Option Snapshot) (s : Session σ) :
    Untouched s ((inDraft (m.build e snapshot)).leaves s) := by
  obtain ⟨draft, hbuild⟩ := hm e snapshot { s with store := s.store.pushDraft {} } {} s.store.drafts rfl
  have hpop : ((m.build e snapshot).leaves { s with store := s.store.pushDraft {} }).store.popDraft.2 =
      s.store := by
    rw [Store.popDraft, leaves, hbuild.store]
    rfl
  rw [leaves_inDraft]
  exact ⟨hpop, hbuild.config, hbuild.listeners⟩

/-- **A build** changes nothing, whatever it came to: what it did is in its draft, and the draft is gone. -/
theorem untouched_buildBodies (hm : m.Inward) (canceled : Bool) (e : Handle) (snapshot : Option Snapshot)
    (s : Session σ) : Untouched s ((buildBodies m canceled e snapshot).leaves s) := by
  cases canceled with
  | true => exact .refl s
  | false =>
    cases snapshot with
    | some snapshot => exact untouched_inDraft hm e (some snapshot) s
    | none =>
      have hrun : (buildBodies m false e none).run s =
          (validate m e >>= fun _ => inDraft (m.build e none)).run s := rfl
      have hvalid : (validate m e).run s = (m.validate s.world e, s) := rfl
      rw [leaves, hrun, run_bind, hvalid]
      rcases m.validate s.world e with error | ⟨⟩
      · exact .refl s
      · exact untouched_inDraft hm e none s

/-- A build and the search for the body of `e` in what it made. -/
theorem failsTo_bodyIn {α : Type} {f : Table Body → Body → Op σ α} (hm : m.Inward) (b e : Handle)
    (h : Untouched base s) (hf : ∀ bodies body t, ((f bodies body).run t).1.isOk = true) :
    (buildBodies m canceled b snapshot >>= fun bodies => bodyIn bodies e >>= f bodies).FailsTo base s := by
  have hbuild := untouched_buildBodies hm canceled b snapshot s
  refine FailsTo.bind (fun error t hrun => ?_) fun bodies t hrun => FailsTo.bind (fun error u hbody => ?_)
    fun body u _ => failsTo_of_ok (hf bodies body u)
  · rw [leaves, hrun] at hbuild
    exact h.trans hbuild
  · rw [leaves, hrun] at hbuild
    have hleft : u = t := by
      rw [bodyIn] at hbody
      split at hbody <;> cases hbody
      rfl
    exact hleft ▸ h.trans hbuild

/-- What is done under a claim that is given back. If the work fails the claim is given up all the same, so that it
does not stand in the way of a later build. -/
theorem failsTo_holding {α : Type} {op : Op σ α} (hnot : HandleSet.contains s.store.building e = false)
    (h : op.FailsTo { s with store := { s.store with building := HandleSet.insert s.store.building e } } t) :
    (holding e op).FailsTo s t := by
  intro error u hrun
  rcases hop : op.run t with ⟨result, w⟩
  simp only [holding, hop] at hrun
  cases hrun
  have hback := (h error w hop).withStore (·.unclaim e)
  simp only [Store.unclaim, HandleSet.erase_insert_of_not_contains hnot] at hback
  exact hback

/-- With its bodies in hand a build cannot fail any more. -/
theorem isOk_commitIfAbsent (m : Model σ) (e : Handle) (bodies : Table Body) (body : Body) (s : Session σ) :
    ((do
      let (existing, evicted) ← onStore fun s =>
        let (existing, evicted, s) := s.commitIfAbsent e bodies
        ((existing, evicted), s)
      evicted.forM fun p => (m.onClose p.1 .evicted : Action σ Unit)
      return existing.getD body : Op σ Body).run s).1.isOk = true := by
  simp only [run_bind, run_onStore, run_forM_lift, run_pure]
  rfl

theorem failsTo_buildFresh (hm : m.Inward) (e : Handle) (s : Session σ) :
    (buildFresh m canceled e).FailsTo s s := by
  refine FailsTo.bind (failsTo_of_ok rfl) fun snapshot t hask => ?_
  cases hask
  refine failsTo_bodyIn hm e e (.refl s) fun bodies body t => ?_
  rw [run_bind, run_get]
  dsimp only
  split
  · rw [run_bind, run_modifyStore]
    exact isOk_commitIfAbsent m e bodies body _
  · exact isOk_commitIfAbsent m e bodies body t

/-- **Opening** an element that has no body, its parent left aside. It may fail when it is claimed, when it is built
and when its body is missing in the build; the claim is given back each time, and nothing was committed. -/
theorem failsTo_openFresh (hm : m.Inward) (e : Handle) (s : Session σ) :
    (openFresh m canceled e).FailsTo s s := by
  intro error t h
  rw [openFresh, run_bind, run_tryStore] at h
  rcases hpeek : s.store.cache.peek? e with _ | b
  · rcases hc : HandleSet.contains s.store.building e with _ | _
    · have hclaim : s.store.claim e = (.ok .claimed,
          { s.store with building := HandleSet.insert s.store.building e }) := by
        simp [Store.claim, hpeek, Store.claimAgain, hc, Except.map]
      rw [hclaim] at h
      exact failsTo_holding hc (failsTo_buildFresh hm e _) error t h
    · -- the build is going on already
      have hclaim : s.store.claim e = (.error (.illegalState (.recursiveBuild e)), s.store) := by
        simp [Store.claim, hpeek, Store.claimAgain, hc, Except.map]
      rw [hclaim] at h
      cases h
      exact .refl s
  · have hclaim : s.store.claim e =
        (.ok (.existing b), { s.store with cache := s.store.cache.touch e }) := by
      simp [Store.claim, hpeek]
    rw [hclaim] at h
    cases h

/-- Building the owner again for the sake of a body that is missing. -/
theorem failsTo_buildAgain {ownerBody : Body} (hm : m.Inward) (he : (s.store.get? e).1 = none)
    (ho : (s.store.get? owner).2 = s.store) : (buildAgain m canceled owner ownerBody e).FailsTo s s := by
  intro error t h
  simp only [buildAgain, run_bind, run_onStore, Store.get?_of_none he, ho, run_ask] at h
  exact failsTo_bodyIn (f := fun bodies body => (do
    let _ ← (evicting m (·.commit owner bodies) : Action σ Unit)
    return body : Op σ Body)) hm owner e (.refl s) (fun bodies body t => rfl) error t h

/-- **The body of an element from its owner**, which was just used: using it again when it is claimed changes
nothing. -/
theorem failsTo_openOwned {ownerBody : Body} (hm : m.Inward) (he : (s.store.get? e).1 = none)
    (ho : (s.store.get? owner).2 = s.store) : (openOwned m canceled owner ownerBody e).FailsTo s s := by
  intro error t h
  simp only [openOwned, run_bind, run_onStore, Store.get?_of_none he, run_tryStore] at h
  rcases hc : HandleSet.contains s.store.building owner with _ | _
  · have hclaim : s.store.claimAgain owner =
        (.ok (), { s.store with building := HandleSet.insert s.store.building owner }) := by
      simp [Store.claimAgain, hc]
    rw [hclaim] at h
    refine failsTo_holding hc (failsTo_buildAgain hm ?_ ?_) error t h
    · rw [Store.get?_building, he]
    · rw [Store.get?_building, ho]
  · have hclaim : s.store.claimAgain owner = (.error (.illegalState (.recursiveBuild owner)), s.store) := by
      simp [Store.claimAgain, hc]
    rw [hclaim] at h
    cases h
    exact .refl s

/-! ## Opening -/

/-- **An element that is opened on its own**, below a parent that is open if there is one. Opening a parent that is
not open would leave the parent open, whether or not the element can be built then. -/
theorem failsTo_openBody (hm : m.Inward) (he : e.openable = true)
    (hp : ∀ p, e.parent? = some p → s.store.isCached p = true) : (openBody m canceled e).FailsTo s s := by
  intro error t h
  rw [openBody, run_bind, run_onStore] at h
  rcases hget : (s.store.get? e).1 with _ | b
  · simp only [Store.get?_of_none hget] at h
    rw [dif_pos he] at h
    split at h
    · exact failsTo_openFresh hm e s error t h
    · rename_i p hparent
      simp only [run_bind, run_ask, hp p hparent, if_true] at h
      exact failsTo_openFresh hm e s error t h
  · simp only [hget] at h
    cases h

/-- **An element that is opened through its owner**, which is open: the owner is used, and nothing else changes.
That is the one trace of such a failure, and it is one in the order of use. -/
theorem failsTo_openBody_owned (hm : m.Inward) (he : e.openable = false) (howner : e.owner? = some owner)
    (hcached : s.store.isCached owner = true) :
    (openBody m canceled e).FailsTo { s with store := (s.store.get? owner).2 } s := by
  intro error t h
  rw [openBody, run_bind, run_onStore] at h
  rcases hget : (s.store.get? e).1 with _ | b
  · simp only [Store.get?_of_none hget] at h
    rw [dif_neg (by simp [he])] at h
    split at h
    · rename_i hnone
      rw [howner] at hnone
      cases hnone
    · rename_i o ho
      obtain rfl := Option.some.inj (howner.symm.trans ho)
      -- the owner has a body, which is used
      obtain ⟨b, hb⟩ : ∃ b, (s.store.get? owner).1 = some b := by
        rw [Store.isCached, Cache.contains, Option.isSome_iff_exists] at hcached
        obtain ⟨b, hb⟩ := hcached
        rcases hd : s.store.draftBody? owner with _ | b'
        · exact ⟨b, by simp [Store.get?, hd, Cache.get?, hb]⟩
        · exact ⟨b', by simp [Store.get?, hd]⟩
      have hopen : (openBody m canceled owner).run s =
          (.ok b, { s with store := (s.store.get? owner).2 }) := by
        rw [openBody, run_bind, run_onStore]
        simp only [hb]
        rfl
      rw [run_bind, hopen] at h
      exact failsTo_openOwned hm (Store.get?_get?_of_none hget) (Store.get?_get?_self _ _) error t h
  · simp only [hget] at h
    cases h

/-! ## Reconciling -/

section Reconciling

variable {file : Handle} {force : Bool} {text : Snapshot} {cause : Error} {u : Session σ}

/-- The buffer of the working copy of the file is at the version that was reconciled last. -/
def isUpToDate (s : Session σ) (file : Handle) : Bool :=
  (s.store.workingCopy? file).any fun (_, c) =>
    (s.store.buffer? c.buffer).any fun buffer => c.reconciled == some buffer.version

/-- A reconcile has nothing to do: there is no working copy that can be used, or it is up to date and
nobody insists. -/
def isIdle (s : Session σ) (file : Handle) (force : Bool) : Bool :=
  !(s.store.workingCopy? file).any (fun (_, c) => c.isReady) || (!force && isUpToDate s file)

/-- **A reconcile whose build fails** fails with it, unless it had nothing to do: the version is noted only after
the commit, and nobody is told before. -/
theorem run_reconcile_of_build_failed (htext : s.store.copySnapshot? file = some text)
    (hbuild : (buildBodies m canceled file (some text)).run s = (.error cause, u)) :
    (reconcile m canceled file force).run s =
      if isIdle s file force then (.ok {}, s) else (.error cause, u) := by
  obtain ⟨⟨id, c⟩, hcopy, hmap⟩ := Option.bind_eq_some_iff.mp htext
  obtain ⟨buffer, hbuffer, rfl⟩ := Option.map_eq_some_iff.mp hmap
  have hrebuild : (rebuild m canceled id file buffer.snapshot).run s = (.error cause, u) := by
    simp only [rebuild, run_bind, run_get, run_ask, hbuild]
  simp only [reconcile, run_bind, run_ask, hcopy, hbuffer, isIdle, isUpToDate, Option.any_some]
  split
  · rfl
  · simp only [run_bind, hrebuild]

/-- Whether or not it is forced makes a difference to a reconcile only where all is up to date. -/
theorem run_reconcile_unforced (m : Model σ) (canceled : Bool) (file : Handle) (s : Session σ) :
    (reconcile m canceled file false).run s =
      if isUpToDate s file then (.ok {}, s) else (reconcile m canceled file true).run s := by
  obtain hcopy | ⟨⟨id, c⟩, hcopy⟩ := Option.eq_none_or_eq_some (s.store.workingCopy? file)
  · simp only [reconcile, run_bind, run_ask, isUpToDate, hcopy]
    rfl
  · obtain hbuffer | ⟨buffer, hbuffer⟩ := Option.eq_none_or_eq_some (s.store.buffer? c.buffer)
    · simp only [reconcile, run_bind, run_ask, isUpToDate, hcopy, hbuffer, Option.any_some]
      rfl
    · simp only [reconcile, run_bind, run_ask, isUpToDate, hcopy, hbuffer, Option.any_some]
      by_cases hcurrent : (c.reconciled == some buffer.version) = true
      · simp [hcurrent]
      · simp [hcurrent]

theorem buildBodies_congr {m' : Model σ} (hvalidate : m'.validate = m.validate) (hbuild : m'.build = m.build) :
    buildBodies m' canceled e snapshot = buildBodies m canceled e snapshot := by
  simp only [buildBodies, validate, hvalidate, hbuild]

/-- A reconcile that fails when its build does had something to do, and it leaves what the build left. -/
theorem isBusy_of_build_failed (htext : s.store.copySnapshot? file = some text)
    (hbuild : (buildBodies m canceled file (some text)).run s = (.error cause, u))
    (hfails : (reconcile m canceled file force).fails s = true) :
    isIdle s file force = false ∧ (reconcile m canceled file force).run s = (.error cause, u) := by
  have hrun : (reconcile m canceled file force).run s =
      if isIdle s file force then (.ok {}, s) else (.error cause, u) :=
    run_reconcile_of_build_failed htext hbuild
  cases hidle : isIdle s file force with
  | true =>
    rw [fails, hrun, hidle] at hfails
    cases hfails
  | false =>
    rw [hidle] at hrun
    exact ⟨rfl, hrun⟩

/-- **The next one**: after a reconcile that failed in its build a version counts as reconciled if it did before,
and one that nobody insists on is skipped just then. -/
theorem run_reconcile_again (h : Untouched s t) (canceled : Bool) :
    (reconcile m canceled file false).run t =
      if isUpToDate s file then (.ok {}, t) else (reconcile m canceled file true).run t := by
  have hsame : isUpToDate t file = isUpToDate s file := by
    simp only [isUpToDate, h.store]
  rw [run_reconcile_unforced, hsame]

end Reconciling

/-! ## Failures -/

/-- **Failed builds leave nothing behind.** An openable element below a parent that is open, if there is one,
an element whose owner is open, and a reconcile of a working copy: if they fail, all is as before, but for the
use of an owner. A reconcile that fails in its build is not told to anybody, and the next one goes to its
build again, unless the version was reconciled before and the next one is not forced. -/
theorem failed_builds_leave_nothing (hm : m.Inward) (s : Session σ) (canceled : Bool) :
    (∀ e, e.openable = true → (∀ p, e.parent? = some p → s.store.isCached p = true) →
      (openBody m canceled e).fails s = true → Untouched s ((openBody m canceled e).leaves s)) ∧
    (∀ e owner, e.openable = false → e.owner? = some owner → s.store.isCached owner = true →
      (openBody m canceled e).fails s = true →
        Untouched { s with store := (s.store.get? owner).2 } ((openBody m canceled e).leaves s)) ∧
    ∀ file force text, s.store.copySnapshot? file = some text →
      (buildBodies m canceled file (some text)).fails s = true →
      (reconcile m canceled file force).fails s = true →
        let t := (reconcile m canceled file force).leaves s
        Untouched s t ∧
        (∀ m' : Model σ, m'.validate = m.validate → m'.build = m.build →
          (reconcile m' canceled file force).run s = (reconcile m canceled file force).run s) ∧
        (force = false → isUpToDate s file = false) ∧
        ∀ canceled', (reconcile m canceled' file false).run t =
          if isUpToDate s file then (.ok {}, t) else (reconcile m canceled' file true).run t := by
  refine ⟨fun e he hp => (failsTo_openBody hm he hp).leaves,
    fun e owner he howner hcached => (failsTo_openBody_owned hm he howner hcached).leaves,
    fun file force text htext hbuild hfails => ?_⟩
  rcases hrun : (buildBodies m canceled file (some text)).run s with ⟨cause | bodies, u⟩
  · obtain ⟨hbusy, hfailed⟩ := isBusy_of_build_failed htext hrun hfails
    have huntouched : Untouched s u := by
      have hleft := untouched_buildBodies hm canceled file (some text) s
      rwa [leaves, hrun] at hleft
    have hleaves : (reconcile m canceled file force).leaves s = u := by rw [leaves, hfailed]
    rw [hleaves]
    refine ⟨huntouched, fun m' hvalidate hbuild' => ?_, fun hforce => ?_, run_reconcile_again huntouched⟩
    · have hrun' : (buildBodies m' canceled file (some text)).run s = (.error cause, u) := by
        rw [buildBodies_congr hvalidate hbuild', hrun]
      rw [run_reconcile_of_build_failed htext hrun', hbusy, hfailed]
      rfl
    · rw [isIdle, hforce, Bool.or_eq_false_iff] at hbusy
      simpa using hbusy.2
  · -- the build came to an end
    simp [fails, hrun, Except.isOk, Except.toBool] at hbuild

/-! ### Files that cannot be built -/

namespace Flaky

/-- A file on its own. -/
def file (name : String) : Handle := Handle.top { name := "file", openable := true } (some name)

/-- What a file says it consists of. -/
def part (file : Handle) : Handle := file.sub { name := "part" } "part"

/-- A build makes the body of the file alone; where the world lists the file it fails after that. -/
def model : Model (List Handle) where
  validate _ _ := .ok ()
  build e _ := do
    putBody e { children := [part e] }
    if (← get).world.any (·.sameChain e) then throw (.doesNotExist e)

theorem inward_model : model.Inward := by
  intro e snapshot s draft drafts hdrafts
  refine ⟨{ draft with bodies := Table.insert draft.bodies e { children := [part e] } }, ?_⟩
  have hput : (putBody e { children := [part e] } : Op (List Handle) Unit).run s =
      (.ok (), { s with store := { s.store with
        drafts :=
          { draft with bodies := Table.insert draft.bodies e { children := [part e] } } :: drafts } }) := by
    rw [putBody, run_modifyStore, Store.modifyDraft, hdrafts]
  simp only [model, run_bind, hput, run_get]
  split <;> exact .refl _

/-- Two files are opened; then another one becomes a working copy. -/
def opened : Session (List Handle) :=
  let s := Session.new { childHeadroom := false } []
  let s := { s with store := { s.store with buffers := [⟨0, [], 0, 0⟩] } }
  let s := (openBody model false (file "a")).leaves s
  let s := (openBody model false (file "b")).leaves s
  (startWorkingCopy model false (file "c") 0 none).leaves s

/-- The buffer has gone on, and neither the working copy nor a file that is not open yet can be built. -/
def stale : Session (List Handle) :=
  { opened with
    store := { opened.store with buffers := opened.store.buffers.map fun b => { b with version := 1 } }
    world := [file "c", file "d"] }

end Flaky

open Flaky in
/-- A file that cannot be built, a part that is missing in its file, and a working copy that cannot be
reconciled. -/
theorem failed_builds_leave_nothing_flaky :
    model.Inward ∧
    ((openBody model false (file "d")).fails stale = true ∧
      Untouched stale ((openBody model false (file "d")).leaves stale)) ∧
    ((openBody model false (part (file "a"))).fails stale = true ∧
      Untouched { stale with store := (stale.store.get? (file "a")).2 }
        ((openBody model false (part (file "a"))).leaves stale) ∧
      stale.store.cache.keys = [file "c", file "b", file "a"] ∧
      (stale.store.get? (file "a")).2.cache.keys = [file "a", file "c", file "b"]) ∧
    (reconcile model false (file "c") false).fails stale = true ∧
      let t := (reconcile model false (file "c") false).leaves stale
      Untouched stale t ∧
        (reconcile model true (file "c") false).run t = (reconcile model true (file "c") true).run t := by
  obtain ⟨hopen, howned, hreconcile⟩ := failed_builds_leave_nothing inward_model stale false
  have htext : stale.store.copySnapshot? (file "c") = some ⟨some 0, 1, []⟩ := by decide +kernel
  have hbuild : (buildBodies model false (file "c") (some ⟨some 0, 1, []⟩)).fails stale = true := by
    decide +kernel
  have hfails : (reconcile model false (file "c") false).fails stale = true := by decide +kernel
  have hd : (openBody model false (file "d")).fails stale = true := by decide +kernel
  have ha : (openBody model false (part (file "a"))).fails stale = true := by decide +kernel
  obtain ⟨huntouched, -, hnews, hnext⟩ := hreconcile (file "c") false _ htext hbuild hfails
  refine ⟨inward_model, ⟨hd, hopen _ rfl (fun p hp => by cases hp) hd⟩,
    ⟨ha, howned _ (file "a") rfl rfl (by decide +kernel) ha, by decide +kernel, by decide +kernel⟩,
    hfails, huntouched, ?_⟩
  rw [hnext true, hnews rfl]
  rfl

open Flaky in
/-- **Forced and given up**: the version was reconciled before, and a reconcile that is forced and fails in
its build does not change that. The next one is skipped unless it is forced as well. -/
theorem forced_failure_forgotten :
    let text : Snapshot := ⟨some 0, 0, []⟩
    let t := (reconcile model true (file "c") true).leaves opened
    opened.store.copySnapshot? (file "c") = some text ∧
    (buildBodies model true (file "c") (some text)).fails opened = true ∧
    (reconcile model true (file "c") true).fails opened = true ∧
    (reconcile model false (file "c") false).run t = (.ok {}, t) ∧
    ((reconcile model false (file "c") true).run t).1.toOption.map (·.reconciled) = some true := by
  intro text t
  have hcurrent : isUpToDate t (file "c") = true := by decide +kernel
  refine ⟨by decide +kernel, by decide +kernel, by decide +kernel, ?_, by decide +kernel⟩
  rw [run_reconcile_unforced, hcurrent]
  rfl

end Session

end CodeModel
