import CodeModel.Proofs.Foo.Desk
import CodeModel.Proofs.Store.Commit

/-!
# Builds of Foo elements

What opening comes to for the elements of Foo projects, as equations between runs.

* A **build** makes bodies and changes nothing (`run_buildBodies`). What it makes is a function of the
  files and of the snapshot it is given (`Project.made`).
* An element without a body is **built and committed** (`run_openFresh`); a declaration whose file is open
  gets the file **built again** from the text its body came from (`run_openOwned`).
* The three levels of the tree are asked for from below: a declaration through its file, a file through
  its project (`run_openBody_declared`, `run_openBody_file_below`).
-/

namespace CodeModel.Foo

open Session

variable {p : Project} {refusal : Refusal} {s : Session Desk} {e f x : Handle} {canceled : Bool}
  {snapshot : Option Snapshot}

/-! ## What a build makes -/

/-- What a build of `e` comes to, given the files: the bodies it makes, or the error that it ends with. Whether it
was canceled is looked at before anything else. -/
def Project.made (p : Project) (files : FileTree) (canceled : Bool) (e : Handle)
    (snapshot : Option Snapshot) : Except Error (Table Body) :=
  if canceled then .error .canceled
  else if snapshot.isNone && !p.hasResource files e then .error (.doesNotExist e)
  else (p.bodies files e snapshot).map Table.ofList

section Drafts

variable {σ : Type} (files : σ → FileTree)

/-- The session with other drafts. -/
def drafted (s : Session σ) (d : Draft) (ds : List Draft) : Session σ :=
  { s with store := { s.store with drafts := d :: ds } }

/-- A build puts its bodies into the draft one after the other; a later one for the same element counts. -/
theorem run_forM_putBody (s : Session σ) (d : Draft) (ds : List Draft)
    (l : List (Handle × Body)) :
    (l.forM fun q => (putBody q.1 q.2 : Op σ Unit)).run (drafted s d ds) =
      (.ok (), drafted s
        { d with bodies := l.foldl (fun t q => Table.insert t q.1 q.2) d.bodies } ds) := by
  induction l generalizing d with
  | nil => rfl
  | cons q l ih => exact ih _

/-- A build changes its draft and nothing else, and what it puts there is told by the files and by the snapshot. -/
theorem run_build (s : Session σ) (d : Draft) (ds : List Draft) (e : Handle)
    (snapshot : Option Snapshot) :
    ((p.model files).build e snapshot).run (drafted s d ds) =
      match p.bodies (files s.world) e snapshot with
      | .ok bodies => (.ok (), drafted s
          { d with bodies := bodies.foldl (fun t q => Table.insert t q.1 q.2) d.bodies } ds)
      | .error error => (.error error, drafted s d ds) := by
  have hbuild : ((p.model files).build e snapshot).run (drafted s d ds) =
      (match p.bodies (files s.world) e snapshot with
        | .ok bodies => bodies.forM fun q => (putBody q.1 q.2 : Op σ Unit)
        | .error error => throw error).run (drafted s d ds) := rfl
  rw [hbuild]
  rcases p.bodies (files s.world) e snapshot with error | bodies
  · rfl
  · exact run_forM_putBody s d ds bodies

/-- What is done with a draft after a build has come to its end. -/
def undrafted (result : Except Error Unit) : Op σ (Table Body) := do
  let draft ← tryStore Store.popDraft
  match result with
  | .error error => throw error
  | .ok () => if draft.canceled then throw .canceled else return draft.bodies

/-- A build in a draft of its own leaves the drafts as they were: what the model puts in goes to the draft, which is
taken off again and made into a table. -/
theorem run_inDraft (s : Session σ) :
    (inDraft ((p.model files).build e snapshot)).run s =
      ((p.bodies (files s.world) e snapshot).map Table.ofList, s) := by
  have hdraft : (inDraft ((p.model files).build e snapshot)).run s =
      (undrafted (((p.model files).build e snapshot).run (drafted s {} s.store.drafts)).1).run
        (((p.model files).build e snapshot).run (drafted s {} s.store.drafts)).2 := rfl
  rw [hdraft, run_build]
  rcases p.bodies (files s.world) e snapshot with error | bodies <;> rfl

end Drafts

/-- **A build** changes nothing; all that comes of it is its answer. So the same build can be thought of as made at
any time, as long as the files are the same. -/
theorem run_buildBodies :
    (buildBodies (p.hosted refusal) canceled e snapshot).run s =
      (p.made s.world.files canceled e snapshot, s) := by
  rw [buildBodies, Project.made]
  cases canceled with
  | true => rfl
  | false =>
    cases snapshot with
    | some sn => exact run_inDraft Desk.files s
    | none =>
      have hseq : (buildBodies (p.hosted refusal) false e none).run s =
          (validate (p.hosted refusal) e >>= fun _ => inDraft ((p.hosted refusal).build e none)).run s :=
        rfl
      have hvalid : (validate (p.hosted refusal) e).run s =
          (if p.hasResource s.world.files e then .ok () else .error (.doesNotExist e), s) := rfl
      rw [← buildBodies, hseq, Op.run_bind, hvalid]
      by_cases hres : p.hasResource s.world.files e = true
      · simp only [hres, if_true]
        exact run_inDraft Desk.files s
      · simp [hres]

/-! ## Opening -/

/-- No build is going on: nothing is in a draft and nothing is claimed, as it is between any two requests. -/
structure Quiet (s : Store) : Prop where
  /-- there are no drafts -/
  drafts : s.drafts = []
  /-- no build is claimed -/
  building : s.building = []

/-- The store after room was made for a build that made `count` bodies, if the settings want it. -/
def roomy (config : Config) (count : Nat) (e : Handle) (s : Store) : Store :=
  if config.childHeadroom then s.raiseCapacity (roomFor config.loadFactor count) e else s

/-- The session with another store. -/
def withStore (s : Session Desk) (store : Store) : Session Desk := { s with store }

/-- What a build of `e` is used for: it is committed, and the body of `e` is the answer. -/
def committing (e : Handle) (made : Except Error (Table Body)) (s : Session Desk) :
    Except Error Body × Session Desk :=
  match made with
  | .error error => (.error error, s)
  | .ok bodies =>
    match Table.get? bodies e with
    | none => (.error (.doesNotExist e), s)
    | some b => (.ok b, withStore s ((roomy s.config bodies.length e s.store).commit e bodies).2)

/-- The model has nothing to do when bodies are dropped, so a session is the same whether they were many or none. -/
theorem run_forM_onClose (evicted : Evicted) (reason : DropReason) (s : Session Desk) :
    (evicted.forM fun q => (((p.hosted refusal).onClose q.1 reason : Action Desk Unit) :
      Op Desk Unit)).run s = (.ok (), s) := by
  induction evicted with
  | nil => rfl
  | cons q evicted ih => exact ih

/-- Committing a build for an element that still has no body: the check for one made meanwhile finds nothing, as a
build changes nothing. -/
theorem run_commitIfAbsent {bodies : Table Body} {b : Body} (h : s.store.cache.peek? e = none) :
    (onStore (fun s : Store =>
        (((s.commitIfAbsent e bodies).1, (s.commitIfAbsent e bodies).2.1),
          (s.commitIfAbsent e bodies).2.2)) >>= fun r : Option Body × Evicted =>
      (r.2.forM fun q => (((p.hosted refusal).onClose q.1 .evicted : Action Desk Unit) :
        Op Desk Unit)) >>= fun _ => pure (r.1.getD b) : Op Desk Body).run s =
      (.ok b, withStore s (s.store.commit e bodies).2) := by
  have hcommit : s.store.commitIfAbsent e bodies = (none, s.store.commit e bodies) := by
    simp [Store.commitIfAbsent, h]
  simp only [Op.run_bind, run_onStore, hcommit, run_forM_onClose]
  rfl

@[simp] theorem entries_raiseCapacity (c : Cache) (n : Nat) (e : Handle) :
    (c.raiseCapacity n e).entries = c.entries := by
  rw [Cache.raiseCapacity]
  split <;> rfl

@[simp] theorem pinned_raiseCapacity (c : Cache) (n : Nat) (e : Handle) :
    (c.raiseCapacity n e).pinned = c.pinned := by
  rw [Cache.raiseCapacity]
  split <;> rfl

/-- Building an element that is claimed: the bodies are made from the snapshot of its working copy, if it is one,
and committed. -/
theorem run_buildFresh (h : s.store.cache.peek? e = none) :
    (buildFresh (p.hosted refusal) canceled e).run s =
      committing e (p.made s.world.files canceled e (s.store.copySnapshot? e)) s := by
  simp only [buildFresh, Op.run_bind, run_ask, run_buildBodies, committing]
  rcases p.made s.world.files canceled e (s.store.copySnapshot? e) with error | bodies
  · rfl
  · simp only [bodyIn]
    rcases Table.get? bodies e with _ | b
    · rfl
    · simp only [Op.run_pure, Op.run_get, roomy]
      split
      · rw [Op.run_bind, run_modifyStore]
        refine run_commitIfAbsent ?_
        rwa [Store.raiseCapacity, Cache.peek?, entries_raiseCapacity]
      · exact run_commitIfAbsent h

/-- The session in which the build of `e` is claimed. -/
def claimed (s : Session Desk) (e : Handle) : Session Desk :=
  withStore s { s.store with building := [e] }

/-- A claim is given back in any case, whether the operation under it succeeds or fails. -/
theorem run_holding {α : Type} {op : Op Desk α} {r : Except Error α} {t : Session Desk}
    (h : op.run (claimed s e) = (r, claimed t e)) (ht : t.store.building = []) :
    (holding e op).run (claimed s e) = (r, t) := by
  have herase : HandleSet.erase [e] e = t.store.building := by simp [HandleSet.erase, ht]
  have hback : withStore (claimed t e) ((claimed t e).store.unclaim e) = t := by
    rw [claimed, withStore, withStore, Store.unclaim, herase]
  simp only [holding, h]
  exact congrArg _ hback

theorem committing_claimed (e : Handle) (made : Except Error (Table Body)) (s : Session Desk) :
    committing e made (claimed s e) = ((committing e made s).1, claimed (committing e made s).2 e) := by
  rcases made with error | bodies
  · rfl
  · simp only [committing]
    rcases Table.get? bodies e with _ | b
    · rfl
    · simp only [roomy]
      by_cases h : s.config.childHeadroom = true
      · rw [if_pos h, if_pos (show (claimed s e).config.childHeadroom = true from h)]
        rfl
      · rw [if_neg h, if_neg (show ¬ (claimed s e).config.childHeadroom = true from h)]
        rfl

theorem building_committing (e : Handle) (made : Except Error (Table Body)) (s : Session Desk) :
    (committing e made s).2.store.building = s.store.building := by
  rcases made with error | bodies
  · rfl
  · simp only [committing]
    rcases Table.get? bodies e with _ | b
    · rfl
    · simp only [roomy]
      split <;> rfl

/-- **Opening** an element that has no body, its parent left aside: it is built, and the build is committed. -/
theorem run_openFresh (hq : Quiet s.store) (h : s.store.cache.peek? e = none) :
    (openFresh (p.hosted refusal) canceled e).run s =
      committing e (p.made s.world.files canceled e (s.store.copySnapshot? e)) s := by
  have hclaim : s.store.claim e = (.ok .claimed, { s.store with building := [e] }) := by
    simp only [Store.claim, h, Store.claimAgain, hq.building]
    rfl
  have hopen : (openFresh (p.hosted refusal) canceled e).run s =
      (holding e (buildFresh (p.hosted refusal) canceled e)).run (claimed s e) := by
    simp only [openFresh, Op.run_bind, run_tryStore, hclaim]
    rfl
  have hbuild : (buildFresh (p.hosted refusal) canceled e).run (claimed s e) = _ :=
    run_buildFresh (s := claimed s e) h
  rw [hopen]
  exact run_holding (hbuild.trans (committing_claimed e _ s))
    ((building_committing e _ s).trans hq.building)

/-- The store after a body was used. -/
def used (s : Session Desk) (e : Handle) : Session Desk :=
  withStore s { s.store with cache := s.store.cache.touch e }

theorem run_get? (hd : s.store.drafts = []) (e : Handle) :
    (onStore (·.get? e) : Op Desk (Option Body)).run s =
      (.ok (s.store.cache.peek? e), used s e) := by
  have hget : s.store.get? e =
      (s.store.cache.peek? e, { s.store with cache := s.store.cache.touch e }) := by
    simp [Store.get?, Store.draftBody?, hd, Cache.get?]
  rw [run_onStore, hget]
  rfl

/-- Looking up what is not there changes nothing. -/
theorem used_of_peek?_eq_none (h : s.store.cache.peek? e = none) : used s e = s := by
  rw [used, Cache.touch_of_peek?_eq_none h]
  rfl

/-- What a rebuild of the file `f` from `snapshot` is used for: the body of `e`. -/
def rebuilding (canceled : Bool) (f : Handle) (snapshot : Snapshot) (e : Handle) (s : Session Desk) :
    Except Error Body × Session Desk :=
  if canceled then (.error .canceled, s)
  else
    match Table.get? (fileTable f snapshot) e with
    | none => (.error (.doesNotExist e), s)
    | some b => (.ok b, withStore s (s.store.commit f (fileTable f snapshot)).2)

/-- What is dropped is told to the model, which has nothing to do. -/
theorem run_evicting (f : Store → Evicted × Store) (s : Session Desk) :
    (evicting (p.hosted refusal) f : Action Desk Unit) s = ((), withStore s (f s.store).2) := by
  have hclose : ∀ (evicted : Evicted) (s : Session Desk),
      (evicted.forM fun q => (p.hosted refusal).onClose q.1 .evicted : Action Desk Unit) s =
        ((), s) := by
    intro evicted s
    induction evicted with
    | nil => rfl
    | cons q evicted ih => exact ih
  exact hclose _ _

theorem run_lift_evicting (f : Store → Evicted × Store) (s : Session Desk) :
    (liftM (evicting (p.hosted refusal) f : Action Desk Unit) : Op Desk Unit).run s =
      (.ok (), withStore s (f s.store).2) :=
  congrArg (fun r : Unit × Session Desk => (Except.ok r.1, r.2)) (run_evicting f s)

/-- What a build of a project makes: its listing, if its directory is there. -/
theorem made_project (hq : IsProject e) (files : FileTree) :
    p.made files canceled e snapshot =
      if canceled then .error .canceled
      else if snapshot.isNone && !p.hasResource files e then .error (.doesNotExist e)
      else (p.body files e).map fun b => [(e, b)] := by
  have hbodies : p.bodies files e snapshot = (p.body files e).map fun b => [(e, b)] := by
    simp only [Project.bodies, hq.kind]
    rcases p.body files e with error | b <;> rfl
  rw [Project.made, hbodies]
  rcases p.body files e with error | b <;> rfl

/-- What a build of a file makes from the files: the bodies of its text, if it is there. -/
theorem made_none_file (hf : IsFile f) (files : FileTree) :
    p.made files canceled f none =
      if canceled then .error .canceled
      else if p.hasResource files f then
        (p.text files f).map fun text => fileTable f (Snapshot.detached text)
      else .error (.doesNotExist f) := by
  have hbodies : p.bodies files f none =
      (p.text files f).map fun text => fileBodies f (Snapshot.detached text) := by
    simp only [Project.bodies, hf.kind]
    rcases p.text files f with error | text <;> rfl
  rw [Project.made, hbodies]
  by_cases hres : p.hasResource files f = true
  · rcases p.text files f with error | text <;> simp [hres] <;> rfl
  · simp [hres]

/-- What a build of a file makes from a snapshot; it does not look at the files. -/
theorem made_some_file (hf : IsFile f) (files : FileTree) (sn : Snapshot) :
    p.made files canceled f (some sn) =
      if canceled then .error .canceled else .ok (fileTable f sn) := by
  rw [Project.made]
  split
  · rfl
  · simp only [Option.isNone_some, Bool.false_and, Bool.false_eq_true, if_false, Project.bodies, hf.kind]
    rfl

/-- Building a file again for the sake of a body that is missing. The text is that of the file's body, and not the
one that the file may have by now. -/
theorem run_buildAgain {ob : Body} {sn : Snapshot} (hd : s.store.drafts = []) (hf : IsFile f)
    (he : s.store.cache.peek? e = none) (ho : s.store.cache.peek? f = some (ownBody f sn)) :
    (buildAgain (p.hosted refusal) canceled f ob e).run s =
      rebuilding canceled f sn e (used s f) := by
  rw [buildAgain, Op.run_bind, run_get? hd, he, used_of_peek?_eq_none he]
  simp only [Op.run_bind, run_get? hd, ho, Option.getD_some, snapshot?_ownBody, Option.some_or,
    run_ask, run_buildBodies, made_some_file hf, rebuilding]
  cases canceled with
  | true => rfl
  | false =>
    simp only [Bool.false_eq_true, if_false, bodyIn]
    rcases Table.get? (fileTable f sn) e with _ | b
    · rfl
    · simp only [Op.run_pure, run_lift_evicting]

/-- Claims have nothing to do with building again. -/
theorem rebuilding_claimed (canceled : Bool) (f : Handle) (sn : Snapshot) (e : Handle)
    (s : Session Desk) :
    rebuilding canceled f sn e (claimed s f) =
      ((rebuilding canceled f sn e s).1, claimed (rebuilding canceled f sn e s).2 f) := by
  simp only [rebuilding]
  split
  · rfl
  · rcases Table.get? (fileTable f sn) e with _ | b <;> rfl

theorem building_rebuilding (canceled : Bool) (f : Handle) (sn : Snapshot) (e : Handle)
    (s : Session Desk) : (rebuilding canceled f sn e s).2.store.building = s.store.building := by
  simp only [rebuilding]
  split
  · rfl
  · rcases Table.get? (fileTable f sn) e with _ | b <;> rfl

/-- **A declaration** gets its body from its file, which is open: the file is built again from the text that it was
built from, since declarations can be evicted on their own. -/
theorem run_openOwned {ob : Body} {sn : Snapshot} (hq : Quiet s.store) (hf : IsFile f)
    (he : s.store.cache.peek? e = none) (ho : s.store.cache.peek? f = some (ownBody f sn)) :
    (openOwned (p.hosted refusal) canceled f ob e).run s =
      rebuilding canceled f sn e (used s f) := by
  have hclaim : s.store.claimAgain f = (.ok (), { s.store with building := [f] }) := by
    simp only [Store.claimAgain, hq.building]
    rfl
  have hopen : (openOwned (p.hosted refusal) canceled f ob e).run s =
      (holding f (buildAgain (p.hosted refusal) canceled f ob e)).run (claimed s f) := by
    rw [openOwned, Op.run_bind, run_get? hq.drafts, he, used_of_peek?_eq_none he]
    simp only [Op.run_bind, run_tryStore, hclaim]
    rfl
  have hbuild : (buildAgain (p.hosted refusal) canceled f ob e).run (claimed s f) = _ :=
    run_buildAgain (s := claimed s f) hq.drafts hf he ho
  rw [hopen]
  exact run_holding (hbuild.trans (rebuilding_claimed canceled f sn e (used s f)))
    ((building_rebuilding canceled f sn e _).trans hq.building)

theorem run_openOwned_cached {ob b : Body} (hq : Quiet s.store)
    (he : s.store.cache.peek? e = some b) :
    (openOwned (p.hosted refusal) canceled f ob e).run s = (.ok b, used s e) := by
  rw [openOwned, Op.run_bind, run_get? hq.drafts, he]
  rfl

/-! ## Asking for a body -/

theorem run_openBody_cached {b : Body} (hd : s.store.drafts = [])
    (h : s.store.cache.peek? e = some b) :
    (openBody (p.hosted refusal) canceled e).run s = (.ok b, used s e) := by
  rw [openBody, Op.run_bind, run_get? hd, h]
  rfl

/-- A project is opened by itself, for it has no parent that could be opened before. -/
theorem run_openBody_project (hd : s.store.drafts = []) (he : IsProject e)
    (h : s.store.cache.peek? e = none) :
    (openBody (p.hosted refusal) canceled e).run s =
      (openFresh (p.hosted refusal) canceled e).run s := by
  rw [openBody, Op.run_bind, run_get? hd, h, used_of_peek?_eq_none h]
  simp only
  rw [dif_pos he.openable]
  split
  · rfl
  · rename_i q hq
    rw [he.parent] at hq
    cases hq

/-- A file whose project is open is opened by itself: its ancestors are found in the cache and need not be built. -/
theorem run_openBody_file {q : Handle} (hd : s.store.drafts = []) (he : IsFile e)
    (hpar : e.parent? = some q) (h : s.store.cache.peek? e = none)
    (hc : s.store.isCached q = true) :
    (openBody (p.hosted refusal) canceled e).run s =
      (openFresh (p.hosted refusal) canceled e).run s := by
  rw [openBody, Op.run_bind, run_get? hd, h, used_of_peek?_eq_none h]
  simp only
  rw [dif_pos he.openable]
  split
  · rename_i hq
    exact absurd (hpar.symm.trans hq) (by simp)
  · rename_i q' hq
    obtain rfl := Option.some.inj (hpar.symm.trans hq)
    simp only [Op.run_bind, run_ask, hc, if_true]

/-- A file whose project is not open is opened after it. If that fails the file is not opened either, and the error
is that of the project. -/
theorem run_openBody_file_below {q : Handle} (hd : s.store.drafts = []) (he : IsFile e)
    (hpar : e.parent? = some q) (h : s.store.cache.peek? e = none)
    (hc : s.store.isCached q = false) :
    (openBody (p.hosted refusal) canceled e).run s =
      match (openBody (p.hosted refusal) canceled q).run s with
      | (.error error, t) => (.error error, t)
      | (.ok _, t) =>
        (onStore (·.get? e) >>= fun b? : Option Body =>
          match b? with
          | some b => pure b
          | none => openFresh (p.hosted refusal) canceled e : Op Desk Body).run t := by
  rw [openBody, Op.run_bind, run_get? hd, h, used_of_peek?_eq_none h]
  simp only
  rw [dif_pos he.openable]
  split
  · rename_i hq
    exact absurd (hpar.symm.trans hq) (by simp)
  · rename_i q' hq
    obtain rfl := Option.some.inj (hpar.symm.trans hq)
    simp only [Op.run_bind, run_ask, hc, Bool.false_eq_true, if_false]
    rcases (openBody (p.hosted refusal) canceled q).run s with ⟨_ | _, t⟩ <;> rfl

/-- A declaration is asked for after its file: what opening the file comes to decides whether there is anything to
get it from. -/
theorem run_openBody_declared (hd : s.store.drafts = []) (hf : IsFile f) (he : DeclaredIn f e)
    (h : s.store.cache.peek? e = none) :
    (openBody (p.hosted refusal) canceled e).run s =
      match (openBody (p.hosted refusal) canceled f).run s with
      | (.error error, t) => (.error error, t)
      | (.ok ob, t) => (openOwned (p.hosted refusal) canceled f ob e).run t := by
  rw [openBody, Op.run_bind, run_get? hd, h, used_of_peek?_eq_none h]
  simp only
  rw [dif_neg (by simp [he.not_openable])]
  split
  · rename_i ho
    rw [he.owner hf] at ho
    cases ho
  · rename_i o ho
    obtain rfl := Option.some.inj ((he.owner hf).symm.trans ho)
    rw [Op.run_bind]
    rcases (openBody (p.hosted refusal) canceled f).run s with ⟨_ | _, t⟩ <;> rfl

end CodeModel.Foo
