import CodeModel.Proofs.Foo.Lifecycle

/-!
# Requests keep sessions coherent

Every request takes a coherent session to a coherent one, whatever is answered, and spares all working
copies but the one it is about (`perform_spares`).

* What a request for a **working copy** comes to is written out first (`starting`, `run_start`,
  `run_reconcile_coherent`): these are the requests that change what is in force.
* All other requests are **turnovers**, or a matter of references and edits.
-/

namespace CodeModel.Foo

open Session

variable {std : Standard} {p : Project} {refusal : Refusal} {s : Session Desk} {e : Handle}
  {canceled : Bool} {bodies : Table Body} {id : CopyId} {c : WorkingCopy} {b : Buffer}
  {files : FileTree} {snapshot : Option Snapshot}

/-! ## Becoming a working copy -/

/-- A build of a project or of a file makes a body for it, whatever else it makes. -/
theorem contains_of_made (he : IsProject e ∨ IsFile e)
    (h : p.made files canceled e snapshot = .ok bodies) : Table.contains bodies e = true := by
  rcases he with hq | hf
  · rw [made_project hq] at h
    split at h
    · cases h
    · split at h
      · cases h
      · rcases hb : p.body files e with error | body <;> rw [hb] at h <;> cases h
        simp [Table.contains, Table.get?]
  · have htable : ∀ sn, Table.contains (fileTable e sn) e = true := by
      intro sn
      simp [Table.contains, get?_fileTable_self]
    rcases snapshot with _ | sn
    · rw [made_none_file hf] at h
      split at h
      · cases h
      · split at h
        · rcases ht : p.text files e with error | text <;> rw [ht] at h <;> cases h
          exact htable _
        · cases h
    · rw [made_some_file hf] at h
      split at h <;> cases h
      exact htable sn

/-- What becoming a working copy on the buffer `b` comes to. Enrolment, build, commit and callback are written out
in their order, with both ways in which it can fail. -/
def starting (p : Project) (refusal : Refusal) (canceled : Bool) (e : Handle) (buffer : BufferId)
    (b : Buffer) (callback : Option CallbackId) (s : Session Desk) : Except Error Bool × Session Desk :=
  let id := s.store.copies.length
  let enrolment := withStore s (enrolled s.store e buffer callback)
  match p.made s.world.files canceled e (some b.snapshot) with
  | .error error => withdrawn id error enrolment
  | .ok bodies =>
    match consented refusal id callback (structured id e bodies b.version enrolment) with
    | (.error error, t) => withdrawn id error t
    | (.ok (), t) =>
      (.ok true, launched id
        (startEvent e (s.store.isCached e || p.hasResource s.world.files e)) t)

/-- **Becoming a working copy** comes to just that, if the element is none yet: an enrolment, a build from the text
of the buffer, and a launch or a withdrawal. -/
theorem run_start {buffer : BufferId} {callback : Option CallbackId} (he : IsProject e ∨ IsFile e)
    (hnone : s.store.copyOf? e = none) (hb : s.store.buffer? buffer = some b) :
    (startWorkingCopy (p.hosted refusal) canceled e buffer callback).run s =
      starting p refusal canceled e buffer b callback s := by
  have hopen : e.openable = true := he.elim IsProject.openable IsFile.openable
  have hsetUp : (setUp (p.hosted refusal) canceled s.store.copies.length e).run
      (withStore s (enrolled s.store e buffer callback)) = _ :=
    run_setUp (copy?_enrolled s.store e buffer callback) (buffer?_enrolled e callback hb)
  rw [run_startWorkingCopy_new hopen hnone, hsetUp, starting]
  have hsnapshot : b.retain.snapshot = b.snapshot := rfl
  have hfiles : (withStore s (enrolled s.store e buffer callback)).world = s.world := rfl
  rw [hsnapshot, hfiles]
  rcases hmade : p.made s.world.files canceled e (some b.snapshot) with error | bodies
  · rfl
  · simp only [contains_of_made he hmade, if_true]
    have hversion : b.retain.version = b.version := rfl
    rw [hversion]
    rcases consented refusal s.store.copies.length callback (structured s.store.copies.length e bodies
      b.version (withStore s (enrolled s.store e buffer callback))) with ⟨error | _, t⟩ <;> rfl

theorem store_consented (refusal : Refusal) (id : CopyId) (callback : Option CallbackId)
    (s : Session Desk) : (consented refusal id callback s).2.store = s.store := by
  cases callback <;> rfl

theorem withdrawn_error (id : CopyId) (error : Error) (s : Session Desk) :
    ∃ cause, (withdrawn id error s).1 = .error cause := by
  rw [withdrawn]
  rcases ((s.store.discard id).modifyCopy id fun c => { c with init := .failed }).releaseStray id with
    ⟨cause | r, store⟩
  · exact ⟨cause, rfl⟩
  · exact ⟨error, rfl⟩

/-- To take a working copy back leaves the files alone. -/
theorem files_withdrawn (id : CopyId) (error : Error) (s : Session Desk) :
    (withdrawn id error s).2.world.files = s.world.files := by
  rw [withdrawn]
  rcases ((s.store.discard id).modifyCopy id fun c => { c with init := .failed }).releaseStray id with
    ⟨cause | r, store⟩ <;> rfl

theorem files_consented (refusal : Refusal) (id : CopyId) (callback : Option CallbackId)
    (s : Session Desk) : (consented refusal id callback s).2.world.files = s.world.files := by
  cases callback <;> rfl

/-- Becoming a working copy leaves the files alone. -/
theorem files_starting (p : Project) (refusal : Refusal) (canceled : Bool) (e : Handle)
    (buffer : BufferId) (b : Buffer) (callback : Option CallbackId) (s : Session Desk) :
    (starting p refusal canceled e buffer b callback s).2.world.files = s.world.files := by
  rw [starting]
  rcases p.made s.world.files canceled e (some b.snapshot) with error | bodies
  · exact files_withdrawn _ _ _
  · have hfiles := files_consented refusal s.store.copies.length callback
      (structured s.store.copies.length e bodies b.version
        (withStore s (enrolled s.store e buffer callback)))
    simp only
    generalize consented refusal s.store.copies.length callback
      (structured s.store.copies.length e bodies b.version
        (withStore s (enrolled s.store e buffer callback))) = consent at hfiles
    rcases consent with ⟨error | _, t⟩
    · exact (files_withdrawn _ _ _).trans hfiles
    · exact hfiles

/-- **Becoming a working copy** either succeeds, with the structure of the buffer, or leaves nothing behind. There
are two ways to fail. If nothing could be built the element goes back to what it was, without the bodies it had; if
the callback refuses, the bodies that were committed go out again. -/
theorem Coherent.starting {buffer : BufferId} (refusal : Refusal) (canceled : Bool)
    (callback : Option CallbackId) (h : Coherent std s.store) (ha : std.Admits p s.world.files)
    (he : IsProject e ∨ IsFile e) (hb : s.store.buffer? buffer = some b) :
    let r := starting p refusal canceled e buffer b callback s
    (∃ bodies, p.made s.world.files canceled e (some b.snapshot) = .ok bodies ∧ r.1 = .ok true ∧
      Restructured std e bodies s.store.copies.length
        { element := e, buffer, callback, refs := 1, init := .ready, reconciled := some b.version }
        b.retain s.store r.2.store) ∨
    (∃ error, r.1 = .error error) ∧ Dissolved std e s.store r.2.store := by
  simp only [Foo.starting]
  rcases hmade : p.made s.world.files canceled e (some b.snapshot) with error | bodies
  · -- nothing was built
    exact .inr ⟨withdrawn_error _ _ _, h.unbuilt he rfl⟩
  · have hlaunch := h.launch callback ha he hb hmade
    have hstore := store_consented refusal s.store.copies.length callback
      (structured s.store.copies.length e bodies b.version
        (withStore s (enrolled s.store e buffer callback)))
    simp only
    generalize consented refusal s.store.copies.length callback
      (structured s.store.copies.length e bodies b.version
        (withStore s (enrolled s.store e buffer callback))) = consent at hstore
    rcases consent with ⟨error | _, t⟩
    · -- the callback refused what was built
      exact .inr ⟨withdrawn_error _ _ _, h.refused he hlaunch.batch rfl hstore⟩
    · have hready : (launched s.store.copies.length
          (startEvent e (s.store.isCached e || p.hasResource s.world.files e)) t).store =
          (outfitted s.store e buffer callback bodies b.version).modifyCopy s.store.copies.length
            fun c => { c with init := .ready } :=
        congrArg (fun u : Store => u.modifyCopy s.store.copies.length fun c =>
          { c with init := .ready }) hstore
      refine .inl ⟨bodies, rfl, rfl, ?_⟩
      rw [hready]
      exact hlaunch

/-! ## References -/

theorem Coherent.retainCopy {store : Store} (h : Coherent std store) (id : CopyId) :
    Coherent std (store.retainCopy id) ∧ Spared (fun _ => False) store (store.retainCopy id) :=
  h.upkeep (upkeep_retainCopy store id) (retainCopy_aside store store id).symm

/-- **Releasing** is the end of the working copy, or a matter of references that leaves the cache as it is. A buffer
that refuses leaves the cache alone, too. -/
theorem Coherent.release {store : Store} (h : Coherent std store) (he : e.Plain lexicon) :
    Dissolved std e store (store.release e).2 ∨
      (Coherent std (store.release e).2 ∧ Spared (fun _ => False) store (store.release e).2) ∧
        (store.release e).2.cache = store.cache := by
  rw [Store.release]
  rcases hid : store.copyOf? e with _ | id
  · exact .inr ⟨⟨h, Spared.refl store⟩, rfl⟩
  · obtain ⟨hopen, c, b, hin⟩ := h.registered he hid
    have hu : Upkeep (fun _ => False) store (store.releaseCopy id).2 := upkeep_releaseCopy store id
    have hrest : aside (store.releaseCopy id).2 store = (store.releaseCopy id).2 :=
      (congrArg Prod.snd (releaseCopy_aside store store id)).symm
    have hcache : (store.releaseCopy id).2.cache = (aside (store.releaseCopy id).2 store).cache :=
      congrArg Store.cache hrest.symm
    have hkept := h.upkeep hu hrest
    simp only
    generalize store.releaseCopy id = r at hu hrest hcache hkept
    rcases r with ⟨error | _ | n, t⟩
    · exact .inr ⟨hkept, hcache⟩
    · -- the last reference takes the registration along
      obtain ⟨m, hcopy⟩ := hu.copy hin.copy not_false
      obtain ⟨hcoh, -⟩ := hkept
      replace hcache : t.cache = store.cache := hcache
      refine .inl (h.unregister hopen (hu.mono fun _ => False.elim) hcoh.quiet hcoh.registry hcoh.pins
        (fun k hk => hcache.symm ▸ hk) (hcache.symm ▸ h.faithful.waiving e)
        (fun _ _ _ _ => by rw [hcache]) (upkeep_disposeCopy fun c' hc' => ?_) rfl)
      cases hcopy.symm.trans (show t.copy? id = some c' from hc')
      exact hin.element
    · exact .inr ⟨hkept, hcache⟩

/-! ## Reconciling -/

/-- **Reconciling** a working copy that is due: it fails to build and changes nothing, or it commits what was built
and reports the differences. There is no third way, since the differences can always be told. -/
theorem run_reconcile_coherent {force : Bool} (refusal : Refusal) (canceled : Bool)
    (h : Coherent std s.store) (ha : std.Admits p s.world.files) (he : IsElement e)
    (hin : InForce s.store e id c b)
    (hdue : (!force && c.reconciled == some b.version) = false) :
    match p.made s.world.files canceled e (some b.snapshot) with
    | .error error =>
      (reconcile (p.hosted refusal) canceled e force).run s = (.error error, s)
    | .ok bodies =>
      let t := structured id e bodies b.version s
      Restructured std e bodies id { c with reconciled := some b.version } b s.store t.store ∧
      ∃ delta, differences s.config.reconcileDepth e s.store.cache.entries t.store.cache.entries =
          .ok delta ∧
        (reconcile (p.hosted refusal) canceled e force).run s =
          (.ok (reported id delta t).1, (reported id delta t).2) := by
  have hrun : (reconcile (p.hosted refusal) canceled e force).run s = _ :=
    run_reconcile hin.registered hin.copy hin.buffer hin.isReady
  rw [hrun, hdue, run_rebuild h.quiet.drafts hin.registered hin.copy hin.element hin.live]
  rcases hmade : p.made s.world.files canceled e (some b.snapshot) with error | bodies
  · rfl
  · have hcommitted := h.committed ha hin he hmade
    obtain ⟨delta, hdelta⟩ := differences_ok h hcommitted.coherent he s.config.reconcileDepth
    refine ⟨hcommitted, delta, hdelta, ?_⟩
    -- noting the version is no matter of the cache
    have hentries : differences s.config.reconcileDepth e s.store.cache.entries
        (s.store.commit e bodies).2.cache.entries = .ok delta := hdelta
    simp only [hentries]
    rfl

/-! ## All requests -/

/-- The element whose working copy a request may change. -/
def Request.subject? {n : Nat} : Request n → Option Handle
  | .start file _ _ _ => some file
  | .release file => some file
  | .reconcile file _ _ => some file
  | _ => none

/-- **Edits** of buffers, and owners that come and go: the structures stay as they are, and the buffers go on. -/
theorem Coherent.changed {f : Buffer → Except BufferError Buffer} {buffer : BufferId}
    (h : Coherent std s.store) (hf : ∀ b b', f b = .ok b' → Later b b') :
    Coherent std (changed buffer f s).2.store ∧
      Spared (fun _ => False) s.store (changed buffer f s).2.store := by
  rw [Foo.changed]
  rcases hb : s.store.buffer? buffer with _ | b
  · exact ⟨h, Spared.refl _⟩
  · rcases hfb : f b with error | b'
    · simp only [Option.map_some, hfb]
      exact ⟨h, Spared.refl _⟩
    · simp only [Option.map_some, hfb]
      refine h.upkeep (upkeep_modifyBuffer fun b₀ hb₀ => ?_) rfl
      cases hb.symm.trans hb₀
      exact hf b b' hfb

/-- A reconcile keeps a store coherent and is about one working copy only. -/
theorem Coherent.reconcile {force : Bool} (h : Coherent std s.store)
    (ha : std.Admits p s.world.files) (he : IsElement e) :
    Coherent std ((reconcile (p.hosted refusal) canceled e force).run s).2.store ∧
      Spared (· = e) s.store ((reconcile (p.hosted refusal) canceled e force).run s).2.store := by
  rcases hid : s.store.copyOf? e with _ | id
  · rw [run_reconcile_of_none hid]
    exact ⟨h, Spared.refl _⟩
  · obtain ⟨c, b, hin⟩ := h.inForce he.plain hid
    by_cases hdue : (!force && c.reconciled == some b.version) = true
    · rw [run_reconcile hin.registered hin.copy hin.buffer hin.isReady, if_pos hdue]
      exact ⟨h, Spared.refl _⟩
    · have hrun := run_reconcile_coherent refusal canceled h ha he hin (Bool.not_eq_true _ ▸ hdue)
      split at hrun
      · rw [hrun]
        exact ⟨h, Spared.refl _⟩
      · obtain ⟨hre, delta, -, hrun⟩ := hrun
        rw [hrun, reported]
        split <;> exact ⟨hre.coherent, hre.spared⟩

/-- Becoming a working copy keeps a store coherent and is about one working copy only, whether it succeeds or fails.
-/
theorem Coherent.startWorkingCopy {buffer : BufferId} (refusal : Refusal) (canceled : Bool)
    (callback : Option CallbackId) (h : Coherent std s.store) (ha : std.Admits p s.world.files)
    (he : IsElement e) (hb : s.store.buffer? buffer = some b) :
    let t := ((startWorkingCopy (p.hosted refusal) canceled e buffer callback).run s).2
    Coherent std t.store ∧ Spared (· = e) s.store t.store := by
  by_cases ho : e.openable = true
  · rcases hid : s.store.copyOf? e with _ | id
    · rw [run_start (he.of_openable ho) hid hb]
      rcases h.starting refusal canceled callback ha (he.of_openable ho) hb with
        ⟨bodies, -, -, hre⟩ | ⟨-, hgone⟩
      · exact ⟨hre.coherent, hre.spared⟩
      · exact ⟨hgone.coherent, hgone.spared⟩
    · -- it is a working copy already, and gets one more reference
      obtain ⟨c, b, hin⟩ := h.inForce he.plain hid
      rw [run_startWorkingCopy_again ho hid hin.copy hin.isReady]
      obtain ⟨hcoh, hspared⟩ := h.retainCopy id
      exact ⟨hcoh, hspared.mono fun _ => False.elim⟩
  · rw [run_startWorkingCopy_of_not_openable (by simpa using ho)]
    exact ⟨h, Spared.refl _⟩

/-- Releasing keeps a store coherent and is about one working copy only. -/
theorem Coherent.release_spares {store : Store} (h : Coherent std store) (he : e.Plain lexicon) :
    Coherent std (store.release e).2 ∧ Spared (· = e) store (store.release e).2 := by
  rcases h.release he with hgone | ⟨⟨hcoh, hspared⟩, -⟩
  · exact ⟨hgone.coherent, hgone.spared⟩
  · exact ⟨hcoh, hspared.mono fun _ => False.elim⟩

/-- What a release does to the store is what the store does; the rest is notices. -/
theorem store_releaseWorkingCopy :
    ((releaseWorkingCopy (p.hosted refusal) e).run s).2.store = (s.store.release e).2 := by
  rw [run_releaseWorkingCopy]
  rcases s.store.release e with ⟨_ | _ | _, store⟩ <;> rfl

/-- Acquiring keeps a store coherent and changes no bodies. All it does is to count one more reference, if there is
a working copy that can be used. -/
theorem Coherent.acquireWorkingCopy (h : Coherent std s.store) (he : IsElement e) :
    let t := ((acquireWorkingCopy (p.hosted refusal) e : Action Desk (Option CopyId)) s).2
    Coherent std t.store ∧ Spared (fun _ => False) s.store t.store := by
  rcases hid : s.store.copyOf? e with _ | id
  · rw [run_acquireWorkingCopy_of_none hid]
    exact ⟨h, Spared.refl _⟩
  · obtain ⟨c, b, hin⟩ := h.inForce he.plain hid
    rw [run_acquireWorkingCopy hid hin.copy hin.isReady]
    exact h.retainCopy id

/-- **Closing** is a turnover of the cache: working copies cannot be closed, and what can be closed has none in its
tree. -/
theorem Coherent.closed (h : Coherent std s.store) (he : IsElement e) :
    ∃ a t, (Session.close (p.hosted refusal) e).run s = (a, withStore s t) ∧
      Turnover std s.store t := by
  rw [run_close]
  split
  · rename_i ho
    split
    · exact ⟨_, s.store, rfl, Turnover.refl h⟩
    · rename_i hreg
      have hnone : s.store.copyOf? e = none := by simpa using hreg
      exact ⟨_, _, rfl, h.close (he.of_openable ho) hnone _⟩
  · exact ⟨_, s.store, rfl, Turnover.refl h⟩

/-- The request spares all working copies but the one it is about. -/
def Request.Spares {n : Nat} (std : Standard) (r : Request n) (s t : Store) : Prop :=
  Coherent std t ∧ Spared (r.subject? = some ·) s t

/-- **Every request** keeps a session coherent and spares all working copies but the one it is about. The cases are
the kinds of requests. Queries and closings are turnovers of the cache, edits and references leave it alone, and
what is done to a working copy has been dealt with above. -/
theorem perform_spares {n : Nat} (refusal : Refusal) (h : Coherent std s.store)
    (ha : std.Admits p s.world.files) (hn : s.store.buffers.length = n) (r : Request n) :
    r.Spares std s.store (perform (p.hosted refusal) r s).2.store := by
  -- there are four kinds of requests: about nobody, about one element, queries, and those that only look
  have hnobody : ∀ {r : Request n} {t : Store},
      Coherent std t ∧ Spared (fun _ => False) s.store t → r.Spares std s.store t :=
    fun ht => ⟨ht.1, ht.2.mono fun _ => False.elim⟩
  have hsubject : ∀ {r : Request n} {t : Store} {e : Handle}, r.subject? = some e →
      Coherent std t ∧ Spared (· = e) s.store t → r.Spares std s.store t :=
    fun hr ht => ⟨ht.1, ht.2.mono fun _ he => hr.trans (congrArg some he.symm)⟩
  have hquery : ∀ {α : Type} {x : Op Desk α} {f : Except Error α → Answer} {r : Request n},
      (∃ a t, x.run s = (a, withStore s t) ∧ Turnover std s.store t) →
      r.Spares std s.store (answered f x s).2.store := by
    rintro α x f r ⟨a, t, hrun, hturn⟩
    rw [answered, hrun]
    exact hnobody ⟨hturn.coherent, hturn.spared⟩
  have hnothing : ∀ {r : Request n}, r.Spares std s.store s.store := ⟨h, Spared.refl _⟩
  cases r with
  | body e canceled =>
    obtain ⟨a, t, hrun, hopen⟩ := run_openBody refusal canceled h ha e.2
    exact hquery ⟨a, t, hrun, hopen.turnover⟩
  | children e => exact hquery ((isQuery_children e.2).turnover h ha)
  | isPresent e =>
    obtain ⟨t, hrun, hturn⟩ := run_isPresent refusal h ha e.2
    exact hquery ⟨_, t, hrun, hturn⟩
  | sourceText e => exact hquery ((isQuery_sourceText e.2).turnover h ha)
  | innermostAt file position base =>
    exact hquery ((isQuery_innermostAt position base file.2).turnover h ha)
  | close e => exact hquery (h.closed e.2)
  | start file buffer callback canceled =>
    have hlt : buffer.1 < s.store.buffers.length := hn ▸ buffer.2
    exact hsubject rfl
      (h.startWorkingCopy refusal canceled callback ha file.2 (List.getElem?_eq_getElem hlt))
  | release file =>
    refine hsubject rfl ?_
    rw [perform, answered, store_releaseWorkingCopy]
    exact h.release_spares file.2.plain
  | acquire file => exact hnobody (h.acquireWorkingCopy file.2)
  | isWorkingCopy file => exact hnothing
  | workingCopyBuffer file => exact hnothing
  | workingCopies => exact hnothing
  | reconcile file force canceled => exact hsubject rfl (h.reconcile ha file.2)
  | edit buffer change => exact hnobody (h.changed fun b b' => later_applyChange)
  | setText buffer text =>
    refine hnobody (h.changed fun b b' hb => ?_)
    cases hb
    exact later_setText b text
  | retainBuffer buffer =>
    refine hnobody (h.changed fun b b' hb => ?_)
    cases hb
    exact later_retain b
  | releaseBuffer buffer => exact hnobody (h.changed fun b b' => later_release)
  | listen l kinds => exact hnothing
  | unlisten l => exact hnothing
  | files t => exact hnothing

end CodeModel.Foo
