import CodeModel.Proofs.Foo.FixedFiles
import CodeModel.Proofs.Foo.Recached

/-!
# Caching cannot be observed

Two sessions on the same files that differ in how much they cache, and in the order in which builds fill their
caches, cannot be told apart by what they answer and by what they tell the outside (`run_transparent`).

The proof runs both sessions side by side. Their caches drift apart as soon as one of them has to drop a body, so
no relation between the caches as a whole can be kept up. What can be kept up is enough, though:

* **Twins** are sessions that differ in their caches, but agree in the bodies of working copies. All other
  cached bodies are what a build would make now, so twins give the same answers (`Twin.answer`): what the one
  has to build, the other has at hand.
* Each request leaves twins **twins** (`perform_lockstep`), although it may drop bodies on one side and
  build them on the other. The bodies of working copies are pinned, so they are dropped on neither.
* What is asked for must not be given up half-way, and the **files** have to stay as they are: a cached body
  is there at once, and may be out of date.
-/

namespace CodeModel.Foo

open Session

variable {p : Project} {refusal : Refusal} {files : FileTree} {s t s' t' : Session Desk} {e f q x : Handle}
  {canceled : Bool} {b : Buffer} {u v : Store} {besides : Handle → Prop} {n : Nat}

/-! ## Twins -/

/-- **Twins**: sessions that differ in their caches, but not in the bodies of working copies. This is as much as two
caches of different size can have in common, for anything else may be dropped on one side. It is enough because both
sides are coherent on the same files: a body of anything but a working copy, cached or not, is the one that a build
would make now. The bodies of working copies are what a build cannot bring back, since buffers go on; these are the
ones that have to agree. -/
structure Twin (p : Project) (files : FileTree) (s t : Session Desk) : Prop where
  /-- they differ in their caches -/
  same : Same s t
  /-- both are on the same files -/
  onFiles : s.world.files = files
  /-- the one is coherent -/
  left : Coherent (fixedFiles p files) s.store
  /-- and so is the other -/
  right : Coherent (fixedFiles p files) t.store
  /-- the bodies of what is a working copy agree, with those of the declarations in it -/
  held : ∀ {e x}, e.Plain lexicon → (s.store.copyOf? e).isSome = true → IsElement x →
    x = e ∨ DeclaredIn e x → t.store.cache.peek? x = s.store.cache.peek? x

/-- The files of twins meet the standard that their caches are kept to. -/
theorem Twin.admits (h : Twin p files s t) : (fixedFiles p files).Admits p s.world.files :=
  h.onFiles.symm ▸ admits_fixedFiles p files

theorem Twin.admits' (h : Twin p files s t) : (fixedFiles p files).Admits p t.world.files :=
  h.same.world.symm ▸ h.admits

/-- **Twins stay twins** if all working copies but some are spared on both sides, and those few are treated alike.
So an operation has to be looked at only where it does something to a working copy, and that the other bodies of the
caches go their own ways does not matter. -/
theorem Twin.next (h : Twin p files s t) (hsame : Same s' t') (hfiles : s'.world.files = s.world.files)
    (hleft : Coherent (fixedFiles p files) s'.store) (hright : Coherent (fixedFiles p files) t'.store)
    (hs : Spared besides s.store s'.store) (ht : Spared besides t.store t'.store)
    (hbesides : ∀ {e x}, besides e → (s'.store.copyOf? e).isSome = true → IsElement x →
      x = e ∨ DeclaredIn e x → t'.store.cache.peek? x = s'.store.cache.peek? x) :
    Twin p files s' t' := by
  refine ⟨hsame, hfiles.trans h.onFiles, hleft, hright, fun {e x} he hheld hx hxe => ?_⟩
  by_cases hne : besides e
  · exact hbesides hne hheld hx hxe
  · rw [hs.copyOf he hne] at hheld
    have hheld' := hheld
    rw [← h.same.store.copyOf?] at hheld'
    rw [ht.bodies he hheld' hne hx hxe, hs.bodies he hheld hne hx hxe]
    exact h.held he hheld hx hxe

/-- **Twins stay twins** if the working copies of all elements but one are spared on both sides, and that of the one
element, which the operation is about, is treated alike. -/
theorem Twin.next_but (h : Twin p files s t) (hsame : Same s' t')
    (hfiles : s'.world.files = s.world.files)
    (hs : Coherent (fixedFiles p files) s'.store ∧ Spared (· = e) s.store s'.store)
    (ht : Coherent (fixedFiles p files) t'.store ∧ Spared (· = e) t.store t'.store)
    (hbut : ∀ {x}, (s'.store.copyOf? e).isSome = true → IsElement x → x = e ∨ DeclaredIn e x →
      t'.store.cache.peek? x = s'.store.cache.peek? x) : Twin p files s' t' :=
  h.next hsame hfiles hs.1 ht.1 hs.2 ht.2 fun hk hheld hx hxe => hbut (hk ▸ hheld) hx (hk ▸ hxe)

theorem Twin.noted (h : Twin p files s t) (l : List Notice) : Twin p files (noted s l) (noted t l) :=
  ⟨h.same.noted l, h.onFiles, h.left, h.right, h.held⟩

/-- Listeners that come and go on both sides leave twins twins. -/
theorem Twin.relisten {l l' : Listeners} (h : Twin p files s t) (hl : l' = l) :
    Twin p files { s with listeners := l } { t with listeners := l' } :=
  ⟨⟨h.same.store, h.same.depth, hl, h.same.world⟩, h.onFiles, h.left, h.right, h.held⟩

/-- **Turnovers of the caches** leave twins twins, whatever comes and goes on either side: they spare all working
copies. -/
theorem Twin.turnover (h : Twin p files s t) (hs : Turnover (fixedFiles p files) s.store u)
    (ht : Turnover (fixedFiles p files) t.store v) :
    Twin p files (withStore s u) (withStore t v) := by
  have hrecached : Recached u v := h.same.store.exchange hs.rest ht.rest
  exact h.next (h.same.withStore hrecached) rfl hs.coherent ht.coherent hs.spared ht.spared
    fun hfalse => hfalse.elim

/-- **Twins give the same answers.** By the levels of the model: a project is answered from the files; a file that
is a working copy is cached on both sides with the same body, and any other file is read, now or when it was cached;
a declaration is answered from the body of its file. -/
theorem Twin.answer (h : Twin p files s t) (he : IsElement e) :
    p.answer files t.store.cache.peek? e = p.answer files s.store.cache.peek? e := by
  have hproject : ∀ {q}, IsProject q →
      p.answer files t.store.cache.peek? q = p.answer files s.store.cache.peek? q := fun hq =>
    (answer_fixed_project h.right hq).trans (answer_fixed_project h.left hq).symm
  have hfile : ∀ {f}, IsFile f →
      p.answer files t.store.cache.peek? f = p.answer files s.store.cache.peek? f := by
    intro f hf
    rcases hid : s.store.copyOf? f with _ | id
    · -- a file that is no working copy is read, whether it is cached or not
      obtain ⟨q, hpar, hq⟩ := hf.parent
      rw [answer_fixed_file h.left hf hpar hid,
        answer_fixed_file h.right hf hpar ((h.same.store.copyOf? f).trans hid), hproject hq]
    · -- a working copy is cached on both sides, with the same body
      have hheld : (s.store.copyOf? f).isSome = true := by rw [hid]; rfl
      obtain ⟨body, hbody⟩ := Option.isSome_iff_exists.mp (h.left.faithful.kept ⟨hf.plain, hheld⟩)
      rw [answer_of_known hbody,
        answer_of_known ((h.held hf.plain hheld hf.element (.inl rfl)).trans hbody)]
  rcases he with hq | hf | ⟨f, hf, hx⟩
  · exact hproject hq
  · exact hfile hf
  · rw [answer_below_file h.left hf hx, answer_below_file h.right hf hx, hfile hf]

/-! ## Lockstep -/

/-- Twins answer alike and stay twins. The requests are shown to do so one by one. -/
def Lockstep {α : Type} (p : Project) (files : FileTree) (F : Session Desk → α × Session Desk) : Prop :=
  ∀ {s t}, Twin p files s t → (F t).1 = (F s).1 ∧ Twin p files (F s).2 (F t).2

/-- **Bodies**: what one twin has to build, the other may have at hand. Both have the body afterwards, so they go on
from the same children. -/
theorem alike_body (refusal : Refusal) (he : IsElement e) :
    Alike (Twin p files) (Lists e) (body (p.hosted refusal) e) (body (p.hosted refusal) e) := by
  intro s t h
  obtain ⟨r, u, hrun, hopen⟩ := run_openBody refusal false h.left h.admits he
  obtain ⟨r', v, hrun', hopen'⟩ := run_openBody refusal false h.right h.admits' he
  obtain rfl : r' = r := by
    rw [hopen.answer rfl, hopen'.answer rfl, h.same.world, h.onFiles]
    exact h.answer he
  exact ⟨r', _, _, hrun, hrun', h.turnover hopen.turnover hopen'.turnover,
    fun body hr c hc => hopen.turnover.coherent.child he (hopen.cached hr) hc⟩

/-- Operations that are alike on twins proceed in lockstep. What is asked for by bodies alone is answered alike, as
twins have the same answers, whatever the one has dropped and the other has kept. -/
theorem Alike.lockstep {α : Type} {post : α → Prop} {op : Op Desk α}
    (h : Alike (Twin p files) post op op) : Lockstep p files op.run := by
  intro s t htwin
  obtain ⟨r, s', t', hs, ht, hnext, -⟩ := h s t htwin
  rw [hs, ht]
  exact ⟨rfl, hnext⟩

/-- **Queries** proceed in lockstep, for they only ask for bodies. Nothing else about them is looked at, the search
for a position included. -/
theorem IsQuery.lockstep {α : Type} {post : α → Prop} {op : Op Desk α} (h : IsQuery p refusal post op) :
    Lockstep p files op.run := (h (Twin p files) fun _ he => alike_body refusal he).lockstep

/-- Whether an element is there is answered from the cache or by a build. Both say the same. -/
theorem lockstep_isPresent (refusal : Refusal) (he : IsElement e) :
    Lockstep p files (Session.isPresent (p.hosted refusal) e).run := by
  intro s t h
  obtain ⟨u, hrun, hturn⟩ := run_isPresent refusal h.left h.admits he
  obtain ⟨v, hrun', hturn'⟩ := run_isPresent refusal h.right h.admits' he
  rw [hrun, hrun', h.same.world, h.onFiles, h.answer he]
  exact ⟨rfl, h.turnover hturn hturn'⟩

/-- Closing drops what is there to be dropped, on each side for itself. It refuses on both sides or on none, as this
depends on the working copies alone. -/
theorem lockstep_close (refusal : Refusal) (he : IsElement e) :
    Lockstep p files (Session.close (p.hosted refusal) e).run := by
  intro s t h
  rw [run_close, run_close, h.same.store.copyOf?]
  split
  · rename_i ho
    split
    · exact ⟨rfl, h⟩
    · rename_i hreg
      have hnone : s.store.copyOf? e = none := by simpa using hreg
      have hopen := he.of_openable ho
      exact ⟨rfl, h.turnover (h.left.close hopen hnone _)
        (h.right.close hopen ((h.same.store.copyOf? e).trans hnone) _)⟩
  · exact ⟨rfl, h⟩

/-! ## Working copies -/

/-- References and edits change the buffers and the working copies in the same way on both sides, and no bodies. -/
theorem Twin.upkeep (h : Twin p files s t) (hsame : Same s' t')
    (hfiles : s'.world.files = s.world.files)
    (hs : Coherent (fixedFiles p files) s'.store ∧ Spared (fun _ => False) s.store s'.store)
    (ht : Coherent (fixedFiles p files) t'.store ∧ Spared (fun _ => False) t.store t'.store) :
    Twin p files s' t' :=
  h.next hsame hfiles hs.1 ht.1 hs.2 ht.2 fun hfalse => hfalse.elim

/-- What has been built for a working copy is the same on both sides: the structure is made from the text of one
buffer, and it is all there, as it was put in last. -/
theorem Restructured.held {id id' : CopyId} {c c' : WorkingCopy} {b' : Buffer} {sn : Snapshot}
    {bodies : Table Body} {u' v' : Store} (hs : Restructured (fixedFiles p files) e bodies id c b u u')
    (ht : Restructured (fixedFiles p files) e bodies id' c' b' v v')
    (hmade : p.made files canceled e (some sn) = .ok bodies) (he : IsProject e ∨ IsFile e)
    (hx : IsElement x) (hxe : x = e ∨ DeclaredIn e x) : v'.cache.peek? x = u'.cache.peek? x := by
  rcases hxe with rfl | hd
  · obtain ⟨body, hbody⟩ := Option.isSome_iff_exists.mp (contains_of_made he hmade)
    rw [hs.brought hx.plain hbody, ht.brought hx.plain hbody]
  · have hf := hd.isFile hx
    have hcopy : (u'.copyOf? e).isSome = true := by rw [hs.inForce.registered]; rfl
    have hcopy' : (v'.copyOf? e).isSome = true := by rw [ht.inForce.registered]; rfl
    rw [hs.coherent.peek?_of_within hf hcopy (hs.peek?_file hf hmade) (.inr hd),
      ht.coherent.peek?_of_within hf hcopy' (ht.peek?_file hf hmade) (.inr hd)]

/-- Whether an element is there before it becomes a working copy does not depend on the cache. A cached one that is
no working copy comes from a file that is still there. -/
theorem existed_eq (h : Coherent (fixedFiles p files) u) (he : IsProject e ∨ IsFile e)
    (hnone : u.copyOf? e = none) :
    (u.isCached e || p.hasResource files e) = p.hasResource files e := by
  rcases hb : u.cache.peek? e with _ | body
  · simp [Store.isCached, Cache.contains, hb]
  · rw [hasResource_of_cached h he hnone hb, Bool.or_true]

/-- **Becoming a working copy** gives the same answer and leaves twins twins. If the element is one already, both
sides count a reference. Otherwise both build from the same text, so both succeed with the same structure, or both
fail and lose the bodies of the element. -/
theorem Twin.start {buffer : BufferId} (refusal : Refusal) (canceled : Bool)
    (callback : Option CallbackId) (h : Twin p files s t) (he : IsElement e)
    (hb : s.store.buffer? buffer = some b) :
    let r := (startWorkingCopy (p.hosted refusal) canceled e buffer callback).run s
    let r' := (startWorkingCopy (p.hosted refusal) canceled e buffer callback).run t
    r'.1 = r.1 ∧ Twin p files r.2 r'.2 := by
  by_cases ho : e.openable = true
  · have hopen := he.of_openable ho
    have hcopy := h.same.store.copyOf? e
    rcases hid : s.store.copyOf? e with _ | id
    · have hexisted : (t.store.isCached e || p.hasResource s.world.files e) =
          (s.store.isCached e || p.hasResource s.world.files e) := by
        rw [h.onFiles, existed_eq h.left hopen hid, existed_eq h.right hopen (hcopy.trans hid)]
      have hb' := (h.same.store.buffer? buffer).trans hb
      obtain ⟨heq, hsame⟩ := h.same.starting p refusal canceled buffer b callback hexisted
      have hs := h.left.startWorkingCopy refusal canceled callback h.admits he hb
      have ht := h.right.startWorkingCopy refusal canceled callback h.admits' he hb'
      rw [run_start hopen hid hb] at hs ⊢
      rw [run_start hopen (hcopy.trans hid) hb'] at ht ⊢
      have hfiles := files_starting p refusal canceled e buffer b callback s
      refine ⟨heq, h.next_but hsame hfiles hs ht fun {x} hheld hx hxe => ?_⟩
      -- what is registered now was built on both sides, from the same text
      rcases h.left.starting refusal canceled callback h.admits hopen hb with
        ⟨bodies, hmade, -, hre⟩ | ⟨-, hgone⟩
      · rcases h.right.starting refusal canceled callback h.admits' hopen hb' with
          ⟨bodies', hmade', -, hre'⟩ | ⟨-, hgone'⟩
        · rw [h.same.world, hmade] at hmade'
          cases hmade'
          rw [h.onFiles] at hmade
          exact hre.held hre' hmade hopen hx hxe
        · have hreg := hsame.store.copyOf? e
          rw [hgone'.gone, hre.inForce.registered] at hreg
          cases hreg
      · rw [hgone.gone] at hheld
        cases hheld
    · obtain ⟨c, b, hin⟩ := h.left.inForce he.plain hid
      have hin' := h.same.store.inForce hin
      -- both have the working copy already, and count one more reference
      rw [run_startWorkingCopy_again ho hid hin.copy hin.isReady,
        run_startWorkingCopy_again ho hin'.registered hin'.copy hin.isReady]
      exact ⟨rfl, h.upkeep (h.same.withStore (h.same.store.retainCopy id)) rfl
        (h.left.retainCopy id) (h.right.retainCopy id)⟩
  · rw [run_startWorkingCopy_of_not_openable (by simpa using ho),
      run_startWorkingCopy_of_not_openable (by simpa using ho)]
    exact ⟨rfl, h⟩

/-- Releasing keeps the bodies of the working copy on both sides, or drops them on both, according to the references
that are left. -/
theorem Twin.release (h : Twin p files s t) (he : e.Plain lexicon) :
    Twin p files (withStore s (s.store.release e).2) (withStore t (t.store.release e).2) := by
  have hsame := (h.same.store.release e).2
  refine h.next_but (h.same.withStore hsame) rfl (h.left.release_spares he) (h.right.release_spares he)
    fun {x} hheld hx hxe => ?_
  replace hheld : ((s.store.release e).2.copyOf? e).isSome = true := hheld
  rcases h.left.release he with hgone | ⟨⟨-, hkept⟩, hcache⟩
  · rw [hgone.gone] at hheld
    cases hheld
  · rcases h.right.release he with hgone' | ⟨-, hcache'⟩
    · rw [← hsame.copyOf?, hgone'.gone] at hheld
      cases hheld
    · rw [hkept.copyOf he not_false] at hheld
      have hpeek := h.held he hheld hx hxe
      rwa [← hcache, ← hcache'] at hpeek

/-- A release gives the same answer on both sides, and the same notices. -/
theorem lockstep_release (refusal : Refusal) (he : IsElement e) :
    Lockstep p files (releaseWorkingCopy (p.hosted refusal) e).run := by
  intro s t h
  obtain ⟨heq, hstore⟩ := h.same.store.release e
  have htwin := h.release he.plain
  rw [run_releaseWorkingCopy, run_releaseWorkingCopy]
  generalize s.store.release e = r at heq hstore htwin
  generalize t.store.release e = r' at heq hstore htwin
  obtain ⟨r, u⟩ := r
  obtain ⟨r', v⟩ := r'
  obtain rfl : r' = r := heq
  rcases r' with error | _ | ⟨id, news⟩
  · exact ⟨rfl, htwin⟩
  · exact ⟨rfl, htwin⟩
  · simp only [h.same.world, hstore.endNotices, h.same.eventNotices]
    exact ⟨trivial, htwin.noted _⟩

/-- One more reference is the same thing on both sides: the registry and the working copies are equal, and bodies
are not touched. -/
theorem lockstep_acquire (refusal : Refusal) (he : IsElement e) :
    Lockstep p files (acquireWorkingCopy (p.hosted refusal) e : Action Desk (Option CopyId)) := by
  intro s t h
  have hcopy := h.same.store.copyOf? e
  rcases hid : s.store.copyOf? e with _ | id
  · rw [run_acquireWorkingCopy_of_none hid, run_acquireWorkingCopy_of_none (hcopy.trans hid)]
    exact ⟨rfl, h⟩
  · obtain ⟨c, b, hin⟩ := h.left.inForce he.plain hid
    have hin' := h.same.store.inForce hin
    rw [run_acquireWorkingCopy hid hin.copy hin.isReady,
      run_acquireWorkingCopy hin'.registered hin'.copy hin.isReady]
    exact ⟨rfl, h.upkeep (h.same.withStore (h.same.store.retainCopy id)) rfl (h.left.retainCopy id)
      (h.right.retainCopy id)⟩

/-- **The differences** that a reconcile finds are the same on both sides, although what is compared are two caches:
with a project there are none, and those of a file are the differences of the text that was committed last and the
present one. The former is known from the body of the file, which twins agree in. -/
theorem Twin.differences {id : CopyId} {c : WorkingCopy} {bodies : Table Body}
    (h : Twin p files s t) (he : IsProject e ∨ IsFile e) (hin : InForce s.store e id c b)
    (hmade : p.made files canceled e (some b.snapshot) = .ok bodies)
    (hs : Restructured (fixedFiles p files) e bodies id { c with reconciled := some b.version } b s.store
      (renewed s.store id e bodies b.version))
    (ht : Restructured (fixedFiles p files) e bodies id { c with reconciled := some b.version } b t.store
      (renewed t.store id e bodies b.version)) (limit : Nat) :
    differences limit e t.store.cache.entries (renewed t.store id e bodies b.version).cache.entries =
      differences limit e s.store.cache.entries
        (renewed s.store id e bodies b.version).cache.entries := by
  have hin' := h.same.store.inForce hin
  rcases he with hq | hf
  · rw [differences_project h.left hq hin.registered hmade,
      differences_project h.right hq hin'.registered hmade]
  · obtain ⟨sn, hfb, hcurrent⟩ := h.left.current hf hin
    have hcopy : ∀ {u : Store} {c : WorkingCopy}, InForce u e id c b → (u.copyOf? e).isSome = true := by
      intro u c hin
      rw [hin.registered]
      rfl
    -- both sides go from the same text to the same text
    have hfb' := (h.held hf.plain (hcopy hin) hf.element (.inl rfl)).trans hfb
    rw [differences_eq h.left hs.coherent hf (hcopy hin) (hcopy hs.inForce) hfb
        (hs.peek?_file hf hmade) hcurrent.text_of_sameVersion,
      differences_eq h.right ht.coherent hf (hcopy hin') (hcopy ht.inForce) hfb'
        (ht.peek?_file hf hmade) hcurrent.text_of_sameVersion]

/-- **Reconciling** is nothing on both sides, or fails on both with the same error, or both report the same
differences and commit the same structure. -/
theorem lockstep_reconcile {force : Bool} (refusal : Refusal) (canceled : Bool) (he : IsElement e) :
    Lockstep p files (Session.reconcile (p.hosted refusal) canceled e force).run := by
  intro s t h
  have hcopy := h.same.store.copyOf? e
  rcases hid : s.store.copyOf? e with _ | id
  · rw [run_reconcile_of_none hid, run_reconcile_of_none (hcopy.trans hid)]
    exact ⟨rfl, h⟩
  · obtain ⟨hopen, c, b, hin⟩ := h.left.registered he.plain hid
    have hin' := h.same.store.inForce hin
    by_cases hdue : (!force && c.reconciled == some b.version) = true
    · -- what was reconciled last is remembered with the working copy, on both sides
      rw [run_reconcile hin.registered hin.copy hin.buffer hin.isReady, if_pos hdue,
        run_reconcile hin'.registered hin'.copy hin'.buffer hin.isReady, if_pos hdue]
      exact ⟨rfl, h⟩
    · replace hdue := Bool.not_eq_true _ ▸ hdue
      have hrun := run_reconcile_coherent refusal canceled h.left h.admits he hin hdue
      have hrun' := run_reconcile_coherent refusal canceled h.right h.admits' he hin' hdue
      rw [h.same.world, h.onFiles] at hrun'
      rw [h.onFiles] at hrun
      rcases hmade : p.made files canceled e (some b.snapshot) with error | bodies
      · rw [hmade] at hrun hrun'
        rw [hrun, hrun']
        exact ⟨rfl, h⟩
      · rw [hmade] at hrun hrun'
        obtain ⟨hre, delta, hdelta, hrun⟩ := hrun
        obtain ⟨hre', delta', hdelta', hrun'⟩ := hrun'
        rw [h.same.depth] at hdelta'
        have heq := h.differences hopen hin hmade hre hre' s.config.reconcileDepth
        obtain rfl : delta' = delta :=
          Except.ok.inj (hdelta'.symm.trans (heq.trans hdelta))
        obtain ⟨hreport, hsame⟩ :=
          (h.same.structured id e bodies b.version).reported id delta'
        rw [hrun, hrun']
        refine ⟨congrArg Except.ok hreport, h.next_but (e := e) hsame (files_reported ..) ?_ ?_
          fun _ hx hxe => ?_⟩
        · rw [store_reported]
          exact ⟨hre.coherent, hre.spared⟩
        · rw [store_reported]
          exact ⟨hre'.coherent, hre'.spared⟩
        · rw [store_reported, store_reported]
          exact hre.held hre' hmade hopen hx hxe

/-! ## All requests -/

/-- The request leaves the files as they are, and is not given up half-way. Either would show which bodies are
cached. -/
def Request.isSteady : Request n → Bool
  | .body _ canceled => !canceled
  | .files _ => false
  | _ => true

/-- **Every request** is answered alike by twins, and leaves them twins. The cases are the kinds of requests;
queries, closings, working copies and their buffers have been dealt with above. -/
theorem perform_lockstep (refusal : Refusal) (h : Twin p files s t)
    (hn : s.store.buffers.length = n) {r : Request n} (hr : r.isSteady = true) :
    (perform (p.hosted refusal) r t).1 = (perform (p.hosted refusal) r s).1 ∧
      Twin p files (perform (p.hosted refusal) r s).2 (perform (p.hosted refusal) r t).2 := by
  have hanswered : ∀ {α : Type} {x : Op Desk α} {f : Except Error α → Answer},
      Lockstep p files x.run →
      (answered f x t).1 = (answered f x s).1 ∧ Twin p files (answered f x s).2 (answered f x t).2 := by
    intro α x f hx
    obtain ⟨heq, hnext⟩ := hx h
    exact ⟨congrArg f heq, hnext⟩
  have hchanged : ∀ {buffer : BufferId} {f : Buffer → Except BufferError Buffer},
      (∀ b b', f b = .ok b' → Later b b') →
      (changed buffer f t).1 = (changed buffer f s).1 ∧
        Twin p files (changed buffer f s).2 (changed buffer f t).2 := by
    intro buffer f hf
    obtain ⟨heq, hsame⟩ := h.same.changed buffer f
    refine ⟨heq, h.upkeep hsame ?_ (h.left.changed hf) (h.right.changed hf)⟩
    rw [changed]
    rcases (s.store.buffer? buffer).map f with _ | _ | b <;> rfl
  cases r with
  | body e canceled =>
    -- a canceled request would be answered by the side that has the body, and not by the other
    obtain rfl : canceled = false := by simpa [Request.isSteady] using hr
    exact hanswered (alike_body refusal e.2).lockstep
  | children e => exact hanswered (isQuery_children e.2).lockstep
  | isPresent e => exact hanswered (lockstep_isPresent refusal e.2)
  | sourceText e => exact hanswered (isQuery_sourceText e.2).lockstep
  | innermostAt file position base =>
    exact hanswered (isQuery_innermostAt position base file.2).lockstep
  | close e => exact hanswered (lockstep_close refusal e.2)
  | start file buffer callback canceled =>
    have hb := List.getElem?_eq_getElem (show buffer.1 < s.store.buffers.length from hn ▸ buffer.2)
    obtain ⟨heq, hnext⟩ := h.start refusal canceled callback file.2 hb
    exact ⟨congrArg Answer.truth heq, hnext⟩
  | release file => exact hanswered (lockstep_release refusal file.2)
  | acquire file =>
    obtain ⟨heq, hnext⟩ := lockstep_acquire refusal file.2 h
    exact ⟨congrArg Answer.copy heq, hnext⟩
  | isWorkingCopy file =>
    have hanswer : ∀ s : Session Desk, (perform (p.hosted refusal) (.isWorkingCopy file : Request n) s).1 =
        .truth (.ok ((s.store.workingCopy? file).any fun q => !q.2.disposed)) := fun s => rfl
    rw [hanswer, hanswer, h.same.store.workingCopy?]
    exact ⟨rfl, h⟩
  | workingCopyBuffer file =>
    have hanswer : ∀ s : Session Desk,
        (perform (p.hosted refusal) (.workingCopyBuffer file : Request n) s).1 =
          .buffer ((s.store.workingCopy? file).bind fun q => s.store.buffer? q.2.buffer) := fun s => rfl
    simp only [hanswer, h.same.store.workingCopy?, h.same.store.buffer?]
    exact ⟨trivial, h⟩
  | workingCopies =>
    exact ⟨congrArg (fun r => Answer.elements (.ok (Table.keys r))) h.same.store.registry, h⟩
  | reconcile file force canceled => exact hanswered (lockstep_reconcile refusal canceled file.2)
  | edit buffer change => exact hchanged fun b b' => later_applyChange
  | setText buffer text =>
    refine hchanged fun b b' hb => ?_
    cases hb
    exact later_setText b text
  | retainBuffer buffer =>
    refine hchanged fun b b' hb => ?_
    cases hb
    exact later_retain b
  | releaseBuffer buffer => exact hchanged fun b b' => later_release
  | listen l kinds => exact ⟨rfl, h.relisten (congrArg (·.add l kinds) h.same.listeners)⟩
  | unlisten l => exact ⟨rfl, h.relisten (congrArg (·.remove l) h.same.listeners)⟩
  | files t => cases hr

/-- **Every run** is answered alike by twins, and leaves them twins, by induction on the requests. -/
theorem run_lockstep (refusal : Refusal) {rs : List (Request n)} (h : Twin p files s t)
    (hn : s.store.buffers.length = n) (hrs : ∀ r ∈ rs, r.isSteady = true) :
    (run (p.hosted refusal) rs t).1 = (run (p.hosted refusal) rs s).1 ∧
      Twin p files (run (p.hosted refusal) rs s).2 (run (p.hosted refusal) rs t).2 := by
  induction rs generalizing s t with
  | nil => exact ⟨rfl, h⟩
  | cons r rs ih =>
    obtain ⟨heq, hnext⟩ := perform_lockstep refusal h hn (hrs r (List.mem_cons_self ..))
    have hspared := (perform_spares refusal h.left h.admits hn r).2
    obtain ⟨hrest, hend⟩ := ih hnext (hspared.length.trans hn)
      fun r' hr' => hrs r' (List.mem_cons_of_mem _ hr')
    exact ⟨List.cons_eq_cons.mpr ⟨heq, hrest⟩, hend⟩

/-- Sessions at their start are twins: nothing is cached, and nothing is a working copy. -/
theorem twin_freshSession (p : Project) (config : Config) (files : FileTree) (texts : List Text)
    (cacheSize : Nat) (loadFactor : Float) (childHeadroom : Bool) (arrangement arrangement' : Arrangement) :
    Twin p files (freshSession config files texts arrangement)
      (freshSession { config with cacheSize, loadFactor, childHeadroom } files texts arrangement') := by
  refine ⟨⟨.mk _ arrangement', rfl, rfl, rfl⟩, rfl, coherent_freshSession .., coherent_freshSession .., ?_⟩
  intro e x _ _ _ _
  rfl

/-- **Caching cannot be observed.** Whatever is requested of two sessions on files that stay as they are, all
answers and all notices are the same if the sessions differ in the size of their caches, in the share that survives
an overflow, in the room they make for children and in the order in which the bodies of a build go in. They are
twins at the start and stay so with every request. -/
theorem run_transparent (p : Project) (refusal : Refusal) (config : Config) (files : FileTree)
    (texts : List Text) (cacheSize : Nat) (loadFactor : Float) (childHeadroom : Bool)
    (arrangement arrangement' : Arrangement) (rs : List (Request texts.length))
    (hrs : ∀ r ∈ rs, r.isSteady = true) :
    let config' := { config with cacheSize, loadFactor, childHeadroom }
    let a := run (p.hosted refusal) rs (freshSession config files texts arrangement)
    let b := run (p.hosted refusal) rs (freshSession config' files texts arrangement')
    b.1 = a.1 ∧ b.2.world.notices = a.2.world.notices := by
  intro config' a b
  obtain ⟨heq, htwin⟩ := run_lockstep refusal
    (twin_freshSession p config files texts cacheSize loadFactor childHeadroom arrangement arrangement')
    (length_freshSession config files texts arrangement) hrs
  exact ⟨heq, congrArg Desk.notices htwin.same.world⟩

/-! ## A crowded cache -/

namespace Crowded

/-- The project. -/
def project : Project := ⟨"/lib"⟩

/-- The text of a file that is never a working copy. -/
def onDisk : Text := "// kept as it is\nvar x; def f(a) \x7b x \x7d\ndef f(b) \x7b\x7d".toList

/-- The text of a buffer. -/
def inBuffer : Text := "var y; var y; def g() \x7b\x7d".toList

/-- The directory of the project with one file. -/
def disk : FileTree := ⟨[(["lib"], .directory), (["lib", "a.foo"], .file (some onDisk))]⟩

/-- The project as an element. -/
def library : Element := ⟨project.handle, .inl rfl⟩

/-- The file on disk. -/
def kept : Element := ⟨project.file "a.foo", .inr (.inl ⟨rfl, rfl⟩)⟩

/-- The second of the functions that agree in name and arity. -/
def second : Element := ⟨kept.1.sub functionKind "f/1" 2, .inr (.inr ⟨kept.1, ⟨rfl, rfl⟩, _, rfl, .inr rfl⟩)⟩

/-- A file that is made a working copy of the buffer. -/
def edited : Element := ⟨project.file "b.foo", .inr (.inl ⟨rfl, rfl⟩)⟩

/-- The file on disk is asked for again and again, and something else is built in between. -/
def requests : List (Request [inBuffer].length) :=
  [.listen "outline" ⟨3#32⟩, .children kept, .children library, .sourceText second,
    .start edited ⟨0, Nat.zero_lt_one⟩ none false, .children kept,
    .setText ⟨0, Nat.zero_lt_one⟩ "def g() \x7b\x7d".toList, .reconcile edited false false,
    .innermostAt kept 30 none, .release edited, .isPresent edited, .sourceText second]

/-- There is room for all bodies. -/
def wide : Config := { childHeadroom := false }

/-- There is room for one body. -/
def tight : Config := { cacheSize := 1, loadFactor := 1, childHeadroom := false }

/-- The bodies of a build go in the other way round. -/
def reversed : Arrangement := ⟨List.reverse, List.reverse_perm⟩

/-- Where the first of the requests lead. -/
def after (k : Nat) (config : Config) (arrangement : Arrangement) : Session Desk :=
  (run (project.hosted fun _ _ _ => none) (requests.take k)
    (freshSession config disk [inBuffer] arrangement)).2

/-- The text that an answer brings. -/
def textOf? : Answer → Option Text
  | .text (.ok text) => text
  | _ => none

end Crowded

open Crowded in
/-- **Evicted and rebuilt**: with room for one body the file on disk is dropped for the project and built again
for one of its declarations, and so on, which with plenty of room never happens. Both sessions answer the same,
and tell the listener of the same events. -/
theorem run_transparent_crowded :
    let m := project.hosted fun _ _ _ => none
    let roomy := run m requests (freshSession wide disk [inBuffer])
    let crowded := run m requests (freshSession tight disk [inBuffer] reversed)
    (∀ r ∈ requests, r.isSteady = true) ∧
      ((after 2 tight reversed).store.isCached kept.1 = true ∧
        (after 3 tight reversed).store.isCached kept.1 = false ∧
        (after 4 tight reversed).store.isCached kept.1 = true) ∧
      (roomy.2.store.cache.evictions = 0 ∧ crowded.2.store.cache.evictions = 21) ∧
      (roomy.1.filterMap textOf? = List.replicate 2 "def f(b) \x7b\x7d".toList ∧
        roomy.2.world.notices.length = 3) ∧
      crowded.1 = roomy.1 ∧ crowded.2.world.notices = roomy.2.world.notices := by
  intro m roomy crowded
  have hsteady : ∀ r ∈ requests, r.isSteady = true := by decide
  have hcached : (after 2 tight reversed).store.isCached kept.1 = true ∧
      (after 3 tight reversed).store.isCached kept.1 = false ∧
      (after 4 tight reversed).store.isCached kept.1 = true := by decide +kernel
  have hevictions : roomy.2.store.cache.evictions = 0 ∧ crowded.2.store.cache.evictions = 21 := by
    decide +kernel
  have htold : roomy.1.filterMap textOf? = List.replicate 2 "def f(b) \x7b\x7d".toList ∧
      roomy.2.world.notices.length = 3 := by decide +kernel
  obtain ⟨hanswers, hnotices⟩ := run_transparent project (fun _ _ _ => none) wide disk [inBuffer] 1 1 false
    .asBuilt reversed requests hsteady
  exact ⟨hsteady, hcached, hevictions, htold, hanswers, hnotices⟩

end CodeModel.Foo
