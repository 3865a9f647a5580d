import CodeModel.Proofs.Foo.Coherence

/-!
# Opening keeps stores coherent

What a request for a body is answered, and what it does to the store.

* The **answer** is a function of the files and of the bodies that are known (`Project.answer`): what is
  known is the answer, and what is not is built after the element above it.
* Whatever comes of a request, the store has a mere **turnover** (`run_openBody`): the bodies of working
  copies are none of those that are built.

Both are shown together, level by level: a file is opened after its project, so what is shown of opening the
project is used for the file, and that of the file for its declarations (`Opening`).
-/

namespace CodeModel.Foo

open Session

variable {std : Standard} {p : Project} {refusal : Refusal} {s : Session Desk} {e f q x : Handle}
  {canceled : Bool} {bodies : Table Body}

/-! ## Answers -/

/-- The body of `e` among those that a build made. -/
def bodyOf (e : Handle) (made : Except Error (Table Body)) : Except Error Body :=
  match made with
  | .error error => .error error
  | .ok bodies =>
    match Table.get? bodies e with
    | some b => .ok b
    | none => .error (.doesNotExist e)

/-- The bodies that the text of a file's body gives. -/
def tableOf (f : Handle) (b : Body) : Table Body := (b.snapshot?.map (fileTable f)).getD []

/-- The answer to a request for the body of an element, given the files and the bodies that are known. It follows
the three levels of the tree and knows neither a cache nor an order of requests. -/
def Project.answer (p : Project) (files : FileTree) (known : Handle → Option Body) :
    Handle → Except Error Body
  | .root n =>
    match known (.root n) with
    | some b => .ok b
    | none => bodyOf (.root n) (p.made files false (.root n) none)
  | .child q n =>
    match known (.child q n) with
    | some b => .ok b
    | none =>
      match p.answer files known q with
      | .error error => .error error
      | .ok b =>
        bodyOf (.child q n)
          (if n.kind.openable then p.made files false (.child q n) none else .ok (tableOf q b))

variable {files : FileTree} {known : Handle → Option Body}

theorem answer_of_known {b : Body} (h : known e = some b) : p.answer files known e = .ok b := by
  cases e <;> simp [Project.answer, h]

theorem answer_project (hq : IsProject q) (h : known q = none) :
    p.answer files known q = bodyOf q (p.made files false q none) := by
  cases q with
  | root n => simp [Project.answer, h]
  | child r n => cases hq

/-- A file that is not known is built, if its project has an answer. The error of the project goes before that of
the file. -/
theorem answer_file (hf : IsFile f) (hpar : f.parent? = some q) (h : known f = none) :
    p.answer files known f =
      match p.answer files known q with
      | .error error => .error error
      | .ok _ => bodyOf f (p.made files false f none) := by
  cases f with
  | root n => cases hf
  | child r n =>
    obtain rfl := Option.some.inj hpar
    have hopen : n.kind.openable = true := hf.openable
    simp [Project.answer, h, hopen]

/-- A declaration that is not known is looked for in what the text of its file gives. -/
theorem answer_declared (hx : DeclaredIn f x) (h : known x = none) :
    p.answer files known x =
      match p.answer files known f with
      | .error error => .error error
      | .ok b => bodyOf x (.ok (tableOf f b)) := by
  have hopen := hx.not_openable
  obtain ⟨n, rfl, -⟩ := hx
  have hopen : n.kind.openable = false := hopen
  simp [Project.answer, h, hopen]

/-- The body of a file gives the bodies of the text it was built from. -/
theorem tableOf_ownBody (f : Handle) (sn : Snapshot) : tableOf f (ownBody f sn) = fileTable f sn := by
  rw [tableOf, snapshot?_ownBody]
  rfl

/-! ## One build -/

/-- What is built for an element that is no working copy meets the standard: a project lists what is there, and a
file comes from the text that is there. -/
theorem batch_of_made {store : Store} (ha : std.Admits p files) (he : IsProject e ∨ IsFile e)
    (hnone : store.copyOf? e = none)
    (hparent : ∀ {q}, e.parent? = some q → ∃ b, std.listing q b)
    (h : p.made files canceled e none = .ok bodies) : Batch (std.demands store) e bodies := by
  rcases he with hq | hf
  · rw [made_project hq] at h
    split at h
    · cases h
    · split at h
      · cases h
      · obtain ⟨b, hb, rfl⟩ : ∃ b, p.body files e = .ok b ∧ [(e, b)] = bodies := by
          rcases hb : p.body files e with error | b
          · rw [hb] at h
            cases h
          · rw [hb] at h
            cases h
            exact ⟨b, rfl, rfl⟩
        exact .project hq (ha.listing hq hb)
  · obtain ⟨q, hpar, -⟩ := hf.parent
    obtain ⟨b, hb⟩ := hparent hpar
    rw [made_none_file hf] at h
    split at h
    · cases h
    · split at h
      · rename_i hres
        rcases ht : p.text files e with error | text
        · rw [ht] at h
          cases h
        · rw [ht] at h
          cases h
          -- it was read, and there is no working copy that its text would have to come from
          refine .file hf ⟨fun _ => ha.reading hb hf hpar hres ht, fun hc => ?_⟩
          have := hc.registered
          rw [hnone] at this
          cases this
      · cases h

theorem roomy_eq (config : Config) (n : Nat) (e : Handle) (store : Store) :
    roomy config n e store = { store with cache := (roomy config n e store).cache } := by
  rw [roomy]
  split <;> rfl

/-- **Room** for more bodies changes none of them: the capacity is raised before a batch comes in, and nothing is
dropped by that. -/
theorem Coherent.roomy {store : Store} (h : Coherent std store) (config : Config) (n : Nat)
    (e : Handle) : Turnover std store (roomy config n e store) := by
  have hcache : (Foo.roomy config n e store).cache.entries = store.cache.entries ∧
      (Foo.roomy config n e store).cache.pinned = store.cache.pinned := by
    rw [Foo.roomy]
    split
    · exact ⟨entries_raiseCapacity .., pinned_raiseCapacity ..⟩
    · exact ⟨rfl, rfl⟩
  rw [roomy_eq]
  refine h.turnover (h.faithful.of_entries hcache.1 (hcache.2 ▸ h.faithful.pinned)) hcache.2
    fun _ _ _ => ?_
  rw [Cache.peek?, hcache.1, Cache.peek?]

/-- What opening an element comes to. That the answer is cached afterwards is what lets the next level down go on
from it. -/
structure Opening (std : Standard) (p : Project) (canceled : Bool) (s : Session Desk) (e : Handle)
    (r : Except Error Body) (t : Store) : Prop where
  /-- bodies come and go -/
  turnover : Turnover std s.store t
  /-- the answer is in the cache -/
  cached : ∀ {b}, r = .ok b → t.cache.peek? e = some b
  /-- it is the one that the files and the known bodies give -/
  answer : canceled = false → r = p.answer s.world.files s.store.cache.peek? e

theorem run_openBody_of_cached {b : Body} (h : Coherent std s.store) (he : IsElement e)
    (hb : s.store.cache.peek? e = some b) :
    ∃ r t, (openBody (p.hosted refusal) canceled e).run s = (r, withStore s t) ∧
      Opening std p canceled s e r t := by
  refine ⟨.ok b, _, run_openBody_cached h.quiet.drafts hb, h.use he, fun hr => ?_, fun _ => ?_⟩
  · rw [Cache.peek?_touch h.faithful.plain.toDistinct he.plain.follows he.plain.follows, hb]
    exact congrArg some (Except.ok.inj hr)
  · rw [answer_of_known hb]

/-- **Opening by itself**: the element is built and committed, and nothing else comes in. What else there was is
either still there or was dropped to make room. -/
theorem run_openFresh_coherent (refusal : Refusal) (canceled : Bool) (h : Coherent std s.store)
    (ha : std.Admits p s.world.files) (he : IsProject e ∨ IsFile e) (hnone : s.store.cache.peek? e = none)
    (hparent : ∀ {q}, e.parent? = some q → ∃ b, std.listing q b) :
    ∃ t, (openFresh (p.hosted refusal) canceled e).run s =
        (bodyOf e (p.made s.world.files canceled e none), withStore s t) ∧
      Turnover std s.store t ∧
      (∀ {b}, bodyOf e (p.made s.world.files canceled e none) = .ok b →
        t.cache.peek? e = some b) ∧
      ∀ {x b}, x.Plain lexicon → x ≠ e → ¬ DeclaredIn e x → t.cache.peek? x = some b →
        s.store.cache.peek? x = some b := by
  have hel : IsElement e := he.elim IsProject.element IsFile.element
  have hcopy := h.copyOf?_eq_none hel.plain hnone
  rw [run_openFresh h.quiet hnone, copySnapshot?_of_none hcopy]
  rcases hmade : p.made s.world.files canceled e none with error | bodies
  · exact ⟨s.store, rfl, Turnover.refl h, fun hr => (by cases hr), fun _ _ _ => id⟩
  · have hroom := h.roomy s.config bodies.length e
    have hbatch : Batch (std.demands (roomy s.config bodies.length e s.store)) e bodies := by
      refine batch_of_made ha he ?_ hparent hmade
      rw [roomy_eq]
      exact hcopy
    have hcommit := Store.committed_commit (e := e) hroom.coherent.faithful.plain hbatch.plain
    obtain ⟨b, hb⟩ := Option.isSome_iff_exists.mp hbatch.contains_self
    have hcached := peek?_of_batch hbatch hcommit hel.plain hb
    have hturn := hroom.trans (hroom.coherent.commit
      ((hroom.spared.copyOf hel.plain id).trans hcopy) hbatch hcommit)
    refine ⟨_, ?_, hturn, fun hr => ?_, fun {x b'} hx hne hd hb' => ?_⟩
    · simp only [committing, hb, bodyOf]
      rfl
    · simp only [bodyOf, hb] at hr
      exact Except.ok.inj hr ▸ hcached
    · -- what else is cached was so before the cache made room
      have := peek?_of_not_batch hbatch hcommit hx hne hd hb'
      rw [roomy] at this
      split at this
      · rwa [Store.raiseCapacity, Cache.peek?, entries_raiseCapacity] at this
      · exact this

/-! ## The three levels -/

theorem run_openBody_of_project (refusal : Refusal) (canceled : Bool) (h : Coherent std s.store)
    (ha : std.Admits p s.world.files) (hq : IsProject q) (hnone : s.store.cache.peek? q = none) :
    ∃ r t, (openBody (p.hosted refusal) canceled q).run s = (r, withStore s t) ∧
      Opening std p canceled s q r t ∧
      ∀ {x b}, x.Plain lexicon → x ≠ q → ¬ DeclaredIn q x → t.cache.peek? x = some b →
        s.store.cache.peek? x = some b := by
  have hparent : ∀ {r}, q.parent? = some r → ∃ b, std.listing r b := by
    intro r hr
    rw [hq.parent] at hr
    cases hr
  obtain ⟨t, hrun, hturn, hcached, hrest⟩ :=
    run_openFresh_coherent refusal canceled h ha (.inl hq) hnone hparent
  refine ⟨_, t, (run_openBody_project h.quiet.drafts hq hnone).trans hrun,
    ⟨hturn, hcached, ?_⟩, hrest⟩
  rintro rfl
  exact (answer_project hq hnone).symm

/-- A file is opened after its project. If the project is cached this is one build, and otherwise there are two, and
the second one happens only if the first one succeeds. -/
theorem run_openBody_of_file (refusal : Refusal) (canceled : Bool) (h : Coherent std s.store)
    (ha : std.Admits p s.world.files) (hf : IsFile f) (hnone : s.store.cache.peek? f = none) :
    ∃ r t, (openBody (p.hosted refusal) canceled f).run s = (r, withStore s t) ∧
      Opening std p canceled s f r t := by
  obtain ⟨q, hpar, hq⟩ := hf.parent
  have hparent : ∀ {store : Store} {b : Body}, Coherent std store → store.cache.peek? q = some b →
      ∀ {r}, f.parent? = some r → ∃ b, std.listing r b := by
    intro store b hstore hb r hr
    obtain rfl := Option.some.inj (hpar.symm.trans hr)
    exact ⟨b, hstore.faithful.project hq hb⟩
  rcases hqb : s.store.cache.peek? q with _ | qb
  · -- the project is opened first, and may fail to open
    obtain ⟨r, t, hrun, hopen, hrest⟩ :=
      run_openBody_of_project refusal canceled h ha hq hqb
    have hstep : (openBody (p.hosted refusal) canceled f).run s = _ :=
      run_openBody_file_below h.quiet.drafts hf hpar hnone
        (show s.store.isCached q = false by simp [Store.isCached, Cache.contains, hqb])
    rw [hrun] at hstep
    rcases r with error | qb
    · refine ⟨.error error, t, hstep, hopen.turnover, fun hr => (by cases hr), fun hcanceled => ?_⟩
      rw [answer_file hf hpar hnone, ← hopen.answer hcanceled]
    · -- opening the project brings in no file, so the file is still to be built
      have hcoh := hopen.turnover.coherent
      have hnone' : t.cache.peek? f = none := by
        rcases hfb : t.cache.peek? f with _ | b
        · rfl
        · rw [hrest hf.plain (hq.ne_file hf).symm (not_declaredIn (.inr hf)) hfb] at hnone
          cases hnone
      obtain ⟨u, hrun', hturn, hcached, -⟩ :=
        run_openFresh_coherent (s := withStore s t) refusal canceled hcoh ha (.inr hf) hnone'
          (hparent hcoh (hopen.cached rfl))
      refine ⟨_, u, hstep.trans ?_, hopen.turnover.trans hturn, hcached, ?_⟩
      · simp only [Op.run_bind, run_get? (s := withStore s t) hcoh.quiet.drafts]
        rw [show (withStore s t).store.cache.peek? f = none from hnone',
          used_of_peek?_eq_none (s := withStore s t) hnone']
        exact hrun'
      · rintro rfl
        rw [answer_file hf hpar hnone, ← hopen.answer rfl]
        rfl
  · obtain ⟨t, hrun, hturn, hcached, -⟩ :=
      run_openFresh_coherent refusal canceled h ha (.inr hf) hnone
        (hparent h hqb)
    refine ⟨_, t, (run_openBody_file h.quiet.drafts hf hpar hnone ?_).trans hrun, hturn, hcached, ?_⟩
    · simp [Store.isCached, Cache.contains, hqb]
    · rintro rfl
      rw [answer_file hf hpar hnone, answer_of_known hqb]

/-- A declaration that is not cached makes its file be built again, which is no working copy then: the declarations
of a working copy are all there. The file is built from the text it had, so its body does not change. -/
theorem run_openOwned_coherent {sn : Snapshot} (p : Project) (refusal : Refusal) (canceled : Bool)
    (ob : Body) (h : Coherent std s.store)
    (hf : IsFile f) (hx : DeclaredIn f x) (hnone : s.store.cache.peek? x = none)
    (hfb : s.store.cache.peek? f = some (ownBody f sn)) :
    ∃ r t, (openOwned (p.hosted refusal) canceled f ob x).run s = (r, withStore s t) ∧
      Turnover std s.store t ∧ (∀ {b}, r = .ok b → t.cache.peek? x = some b) ∧
      (canceled = false → r = bodyOf x (.ok (fileTable f sn))) := by
  rw [run_openOwned h.quiet hf hnone hfb, rebuilding]
  have huse := h.use hf.element
  split
  · rename_i hcanceled
    refine ⟨_, _, rfl, huse, fun hr => (by cases hr), fun hnot => ?_⟩
    rw [hcanceled] at hnot
    cases hnot
  · rcases hxb : Table.get? (fileTable f sn) x with _ | b
    · exact ⟨_, _, rfl, huse, fun hr => (by cases hr), fun _ => by simp [bodyOf, hxb]⟩
    · -- were the file a working copy, the declaration would be there
      have hcopy : s.store.copyOf? f = none := by
        rcases hid : s.store.copyOf? f with _ | id
        · rfl
        · have hheld : (std.demands s.store).held f := ⟨hf.plain, by rw [hid]; rfl⟩
          rw [h.faithful.complete hf hheld hfb (hx.plain hf) hxb] at hnone
          cases hnone
      have hfb' : (used s f).store.cache.peek? f = some (ownBody f sn) := by
        refine (Cache.peek?_touch h.faithful.plain.toDistinct hf.plain.follows
          hf.plain.follows).trans hfb
      obtain ⟨sn', hsn, horigin⟩ := huse.coherent.faithful.file hf hfb'
      obtain rfl := ownBody_injective hsn
      have hbatch := Batch.file hf horigin
      have hcommit := Store.committed_commit (e := f) huse.coherent.faithful.plain hbatch.plain
      refine ⟨_, _, rfl, huse.trans (huse.coherent.commit hcopy hbatch hcommit), fun hr => ?_,
        fun _ => by simp [bodyOf, hxb]⟩
      cases hr
      exact peek?_of_batch hbatch hcommit (hx.plain hf) hxb

/-- **Opening** is a turnover, and its answer is the one that the files and the known bodies give. The three levels
are treated from above: a project by itself, a file after its project, a declaration after its file. -/
theorem run_openBody (refusal : Refusal) (canceled : Bool) (h : Coherent std s.store)
    (ha : std.Admits p s.world.files) (he : IsElement e) :
    ∃ r t, (openBody (p.hosted refusal) canceled e).run s = (r, withStore s t) ∧
      Opening std p canceled s e r t := by
  have hlevel : ∀ {f}, IsFile f →
      ∃ r t, (openBody (p.hosted refusal) canceled f).run s = (r, withStore s t) ∧
        Opening std p canceled s f r t := by
    intro f hf
    rcases hfb : s.store.cache.peek? f with _ | b
    · exact run_openBody_of_file refusal canceled h ha hf hfb
    · exact run_openBody_of_cached h hf.element hfb
  rcases hb : s.store.cache.peek? e with _ | b
  · rcases he with hq | hf | ⟨f, hf, hx⟩
    · obtain ⟨r, t, hrun, hopen, -⟩ := run_openBody_of_project refusal canceled h ha hq hb
      exact ⟨r, t, hrun, hopen⟩
    · exact hlevel hf
    · -- a declaration is opened after its file
      obtain ⟨r, t, hrun, hopen⟩ := hlevel hf
      have hstep : (openBody (p.hosted refusal) canceled e).run s = _ :=
        run_openBody_declared h.quiet.drafts hf hx hb
      rw [hrun] at hstep
      rcases r with error | ob
      · refine ⟨_, t, hstep, hopen.turnover, fun hr => (by cases hr), fun hcanceled => ?_⟩
        rw [answer_declared hx hb, ← hopen.answer hcanceled]
      · have hcoh := hopen.turnover.coherent
        obtain ⟨sn, rfl, -⟩ := hcoh.faithful.file hf (hopen.cached rfl)
        have hanswer : canceled = false → p.answer s.world.files s.store.cache.peek? e =
            bodyOf e (.ok (fileTable f sn)) := by
          intro hcanceled
          rw [answer_declared hx hb, ← hopen.answer hcanceled]
          simp only [tableOf_ownBody]
        rcases hxb : t.cache.peek? e with _ | b
        · -- the file was there without it: it is built again from its own text
          obtain ⟨r, u, hrun', hturn, hcached, hr⟩ :=
            run_openOwned_coherent (s := withStore s t) p refusal canceled (ownBody f sn) hcoh hf hx
              hxb (hopen.cached rfl)
          exact ⟨r, u, hstep.trans hrun', hopen.turnover.trans hturn, hcached,
            fun hcanceled => (hr hcanceled).trans (hanswer hcanceled).symm⟩
        · -- it came with the file
          obtain ⟨sn', hsn, hget⟩ := hcoh.faithful.declared hf hx hxb
          rw [hopen.cached rfl] at hsn
          obtain rfl := ownBody_injective (Option.some.inj hsn)
          have huse := hcoh.use (hx.element hf)
          refine ⟨.ok b, _, hstep.trans (run_openOwned_cached (s := withStore s t) hcoh.quiet hxb),
            hopen.turnover.trans huse, fun hr => ?_, fun hcanceled => ?_⟩
          · cases hr
            exact (Cache.peek?_touch hcoh.faithful.plain.toDistinct (hx.plain hf).follows
              (hx.plain hf).follows).trans hxb
          · rw [hanswer hcanceled, bodyOf]
            simp only [hget]
  · exact run_openBody_of_cached h he hb

end CodeModel.Foo
