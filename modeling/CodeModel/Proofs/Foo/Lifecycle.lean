import CodeModel.Proofs.Foo.Hosting
import CodeModel.Proofs.Foo.Queries
import CodeModel.Proofs.Recorder.Snapshot

/-!
# The life of a working copy keeps stores coherent

What becoming a working copy, reconciling and releasing do to a coherent store.

* The structure that is **committed** for a working copy comes from the present text of its buffer, and
  the working copy knows so (`Coherent.committed`).
* A reconcile **always comes to differences** (`differences_ok`), so that it never stops half-way.
* With its registration a working copy loses its bodies (`Coherent.unregister`), be it at its **end** or
  because its set-up **failed**.
-/

namespace CodeModel.Foo

open Session

variable {std : Standard} {p : Project} {refusal : Refusal} {s : Session Desk} {store t : Store}
  {e x : Handle} {canceled : Bool} {bodies : Table Body} {id : CopyId} {c : WorkingCopy} {b : Buffer}
  {files : FileTree}

/-! ## Differences -/

/-- In a coherent store, children stand where they belong, below the element that lists them. So all that a
comparison reports is about elements below the one it started from. -/
theorem Coherent.region (h : Coherent std store) :
    Recorder.Region lexicon IsElement store.cache.entries :=
  ⟨fun hx => hx.plain.follows, fun hx hb hc => h.child hx hb hc⟩

/-- Elements of the model are parent-dependent, so a recording can rely on its copy of the store. -/
theorem Coherent.grounded (h : Coherent std store) :
    Recorder.Grounded IsElement store.cache.entries :=
  h.region.grounded (fun q hq => (h.faithful.plain.keys q hq).dependent) fun hx => hx.plain.dependent

/-- **The differences are those of the whole states**: what a reconcile copies before it builds is all that
is looked at afterwards. -/
theorem differences_eq_compare {dom : Handle → Prop} {old new : Bodies} (hold : Recorder.Grounded dom old)
    (hnew : Recorder.Grounded dom new) (he : dom e) (limit : Nat) :
    differences limit e old new =
      (Recorder.compare old new limit (old.length + 1) 0 e (Builder.new e)).map fun r => r.1.delta := by
  rw [differences, Recorder.Recording.finish_begun hold hnew he]
  rcases Recorder.compare old new limit (old.length + 1) 0 e (Builder.new e) with error | r <;> rfl

/-- Two coherent stores **always** have differences that can be told: children stand where they belong in both, and
a report about such an element is never refused. A reconcile does not stop after its commit. -/
theorem differences_ok (h : Coherent std store) (ht : Coherent std t) (he : IsElement e)
    (limit : Nat) : ∃ delta, differences limit e store.cache.entries t.cache.entries = .ok delta := by
  obtain ⟨b, d, hb, -⟩ : ∃ b d, Recorder.compare store.cache.entries t.cache.entries limit
      (store.cache.entries.length + 1) 0 e (Builder.new e) = .ok (b, d) ∧
        Recorder.Outcome lexicon (Builder.new e) b d :=
    Recorder.compare_ok h.region ht.region he (Delta.sound_new he.plain.follows) (.here e)
  refine ⟨b.delta, ?_⟩
  rw [differences_eq_compare h.grounded ht.grounded he, hb]
  rfl

/-! ## Committing a working copy -/

/-- **What is built for a working copy** from its buffer meets the standard: a project lists what is there, and a
file comes from the buffer as it is now, at the version that the working copy notes. -/
theorem batch_of_copy (ha : std.Admits p files) (he : IsProject e ∨ IsFile e)
    (hin : InForce t e id c b) (hnumber : b.id = c.buffer) (hrec : c.reconciled = some b.version)
    (h : p.made files canceled e (some b.snapshot) = .ok bodies) : Batch (std.demands t) e bodies := by
  rcases he with hq | hf
  · rw [made_project hq] at h
    split at h
    · cases h
    · simp only [Option.isNone_some, Bool.false_and, Bool.false_eq_true, if_false] at h
      rcases hb : p.body files e with error | body
      · rw [hb] at h
        cases h
      · rw [hb] at h
        cases h
        exact .project hq (ha.listing hq hb)
  · rw [made_some_file hf] at h
    split at h
    · cases h
    · cases h
      refine .file hf ⟨fun hnone => ?_, fun hc => ?_⟩
      · have := hin.registered
        rw [hnone] at this
        cases this
      · -- the structure is that of the buffer as it is now
        obtain ⟨-, rfl, rfl⟩ := hin.unique hc
        exact ⟨congrArg some hnumber, hrec, Nat.le_refl _, fun _ => rfl⟩

/-- A new structure is a matter of the cache and of the one working copy. -/
theorem upkeep_renewed {version : Nat} (hc : ∀ c, store.copy? id = some c → c.element = e) :
    Upkeep (· = e) store (renewed store id e bodies version) := by
  have hcommit : Upkeep (· = e) store (store.commit e bodies).2 := Upkeep.of_eq rfl rfl rfl
  exact hcommit.trans (upkeep_modifyCopy fun c h hne => absurd (hc c h) hne)

/-- **Committing** what was built from the buffer of a working copy that can be used. The store stays coherent, the
working copy stays in force, and its pin keeps the new bodies in the cache. -/
theorem Coherent.committed (h : Coherent std store) (ha : std.Admits p files)
    (hin : InForce store e id c b) (he : IsElement e)
    (hmade : p.made files canceled e (some b.snapshot) = .ok bodies) :
    Restructured std e bodies id { c with reconciled := some b.version } b store
      (renewed store id e bodies b.version) := by
  have hopen := (h.registered he.plain hin.registered).1
  have hin' : InForce (renewed store id e bodies b.version) e id { c with reconciled := some b.version }
      b :=
    ⟨hin.registered, copy?_renewed hin.copy e bodies b.version, hin.element, hin.ready, hin.live,
      hin.buffer⟩
  have hbatch := batch_of_copy ha hopen hin' (h.numbered hin.buffer) rfl hmade
  have hheld : (std.demands store).held e := ⟨he.plain, by rw [hin.registered]; rfl⟩
  refine h.restructure (upkeep_renewed fun c' hc' => ?_) ⟨h.quiet.drafts, h.quiet.building⟩ h.registry
    hin' hbatch (Store.committed_commit h.faithful.plain hbatch.plain) fun k => ?_
  · cases hin.copy.symm.trans hc'
    exact hin.element
  · -- a working copy has its pin already
    rw [iff_self_or]
    rintro rfl
    exact h.faithful.pinned hheld

/-! ## Enrolment -/

/-- After an enrolment the element is registered with the new working copy, and others are as they were. -/
theorem copyOf?_enrolled (h : Coherent std store) (he : e.Plain lexicon) (hx : x.Plain lexicon)
    (buffer : BufferId) (callback : Option CallbackId) :
    (enrolled store e buffer callback).copyOf? x =
      if x = e then some store.copies.length else store.copyOf? x :=
  h.registry.get?_insert he hx

/-- An enrolment leaves the working copies of other elements alone, and the buffers but for an owner. -/
theorem upkeep_enrolled (h : Coherent std store) (he : e.Plain lexicon) (buffer : BufferId)
    (callback : Option CallbackId) : Upkeep (· = e) store (enrolled store e buffer callback) := by
  have hbuffer : Upkeep (· = e) store (store.modifyBuffer buffer Buffer.retain) :=
    upkeep_modifyBuffer fun b _ => later_retain b
  refine ⟨fun {x} hx hne => ?_, fun {id c} hc _ => ⟨c.refs, ?_⟩, hbuffer.buffer, hbuffer.length⟩
  · rw [copyOf?_enrolled h he hx, if_neg hne]
  · have hlt : id < store.copies.length := (List.getElem?_eq_some_iff.mp hc).1
    exact (List.getElem?_append_left hlt).trans hc

/-- A new working copy brings its pin. -/
theorem mem_pinned_enrolled (h : Coherent std store) (he : e.Plain lexicon) (buffer : BufferId)
    (callback : Option CallbackId) {k : Handle} :
    k ∈ (enrolled store e buffer callback).cache.pinned ↔ k ∈ store.cache.pinned ∨ k = e :=
  HandleSet.mem_insert h.pins he

/-- The buffer of a new working copy has one owner more, whoever else may hold it. -/
theorem buffer?_enrolled {buffer : BufferId} (e : Handle) (callback : Option CallbackId)
    (hb : store.buffer? buffer = some b) :
    (enrolled store e buffer callback).buffer? buffer = some b.retain := by
  rw [Store.buffer?] at hb
  simp [enrolled, Store.buffer?, hb]

/-- The store with a new working copy of `e` and its first structure, before it is ready. -/
def outfitted (s : Store) (e : Handle) (buffer : BufferId) (callback : Option CallbackId)
    (bodies : Table Body) (version : Nat) : Store :=
  renewed (enrolled s e buffer callback) s.copies.length e bodies version

section Outfitted

variable {buffer : BufferId} {callback : Option CallbackId} {version : Nat}

/-- The new working copy knows the version it was built from, and is not ready yet. -/
theorem copy?_outfitted (s : Store) (e : Handle) (buffer : BufferId) (callback : Option CallbackId)
    (bodies : Table Body) (version : Nat) :
    (outfitted s e buffer callback bodies version).copy? s.copies.length =
      some { element := e, buffer, callback, refs := 1, reconciled := some version } :=
  copy?_renewed (copy?_enrolled s e buffer callback) e bodies version

/-- The working copies of others are left alone until then. -/
theorem upkeep_outfitted (h : Coherent std store) (he : e.Plain lexicon) :
    Upkeep (· = e) store (outfitted store e buffer callback bodies version) := by
  refine (upkeep_enrolled h he buffer callback).trans (upkeep_renewed fun c hc => ?_)
  cases (copy?_enrolled store e buffer callback).symm.trans hc
  rfl

/-- The first structure is committed to a cache in which the element is pinned already. -/
theorem committed_outfitted (e : Handle) (buffer : BufferId) (callback : Option CallbackId)
    (version : Nat) (h : Coherent std store) (hplain : Table.Plain lexicon bodies) :
    Store.Committed lexicon (enrolled store e buffer callback).cache e bodies
      (outfitted store e buffer callback bodies version).cache :=
  Store.committed_commit (s := enrolled store e buffer callback) h.faithful.plain hplain

/-- **The launch** of a new working copy whose first structure was built. The element was none before, so there is
nobody else who counted on its bodies, and those that are cached now come from its buffer. -/
theorem Coherent.launch (callback : Option CallbackId) (h : Coherent std store)
    (ha : std.Admits p files) (he : IsProject e ∨ IsFile e) (hb : store.buffer? buffer = some b)
    (hmade : p.made files canceled e (some b.snapshot) = .ok bodies) :
    let t := (outfitted store e buffer callback bodies b.version).modifyCopy store.copies.length
      fun c => { c with init := .ready }
    Restructured std e bodies store.copies.length
      { element := e, buffer, callback, refs := 1, init := .ready, reconciled := some b.version }
      b.retain store t := by
  intro t
  have hel : IsElement e := he.elim IsProject.element IsFile.element
  have hcopy := copy?_outfitted store e buffer callback bodies b.version
  have hin : InForce t e store.copies.length
      { element := e, buffer, callback, refs := 1, init := .ready, reconciled := some b.version }
      b.retain :=
    ⟨(copyOf?_enrolled h hel.plain hel.plain buffer callback).trans (if_pos rfl),
      Store.copy?_modifyCopy_self hcopy _, rfl, rfl, rfl, buffer?_enrolled e callback hb⟩
  have hnumber : b.id = buffer := h.numbered hb
  have hbatch : Batch (std.demands t) e bodies :=
    batch_of_copy (b := b.retain) ha he hin hnumber rfl hmade
  have hu : Upkeep (· = e) store t := by
    refine (upkeep_outfitted h hel.plain).trans (upkeep_modifyCopy fun c hc hne => absurd ?_ hne)
    cases hcopy.symm.trans hc
    rfl
  exact h.restructure hu ⟨h.quiet.drafts, h.quiet.building⟩ (h.registry.insert hel.plain) hin hbatch
    (committed_outfitted e buffer callback b.version h hbatch.plain)
    fun k => mem_pinned_enrolled h hel.plain buffer callback

end Outfitted

/-! ## Ends -/

/-- **Losing the registration**: whatever was done to the working copy before, and whatever is done to it after, its
bodies are gone and the others are as they were. This is the one way in which working copies end, be it with their
last reference or because their set-up failed. -/
theorem Coherent.unregister {u : Store} (h : Coherent std store) (he : IsProject e ∨ IsFile e)
    (hu : Upkeep (· = e) store t) (hquiet : Quiet t) (hplain : Table.Plain lexicon t.registry)
    (hpins : ∀ k ∈ t.cache.pinned, k.Plain lexicon)
    (hkept : ∀ k ∈ store.cache.pinned, k ∈ t.cache.pinned)
    (hf : Faithful ((std.demands store).waiving e) t.cache)
    (hbodies : ∀ {k x}, (std.demands store).held k → k ≠ e → IsElement x → x = k ∨ DeclaredIn k x →
      t.cache.peek? x = store.cache.peek? x)
    (hafter : Upkeep (· = e) (t.unregister e) u) (hrest : aside u (t.unregister e) = u) :
    Dissolved std e store u := by
  have hel : IsElement e := he.elim IsProject.element IsFile.element
  have hregistry : u.registry = Table.erase t.registry e := by rw [← hrest]; rfl
  have hcache : u.cache = (t.unregister e).cache := by rw [← hrest]; rfl
  refine h.dissolve (v := { t with registry := Table.erase t.registry e, cache := t.cache.unpin e }) hf
    hbodies he ((hu.trans (upkeep_unregister hplain hel.plain)).trans hafter) ?_ ?_ ?_ hcache rfl
    (fun k hk => hpins k (HandleSet.mem_of_mem_erase hk)) fun k hk hne =>
      HandleSet.mem_erase_of_ne hpins hel.plain (hkept k hk) hne
  · rw [← hrest]
    exact ⟨hquiet.drafts, hquiet.building⟩
  · rw [hregistry]
    exact hplain.erase hel.plain
  · rw [Store.copyOf?, hregistry, hplain.get?_erase hel.plain hel.plain, if_pos rfl]

/-- What is left of a working copy whose set-up failed: it is still registered for the element, so that the
registration goes, and it is marked as failed and released. -/
theorem store_withdrawn {error : Error} (hc : s.store.copy? id = some c) (hel : c.element = e)
    (hid : s.store.copyOf? e = some id) :
    (withdrawn id error s).2.store = (((s.store.unregister e).modifyCopy id fun c =>
      { c with init := .failed }).releaseStray id).2 := by
  have hdiscard : s.store.discard id = s.store.unregister e := by
    simp [Store.discard, hc, Store.isInForce, hel, hid]
  rw [withdrawn, hdiscard]
  rcases ((s.store.unregister e).modifyCopy id fun c =>
    { c with init := .failed }).releaseStray id with ⟨cause | r, store⟩ <;> rfl

/-- **A set-up that failed** leaves a coherent store, whatever it did to the bodies of the element before: they are
dropped with the registration. -/
theorem Coherent.withdraw {error : Error} (h : Coherent std store) (he : IsProject e ∨ IsFile e)
    (hu : Upkeep (· = e) store s.store) (hquiet : Quiet s.store)
    (hplain : Table.Plain lexicon s.store.registry)
    (hpins : ∀ k, k ∈ s.store.cache.pinned ↔ k ∈ store.cache.pinned ∨ k = e)
    (hf : Faithful ((std.demands store).waiving e) s.store.cache)
    (hbodies : ∀ {k x}, (std.demands store).held k → k ≠ e → IsElement x → x = k ∨ DeclaredIn k x →
      s.store.cache.peek? x = store.cache.peek? x)
    (hc : s.store.copy? id = some c) (hel : c.element = e) (hid : s.store.copyOf? e = some id) :
    Dissolved std e store (withdrawn id error s).2.store := by
  rw [store_withdrawn hc hel hid]
  have hplain' : e.Plain lexicon := (he.elim IsProject.element IsFile.element).plain
  have hfailed : ∀ c', ((s.store.unregister e).modifyCopy id fun c =>
      { c with init := .failed }).copy? id = some c' → c'.element = e := by
    intro c' hc'
    have hself := Store.copy?_modifyCopy_self (s := s.store.unregister e) hc fun c =>
      { c with init := .failed }
    cases hself.symm.trans hc'
    exact hel
  refine h.unregister he hu hquiet hplain (fun k hk => ?_) (fun k hk => (hpins k).mpr (.inl hk)) hf
    hbodies ((upkeep_modifyCopy fun c' hc' hne => absurd ?_ hne).trans (upkeep_releaseStray hfailed)) ?_
  · rcases (hpins k).mp hk with hk | rfl
    · exact h.pins k hk
    · exact hplain'
  · cases (show s.store.copy? id = some c' from hc').symm.trans hc
    exact hel
  · have haside := releaseStray_aside ((s.store.unregister e).modifyCopy id fun c =>
      { c with init := .failed }) (s.store.unregister e) id
    exact (congrArg Prod.snd haside).symm

/-- What a batch may come from is not asked if nothing is asked of its element. -/
theorem Batch.waiving {d d' : Demands} (h : Batch d' e bodies) (hl : d'.listing = d.listing) :
    Batch (d.waiving e) e bodies := by
  cases h with
  | project hq hb => exact .project hq (show d.listing e _ from hl ▸ hb)
  | file hf _ => exact .file hf fun hne => absurd rfl hne

section Failed

variable {buffer : BufferId} {callback : Option CallbackId} {version : Nat} {error : Error}
  (h : Coherent std store) (he : IsProject e ∨ IsFile e)

include h he

/-- If nothing was built, the bodies that go are those from before the working copy was registered, as they are when
the element is closed. -/
theorem Coherent.unbuilt (hs : s.store = enrolled store e buffer callback) :
    Dissolved std e store (withdrawn store.copies.length error s).2.store := by
  have hel : IsElement e := he.elim IsProject.element IsFile.element
  have hpins : ∀ k, k ∈ (enrolled store e buffer callback).cache.pinned ↔
      k ∈ store.cache.pinned ∨ k = e := fun k => mem_pinned_enrolled h hel.plain buffer callback
  refine h.withdraw he (hs ▸ upkeep_enrolled h hel.plain buffer callback) ?_ ?_ (hs ▸ hpins) ?_
    (fun _ _ _ _ => ?_) (hs ▸ copy?_enrolled store e buffer callback) rfl ?_
  · rw [hs]
    exact ⟨h.quiet.drafts, h.quiet.building⟩
  · rw [hs]
    exact h.registry.insert hel.plain
  · rw [hs]
    exact (h.faithful.waiving e).of_entries rfl fun hk => (hpins _).mpr (.inl (h.faithful.pinned hk.1))
  · rw [hs]
    rfl
  · rw [hs]
    exact (copyOf?_enrolled h hel.plain hel.plain buffer callback).trans (if_pos rfl)

/-- If the callback refused, the bodies that were built have to go out again. -/
theorem Coherent.refused {d : Demands} (hbatch : Batch d e bodies) (hl : d.listing = std.listing)
    (hs : s.store = outfitted store e buffer callback bodies version) :
    Dissolved std e store (withdrawn store.copies.length error s).2.store := by
  have hel : IsElement e := he.elim IsProject.element IsFile.element
  have hcommit := committed_outfitted e buffer callback version h hbatch.plain
  have hpins : ∀ k, k ∈ (enrolled store e buffer callback).cache.pinned ↔
      k ∈ store.cache.pinned ∨ k = e := fun k => mem_pinned_enrolled h hel.plain buffer callback
  refine h.withdraw he (hs ▸ upkeep_outfitted h hel.plain) ?_ ?_ ?_ ?_ (fun hk hne hx hxk => ?_)
    (hs ▸ copy?_outfitted store e buffer callback bodies version) rfl ?_
  · rw [hs]
    exact ⟨h.quiet.drafts, h.quiet.building⟩
  · rw [hs]
    exact h.registry.insert hel.plain
  · rw [hs, hcommit.pinned]
    exact hpins
  · rw [hs]
    exact h.faithful.commit (hbatch.waiving hl) hcommit (fun hk _ => hk.1)
      (fun hk => (hpins _).mpr (.inl (h.faithful.pinned hk.1))) (fun _ _ hl => hl) fun _ _ ho _ => ho
  · rw [hs]
    exact peek?_of_pinned hbatch hcommit (h.faithful.openable hk)
      ((hpins _).mpr (.inl (h.faithful.pinned hk))) hne hx hxk
  · rw [hs]
    exact (copyOf?_enrolled h hel.plain hel.plain buffer callback).trans (if_pos rfl)

end Failed

end CodeModel.Foo
