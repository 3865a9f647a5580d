import CodeModel.Proofs.Foo.Elements
import CodeModel.Proofs.Store.Commit

/-!
# Faithful caches

What the cache of a Foo session has to be like, and that no operation on caches spoils it.

* The body of a **declaration** is there only together with that of its file, and it is the one that the
  text of the file's body gives.
* Some elements are **held**: they are pinned and their bodies are there; the bodies of a held file are
  there completely.
* What projects may list and what texts files may come from is left open (`Demands`), for what one may
  demand depends on whether the files can change.

There are two rules for showing that a cache is faithful. A cache that **loses** entries stays so if nothing held
goes, and no file without its declarations (`Faithful.lose`); using an entry, overflow and closing come under it.
A **commit** puts in what a build made and drops what was there for the same file before (`Faithful.commit`).
-/

namespace CodeModel.Foo

/-- What is demanded of a cache. The demands grow and shrink with the session: a file is held as long as it is a
working copy, and where it may come from depends on the buffers and on the files. -/
structure Demands where
  /-- The elements whose bodies have to be there. -/
  held : Handle → Prop
  /-- The bodies that projects may have. -/
  listing : Handle → Body → Prop
  /-- The texts that files may come from. -/
  origin : Handle → Snapshot → Prop

/-- A cache that keeps files and their declarations in step, and meets the demands. Nothing is said about which
bodies are there, besides those that are held: so two caches that evict differently can both be faithful, and then
they agree wherever both have a body and the files it came from are the same. -/
structure Faithful (d : Demands) (c : Cache) : Prop where
  /-- the entries are told apart -/
  plain : Table.Plain lexicon c.entries
  /-- they belong to elements of the model -/
  element : ∀ q ∈ c.entries, IsElement q.1
  /-- only projects and files are held -/
  openable : ∀ {e}, d.held e → IsProject e ∨ IsFile e
  /-- what is held is pinned -/
  pinned : ∀ {e}, d.held e → e ∈ c.pinned
  /-- what is held is there -/
  kept : ∀ {e}, d.held e → c.contains e = true
  /-- projects list what they may -/
  project : ∀ {q b}, IsProject q → c.peek? q = some b → d.listing q b
  /-- files come from texts as they may -/
  file : ∀ {f b}, IsFile f → c.peek? f = some b → ∃ sn, b = ownBody f sn ∧ d.origin f sn
  /-- declarations come from the text that their file comes from -/
  declared : ∀ {f x b}, IsFile f → DeclaredIn f x → c.peek? x = some b →
    ∃ sn, c.peek? f = some (ownBody f sn) ∧ Table.get? (fileTable f sn) x = some b
  /-- files that are held are there with all their declarations -/
  complete : ∀ {f sn x b}, IsFile f → d.held f → c.peek? f = some (ownBody f sn) →
    x.Plain lexicon → Table.get? (fileTable f sn) x = some b → c.peek? x = some b

variable {d d' : Demands} {c c' : Cache} {e f x : Handle} {b : Body} {bodies : Table Body}

/-- The body of a file shows the snapshot it was built from, so files with the same body were built from the same
text. -/
theorem ownBody_injective {sn sn' : Snapshot} (h : ownBody f sn = ownBody f sn') : sn = sn' := by
  have hsn := congrArg Body.snapshot? h
  rw [snapshot?_ownBody, snapshot?_ownBody] at hsn
  exact Option.some.inj hsn

/-- What has a body in a faithful cache is an element of the model: nothing else ever gets in. -/
theorem Faithful.element_of_peek? (h : Faithful d c) (hx : x.Plain lexicon)
    (hb : c.peek? x = some b) : IsElement x :=
  h.element _ ((h.plain.get?_eq_some_iff hx).mp hb)

/-- An empty cache is faithful if nothing is held. -/
theorem Faithful.of_empty (he : c.entries = []) (hd : ∀ e, ¬ d.held e) : Faithful d c := by
  have hpeek : ∀ x b, c.peek? x ≠ some b := by
    intro x b
    rw [Cache.peek?, he]
    simp
  refine ⟨he ▸ Table.plain_nil, by simp [he], fun h => absurd h (hd _), fun h => absurd h (hd _),
    fun h => absurd h (hd _), fun _ h => absurd h (hpeek _ _), fun _ h => absurd h (hpeek _ _),
    fun _ _ h => absurd h (hpeek _ _), fun _ h => absurd h (hd _)⟩

/-! ## Pins -/

/-- A pin on a file protects its declarations, too, since pins cover all that is below them. -/
theorem isPinned_of_mem {pins : HandleSet} (hc : c.pinned = pins) (he : e ∈ pins)
    (hx : x = e ∨ DeclaredIn e x) : c.isPinned x = true := by
  have hcontains : HandleSet.contains c.pinned e = true :=
    HandleSet.contains_iff.mpr ⟨e, hc ▸ he, Handle.same_refl e⟩
  rw [Cache.isPinned, HandleSet.covers, Bool.or_eq_true]
  rcases hx with rfl | ⟨n, rfl, -⟩
  · exact .inl hcontains
  · exact .inr (List.any_eq_true.mpr ⟨e, List.mem_cons_self .., hcontains⟩)

theorem not_declaredIn (h : IsProject x ∨ IsFile x) : ¬ DeclaredIn e x := by
  intro hx
  have hopen := h.elim IsProject.openable IsFile.openable
  rw [hx.not_openable] at hopen
  cases hopen

/-- What can be held has no owner: owners are those of declarations, and projects and files can be opened by
themselves. -/
theorem not_isOwnedBy_of_held (h : IsProject e ∨ IsFile e) (o : Handle) : e.isOwnedBy o = false := by
  rcases h with h | h
  · exact Store.not_isOwnedBy_of_openable h.openable o
  · exact Store.not_isOwnedBy_of_openable h.openable o

/-- What is a held element, or declared in one, has no other owner. So the eviction of another owner does not take
it along. -/
theorem owner_eq {k o : Handle} (hk : IsProject k ∨ IsFile k) (hx : IsElement x)
    (hxk : x = k ∨ DeclaredIn k x) (ho : o.Plain lexicon) (hxo : x.isOwnedBy o = true) : o = k := by
  rcases hxk with rfl | hxk
  · rw [not_isOwnedBy_of_held hk] at hxo
    cases hxo
  · exact ((isOwnedBy_iff hx ho).mp hxo).2.unique hxk

/-! ## Losing entries -/

/-- **A cache that loses entries** stays faithful if it loses nothing that is held, and no file without its
declarations. Whatever is left came from where it came from before; only what has to be there could be missing. -/
theorem Faithful.lose (h : Faithful d c) (hplain : Table.Plain lexicon c'.entries)
    (hpinned : ∀ {e}, d'.held e → e ∈ c'.pinned)
    (hheld : ∀ {e}, d'.held e → d.held e)
    (hlisting : ∀ {q b}, IsProject q → c'.contains q = true → d.listing q b → d'.listing q b)
    (horigin : ∀ {f sn}, IsFile f → c'.contains f = true → d.origin f sn → d'.origin f sn)
    (hlost : ∀ {x b}, x.Plain lexicon → c'.peek? x = some b → c.peek? x = some b)
    (howner : ∀ {f x}, IsFile f → DeclaredIn f x → c'.contains x = true → c'.contains f = true)
    (hspared : ∀ {e x}, d'.held e → IsElement x → x = e ∨ DeclaredIn e x →
      c'.peek? x = c.peek? x) :
    Faithful d' c' := by
  refine ⟨hplain, fun q hq => ?_, fun he => h.openable (hheld he), hpinned, fun {e} he => ?_,
    fun hq hb => hlisting hq (congrArg Option.isSome hb) (h.project hq (hlost hq.plain hb)),
    fun {f b} hf hb => ?_,
    fun {f x b} hf hx hb => ?_, fun {f sn x b} hf he hb hx hxb => ?_⟩
  · -- every entry left was there before
    have hq' := hlost (hplain.keys q hq) ((hplain.get?_eq_some_iff (hplain.keys q hq)).mpr hq)
    exact h.element_of_peek? (hplain.keys q hq) hq'
  · have hel : IsElement e := (h.openable (hheld he)).elim IsProject.element IsFile.element
    rw [Cache.contains, hspared he hel (.inl rfl)]
    exact h.kept (hheld he)
  · obtain ⟨sn, rfl, hsn⟩ := h.file hf (hlost hf.plain hb)
    exact ⟨sn, rfl, horigin hf (congrArg Option.isSome hb) hsn⟩
  · -- the file of a declaration that is left is left, too, and its body is the one from before
    obtain ⟨sn, hsn, hxb⟩ := h.declared hf hx (hlost (hx.plain hf) hb)
    have hcf := howner hf hx (congrArg Option.isSome hb)
    obtain ⟨bf, hbf⟩ := Option.isSome_iff_exists.mp hcf
    have := hlost hf.plain hbf
    rw [hsn] at this
    exact ⟨sn, this ▸ hbf, hxb⟩
  · -- what is held was complete, and nothing of it is lost
    have hxf : x = f ∨ DeclaredIn f x := (mem_fileTable hf hx hxb).imp And.left And.left
    have hel : IsElement x := hxf.elim (fun h => h ▸ hf.element) (DeclaredIn.element hf)
    rw [hspared he hel hxf]
    exact h.complete hf (hheld he) (hlost hf.plain hb) hx hxb

theorem Faithful.weaken (h : Faithful d c) (hheld : ∀ {e}, d'.held e → d.held e)
    (hlisting : ∀ {q b}, IsProject q → d.listing q b → d'.listing q b)
    (horigin : ∀ {f sn}, IsFile f → d.origin f sn → d'.origin f sn) : Faithful d' c := by
  refine ⟨h.plain, h.element, fun he => h.openable (hheld he), fun he => h.pinned (hheld he),
    fun he => h.kept (hheld he), fun hq hb => hlisting hq (h.project hq hb), fun hf hb => ?_,
    h.declared, fun hf he => h.complete hf (hheld he)⟩
  obtain ⟨sn, hsn, horig⟩ := h.file hf hb
  exact ⟨sn, hsn, horigin hf horig⟩

/-- Using an entry changes the order of entries only, and faithfulness does not speak of the order. -/
theorem Faithful.touch (h : Faithful d c) (he : IsElement e) : Faithful d (c.touch e) := by
  have hpeek : ∀ {x : Handle}, x.Plain lexicon → (c.touch e).peek? x = c.peek? x := fun hx =>
    Cache.peek?_touch h.plain.toDistinct he.plain.follows hx.follows
  refine h.lose (Cache.plain_touch h.plain he.plain.follows) (fun he => ?_) id (fun _ _ => id)
    (fun _ _ => id)
    (fun hx hb => ?_) (fun {f x} hf hx hc => ?_) (fun _ hx _ => hpeek hx.plain)
  · rw [Cache.pinned_touch]
    exact h.pinned he
  · rwa [← hpeek hx]
  · rw [Cache.contains, hpeek (hx.plain hf)] at hc
    obtain ⟨b, hb⟩ := Option.isSome_iff_exists.mp hc
    obtain ⟨sn, hsn, -⟩ := h.declared hf hx hb
    rw [Cache.contains, hpeek hf.plain, hsn]
    rfl

theorem Faithful.of_entries (h : Faithful d c) (he : c'.entries = c.entries)
    (hp : ∀ {e}, d.held e → e ∈ c'.pinned) : Faithful d c' := by
  have hpeek : c'.peek? = c.peek? := by
    funext x
    rw [Cache.peek?, he, Cache.peek?]
  refine ⟨he ▸ h.plain, he ▸ h.element, h.openable, hp, ?_, hpeek ▸ h.project, hpeek ▸ h.file,
    hpeek ▸ h.declared, hpeek ▸ h.complete⟩
  intro e hd
  rw [Cache.contains, hpeek]
  exact h.kept hd

/-- **Overflow** spares what is held, since it spares what is pinned, and it takes the declarations of a file along
with the file. -/
theorem Faithful.shed {safe : Handle → Prop} (h : Faithful d c)
    (hshed : Store.Shed lexicon safe c c') (hsafe : ∀ {x}, c.isPinned x = true → safe x) :
    Faithful d c' := by
  refine h.lose hshed.plain (fun he => hshed.pinned ▸ h.pinned he) id (fun _ _ => id)
    (fun _ _ => id) hshed.kept
    (fun {f x} hf hx hc => ?_) (fun {e x} he hel hx => ?_)
  · refine hshed.owner (hx.plain hf) hf.plain (hx.isOwnedBy hf) hc ?_
    obtain ⟨b, hb⟩ := Option.isSome_iff_exists.mp hc
    obtain ⟨sn, hsn, -⟩ := h.declared hf hx (hshed.kept (hx.plain hf) hb)
    rw [Cache.contains, hsn]
    rfl
  · -- the owner of what is below a held file is the file
    refine hshed.spared hel.plain (hsafe (isPinned_of_mem rfl (h.pinned he) hx)) fun o ho hxo => ?_
    rw [owner_eq (h.openable he) hel hx ho hxo]
    exact hsafe (isPinned_of_mem rfl (h.pinned he) (.inl rfl))

theorem isOwnedBy_of_declared {f : Handle} (hf : IsFile f) (hx : DeclaredIn f x)
    (he : e.Plain lexicon) : x.isOwnedBy e = true ↔ f = e := by
  rw [isOwnedBy_iff (hx.element hf) he]
  constructor
  · rintro ⟨-, hxe⟩
    exact hx.unique hxe
  · rintro rfl
    exact ⟨hf, hx⟩

/-- Closing leaves alone what belongs to other projects and files. Only what the element owns goes with it, and a
declaration is owned by its own file. -/
theorem peek?_eraseTree_of_ne {s : Store} {k : Handle} (hplain : Table.Plain lexicon s.cache.entries)
    (he : IsProject e ∨ IsFile e) (hk : IsProject k ∨ IsFile k) (hne : k ≠ e) (hx : IsElement x)
    (hxk : x = k ∨ DeclaredIn k x) : (s.eraseTree e).2.cache.peek? x = s.cache.peek? x := by
  have hel : IsElement e := he.elim IsProject.element IsFile.element
  rw [Store.peek?_eraseTree hplain hel.plain hx.plain, if_neg]
  rintro (rfl | hxe)
  · rcases hxk with rfl | hxk
    · exact hne rfl
    · exact not_declaredIn he hxk
  · exact hne (owner_eq hk hx hxk hel.plain hxe).symm

/-- **Closing** takes a file out together with its declarations, and other files stay complete, as a declaration is
owned by its own file only. -/
theorem Faithful.eraseTree {s : Store} (h : Faithful d c) (hentries : s.cache.entries = c.entries)
    (he : IsProject e ∨ IsFile e) (hpinned : ∀ {x}, d'.held x → x ∈ s.cache.pinned)
    (hheld : ∀ {x}, d'.held x → d.held x ∧ x ≠ e)
    (hlisting : ∀ {q b}, IsProject q → q ≠ e → d.listing q b → d'.listing q b)
    (horigin : ∀ {f sn}, IsFile f → f ≠ e → d.origin f sn → d'.origin f sn) :
    Faithful d' (s.eraseTree e).2.cache := by
  have hel : IsElement e := he.elim IsProject.element IsFile.element
  have hplain : Table.Plain lexicon s.cache.entries := hentries ▸ h.plain
  have hpeek : ∀ {x : Handle}, x.Plain lexicon → (s.eraseTree e).2.cache.peek? x =
      if x = e ∨ x.isOwnedBy e = true then none else c.peek? x := by
    intro x hx
    rw [Store.peek?_eraseTree hplain hel.plain hx, Cache.peek?, hentries, Cache.peek?]
  have hgone : ∀ {x b}, x.Plain lexicon → (s.eraseTree e).2.cache.peek? x = some b →
      ¬ (x = e ∨ x.isOwnedBy e = true) ∧ c.peek? x = some b := by
    intro x b hx hb
    rw [hpeek hx] at hb
    split at hb
    · cases hb
    · exact ⟨by assumption, hb⟩
  have hne : ∀ {x}, (s.eraseTree e).2.cache.contains x = true → x ≠ e := by
    rintro x hx rfl
    rw [Cache.contains, hpeek hel.plain, if_pos (.inl rfl)] at hx
    cases hx
  refine h.lose (Store.plain_eraseTree hplain hel.plain)
    (fun hx => (Store.pinned_eraseTree s e).symm ▸ hpinned hx) (fun hx => (hheld hx).1)
    (fun hq hc => hlisting hq (hne hc)) (fun hf hc => horigin hf (hne hc))
    (fun hx hb => (hgone hx hb).2) (fun {f x} hf hx hc => ?_) (fun {k x} hk hx hxk => ?_)
  · -- a declaration that stays is not in the tree of `e`, so neither is its file
    obtain ⟨b, hb⟩ := Option.isSome_iff_exists.mp hc
    obtain ⟨hne, hb⟩ := hgone (hx.plain hf) hb
    obtain ⟨sn, hsn, -⟩ := h.declared hf hx hb
    have hfe : f ≠ e := fun hfe => hne (.inr ((isOwnedBy_of_declared hf hx hel.plain).mpr hfe))
    rw [Cache.contains, hpeek hf.plain, if_neg, hsn]
    · rfl
    · simp [hfe, not_isOwnedBy_of_held (.inr hf)]
  · obtain ⟨hk, hke⟩ := hheld hk
    rw [peek?_eraseTree_of_ne hplain he (h.openable hk) hke hx hxk, Cache.peek?, hentries, Cache.peek?]

/-! ## Commits -/

/-- The bodies that a build of `e` makes: one for a project, those of a text for a file. -/
inductive Batch (d : Demands) : Handle → Table Body → Prop where
  /-- the listing of a project -/
  | project {q : Handle} {b : Body} (hq : IsProject q) (hb : d.listing q b) : Batch d q [(q, b)]
  /-- the bodies of a file -/
  | file {f : Handle} {sn : Snapshot} (hf : IsFile f) (hsn : d.origin f sn) :
      Batch d f (fileTable f sn)

theorem Batch.openable (h : Batch d e bodies) : IsProject e ∨ IsFile e := by
  cases h with
  | project hq _ => exact .inl hq
  | file hf _ => exact .inr hf

/-- The handles of a batch are told apart by their names and ancestors. -/
theorem Batch.plain (h : Batch d e bodies) : Table.Plain lexicon bodies := by
  cases h with
  | @project b hq _ => exact Table.plain_ofList [(e, b)] (by simpa using hq.plain)
  | file hf _ => exact plain_fileTable hf _

theorem Batch.contains_self (h : Batch d e bodies) : Table.contains bodies e = true := by
  cases h with
  | project hq _ => simp [Table.contains, Table.get?]
  | file hf _ => simp [Table.contains, get?_fileTable_self]

/-- A batch is about its element and what stands in it. -/
theorem Batch.of_get? (h : Batch d e bodies) (hx : x.Plain lexicon)
    (hb : Table.get? bodies x = some b) : x = e ∨ IsFile e ∧ DeclaredIn e x := by
  cases h with
  | project hq _ =>
    simp only [Table.get?] at hb
    split at hb
    · rename_i hxe
      exact .inl ((hx.same_iff hq.plain).mp hxe)
    · cases hb
  | file hf _ => exact (mem_fileTable hf hx hb).imp And.left fun h => ⟨hf, h.1⟩

theorem Batch.get?_eq_none (h : Batch d e bodies) (hx : x.Plain lexicon) (hne : x ≠ e)
    (hd : ¬ DeclaredIn e x) : Table.get? bodies x = none := by
  rcases hb : Table.get? bodies x with _ | b
  · rfl
  · rcases h.of_get? hx hb with hxe | ⟨-, hxe⟩
    · exact absurd hxe hne
    · exact absurd hxe hd

section Committed

variable {pins : HandleSet} (hbatch : Batch d' e bodies)
  (hc : Store.Committed lexicon { c with pinned := pins } e bodies c')

include hbatch hc

/-- What the batch has goes in, for its owner goes in with it, and nothing of a batch is evicted while it comes in.
-/
theorem peek?_of_batch (hx : x.Plain lexicon) (hb : Table.get? bodies x = some b) :
    c'.peek? x = some b := by
  refine hc.brought hx hb fun o ho hxo => ?_
  rcases hbatch.of_get? hx hb with rfl | ⟨hf, hxe⟩
  · rw [not_isOwnedBy_of_held hbatch.openable] at hxo
    cases hxo
  · rw [← (isOwnedBy_of_declared hf hxe ho).mp hxo]
    exact hbatch.contains_self

/-- What the batch is not about was there before. -/
theorem peek?_of_not_batch (hx : x.Plain lexicon) (hne : x ≠ e) (hd : ¬ DeclaredIn e x)
    (hb : c'.peek? x = some b) : c.peek? x = some b :=
  (hc.kept hx (hbatch.get?_eq_none hx hne hd) hb).1

/-- What is pinned besides the element of the batch stays: it is not in the batch, so it is not replaced, and a pin
protects it from being evicted. -/
theorem peek?_of_pinned {k : Handle} (hk : IsProject k ∨ IsFile k) (hpin : k ∈ pins) (hne : k ≠ e)
    (hx : IsElement x) (hxk : x = k ∨ DeclaredIn k x) : c'.peek? x = c.peek? x := by
  have hel : IsElement e := hbatch.openable.elim IsProject.element IsFile.element
  have hxe : x ≠ e := by
    rintro rfl
    rcases hxk with rfl | hxk
    · exact hne rfl
    · exact not_declaredIn hbatch.openable hxk
  have hxd : ¬ DeclaredIn e x := by
    rcases hxk with rfl | hxk
    · exact not_declaredIn hk
    · exact fun hxe => hne (hxk.unique hxe)
  refine hc.spared hx.plain (hbatch.get?_eq_none hx.plain hxe hxd) ?_ (isPinned_of_mem rfl hpin hxk)
    fun o ho hxo => ?_
  · rw [← Bool.not_eq_true, isOwnedBy_iff hx hel.plain]
    exact fun h => hxd h.2
  · rw [owner_eq hk hx hxk ho hxo]
    exact isPinned_of_mem rfl hpin (.inl rfl)

/-- A project that was built has the listing of the batch. -/
theorem listing_of_batch (hq : IsProject e) (hb : c'.peek? e = some b) : d'.listing e b := by
  cases hbatch with
  | @project b' _ hl =>
    have hget : Table.get? [(e, b')] e = some b' := by simp [Table.get?]
    rw [peek?_of_batch (.project hq hl) hc hq.plain hget] at hb
    exact Option.some.inj hb ▸ hl
  | file hf _ => exact absurd rfl (hq.ne_file hf)

/-- A file that was built is there with the declarations of its text, and with no others: those of the text before
are dropped before the new ones go in. -/
theorem file_of_batch (hf : IsFile e) :
    ∃ sn, d'.origin e sn ∧ c'.peek? e = some (ownBody e sn) ∧
      ∀ {x}, DeclaredIn e x → c'.peek? x = Table.get? (fileTable e sn) x := by
  cases hbatch with
  | project hq _ => exact absurd rfl (hq.ne_file hf)
  | @file sn _ hsn =>
    have hbrought := fun {x b} => peek?_of_batch (x := x) (b := b) (.file hf hsn) hc
    refine ⟨sn, hsn, hbrought hf.plain (get?_fileTable_self e sn), fun {x} hx => ?_⟩
    rcases hxb : Table.get? (fileTable e sn) x with _ | b
    · -- what the file owns and the batch has not was dropped
      rcases hb : c'.peek? x with _ | b
      · rfl
      · have howned := (hc.kept (hx.plain hf) hxb hb).2
        rw [hx.isOwnedBy hf] at howned
        cases howned
    · exact hbrought (hx.plain hf) hxb

/-- A declaration of another file was there with its file, and the file stays with it. -/
theorem declared_of_not_batch {f : Handle} (h : Faithful d c) (hf : IsFile f) (hfe : f ≠ e)
    (hx : DeclaredIn f x) (hb : c'.peek? x = some b) :
    ∃ sn, c'.peek? f = some (ownBody f sn) ∧ Table.get? (fileTable f sn) x = some b := by
  have hxe : x ≠ e := by
    rintro rfl
    exact not_declaredIn hbatch.openable hx
  have hxb := peek?_of_not_batch hbatch hc (hx.plain hf) hxe (fun hxe => hfe (hx.unique hxe)) hb
  obtain ⟨sn, hsn, htable⟩ := h.declared hf hx hxb
  have hcf : c'.contains f = true :=
    hc.owner (hx.plain hf) hf.plain (hx.isOwnedBy hf) (congrArg Option.isSome hb)
      (congrArg Option.isSome hsn)
  obtain ⟨bf, hbf⟩ := Option.isSome_iff_exists.mp hcf
  have hbf' := peek?_of_not_batch hbatch hc hf.plain hfe (not_declaredIn (.inr hf)) hbf
  rw [hsn] at hbf'
  exact ⟨sn, hbf' ▸ hbf, htable⟩

/-- What has entries after a commit is an element. -/
theorem element_of_commit (h : Faithful d c) {q : Handle × Body} (hq : q ∈ c'.entries) :
    IsElement q.1 := by
  have hkey := hc.plain.keys q hq
  have hb := (hc.plain.get?_eq_some_iff hkey).mpr hq
  rcases hbq : Table.get? bodies q.1 with _ | b
  · exact h.element_of_peek? hkey (hc.kept hkey hbq hb).1
  · rcases hbatch.of_get? hkey hbq with hqe | ⟨hf, hqe⟩
    · exact hqe ▸ hbatch.openable.elim IsProject.element IsFile.element
    · exact hqe.element hf

/-- **A commit** of what a build made keeps a cache faithful. An element of the batch has just what the build made
for it, and what is elsewhere was there before and is still there with its owner; what overflows is nothing that is
held. -/
theorem Faithful.commit (h : Faithful d c) (hheld : ∀ {x}, d'.held x → x ≠ e → d.held x)
    (hpins : ∀ {x}, d'.held x → x ∈ pins)
    (hlisting : ∀ {q b}, IsProject q → q ≠ e → d.listing q b → d'.listing q b)
    (horigin : ∀ {f sn}, IsFile f → f ≠ e → d.origin f sn → d'.origin f sn) :
    Faithful d' c' := by
  have hel : IsElement e := hbatch.openable.elim IsProject.element IsFile.element
  have hopen : ∀ {x}, d'.held x → IsProject x ∨ IsFile x := fun {x} hx =>
    (em (x = e)).elim (fun hxe => hxe ▸ hbatch.openable) fun hxe => h.openable (hheld hx hxe)
  -- each demand is met by the batch for its own element, and was met before for any other
  refine ⟨hc.plain, fun q hq => element_of_commit hbatch hc h hq, hopen,
    fun hx => hc.pinned ▸ hpins hx, fun {x} hx => ?_, fun {q b} hq hb => ?_, fun {f b} hf hb => ?_,
    fun {f x b} hf hx hb => ?_, fun {f sn x b} hf hx hb hxp hxb => ?_⟩
  · by_cases hxe : x = e
    · obtain ⟨b, hb⟩ := Option.isSome_iff_exists.mp hbatch.contains_self
      rw [hxe, Cache.contains, peek?_of_batch hbatch hc hel.plain hb]
      rfl
    · have hxel := (hopen hx).elim IsProject.element IsFile.element
      rw [Cache.contains, peek?_of_pinned hbatch hc (hopen hx) (hpins hx) hxe hxel (.inl rfl)]
      exact h.kept (hheld hx hxe)
  · by_cases hqe : q = e
    · subst hqe
      exact listing_of_batch hbatch hc hq hb
    · exact hlisting hq hqe
        (h.project hq (peek?_of_not_batch hbatch hc hq.plain hqe (not_declaredIn (.inl hq)) hb))
  · by_cases hfe : f = e
    · subst hfe
      obtain ⟨sn, hsn, hfb, -⟩ := file_of_batch hbatch hc hf
      exact ⟨sn, Option.some.inj (hb.symm.trans hfb), hsn⟩
    · obtain ⟨sn, hsn, horig⟩ := h.file hf
        (peek?_of_not_batch hbatch hc hf.plain hfe (not_declaredIn (.inr hf)) hb)
      exact ⟨sn, hsn, horigin hf hfe horig⟩
  · by_cases hfe : f = e
    · subst hfe
      obtain ⟨sn, -, hfb, hdeclared⟩ := file_of_batch hbatch hc hf
      exact ⟨sn, hfb, (hdeclared hx).symm.trans hb⟩
    · exact declared_of_not_batch hbatch hc h hf hfe hx hb
  · have hxf : x = f ∨ DeclaredIn f x := (mem_fileTable hf hxp hxb).imp And.left And.left
    by_cases hfe : f = e
    · subst hfe
      obtain ⟨sn', -, hfb, hdeclared⟩ := file_of_batch hbatch hc hf
      obtain rfl := ownBody_injective (Option.some.inj (hfb.symm.trans hb))
      rcases hxf with rfl | hxf
      · rw [hb, ← hxb, get?_fileTable_self]
      · rw [hdeclared hxf, hxb]
    · have hxel : IsElement x := hxf.elim (fun h => h ▸ hf.element) (DeclaredIn.element hf)
      have hpinned := fun {y} => peek?_of_pinned (x := y) hbatch hc (.inr hf) (hpins hx) hfe
      rw [hpinned hf.element (.inl rfl)] at hb
      rw [hpinned hxel hxf]
      exact h.complete hf (hheld hx hfe) hb hxp hxb

end Committed

end CodeModel.Foo
