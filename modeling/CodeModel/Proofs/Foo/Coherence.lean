import CodeModel.Proofs.Foo.Building
import CodeModel.Proofs.Foo.Faithful
import CodeModel.Proofs.Foo.Upkeep

/-!
# Coherent stores

The invariant of Foo sessions: the cache is faithful to the files and to the working copies in force.

* A file that is a **working copy** is in the cache, with all its declarations, and its bodies come from a
  text that its buffer had (`Current`). Any other cached file was read.
* What may be **listed** and what may be **read** is left open (`Standard`): as long as the files stay as
  they are one may ask for more than if they change.
* Each operation on the store is shown once to keep a store **coherent** and to **spare** the working
  copies it is not about: using and building (`Turnover`), closing, the commit of a working copy and its
  end.
-/

namespace CodeModel.Foo

open Session

variable {s t u : Store} {e f x : Handle} {id : CopyId} {c : WorkingCopy} {b : Buffer} {sn : Snapshot}
  {bodies : Table Body} {besides : Handle → Prop}

/-! ## Working copies in force -/

/-- **The element has a working copy that can be used**, on the buffer `b`. A working copy that is being set up or
has failed is not in force, although it may have references. -/
structure InForce (s : Store) (e : Handle) (id : CopyId) (c : WorkingCopy) (b : Buffer) : Prop where
  /-- it is registered for the element -/
  registered : s.copyOf? e = some id
  /-- it is known -/
  copy : s.copy? id = some c
  /-- it is a copy of the element -/
  element : c.element = e
  /-- its set-up is done -/
  ready : c.init = .ready
  /-- its end is not announced -/
  live : c.disposed = false
  /-- it has its buffer -/
  buffer : s.buffer? c.buffer = some b

/-- **The snapshot was taken of the buffer of a working copy**, and it is the one that the working copy was
reconciled with last. The buffer may have gone on since then. As its versions only rise and each has one text, the
snapshot has the present text if it has the present version. -/
structure Current (c : WorkingCopy) (b : Buffer) (sn : Snapshot) : Prop where
  /-- it comes from the buffer -/
  origin : sn.origin = some c.buffer
  /-- the working copy knows its version -/
  reconciled : c.reconciled = some sn.version
  /-- the buffer may have gone on -/
  version : sn.version ≤ b.version
  /-- a version has one text -/
  text : sn.version = b.version → sn.text = b.text

/-- An element has one working copy at most, since the registry has one entry for it. -/
theorem InForce.unique {id' : CopyId} {c' : WorkingCopy} {b' : Buffer} (h : InForce s e id c b)
    (h' : InForce s e id' c' b') : id' = id ∧ c' = c ∧ b' = b := by
  obtain rfl := Option.some.inj (h'.registered.symm.trans h.registered)
  obtain rfl := Option.some.inj (h'.copy.symm.trans h.copy)
  exact ⟨rfl, rfl, Option.some.inj (h'.buffer.symm.trans h.buffer)⟩

/-- A working copy in force can be used. -/
theorem InForce.isReady (h : InForce s e id c b) : c.isReady = true := by
  rw [WorkingCopy.isReady, h.ready]
  rfl

/-- A working copy that is left alone stays in force. It may have gained or lost references, and its buffer may have
been edited by others. -/
theorem InForce.upkeep (h : InForce s e id c b) (hu : Upkeep besides s t) (he : e.Plain lexicon)
    (hne : ¬ besides e) : ∃ n b', InForce t e id { c with refs := n } b' ∧ Later b b' := by
  obtain ⟨n, hn⟩ := hu.copy h.copy (h.element.symm ▸ hne)
  obtain ⟨b', hb', hlater⟩ := hu.buffer h.buffer
  exact ⟨n, b', ⟨(hu.copyOf he hne).trans h.registered, hn, h.element, h.ready, h.live, hb'⟩, hlater⟩

/-- A snapshot stays current while the buffer is edited and references come and go. -/
theorem Current.later {b' : Buffer} {n : Nat} (h : Current c b sn) (hb : Later b b') :
    Current { c with refs := n } b' sn := by
  refine ⟨h.origin, h.reconciled, Nat.le_trans h.version hb.version, fun heq => ?_⟩
  have hmid : b'.version = b.version := Nat.le_antisymm (heq ▸ h.version) hb.version
  rw [h.text (heq.trans hmid), hb.text hmid]

/-- A working copy that was reconciled with the present version of its buffer shows its text. So a reconcile that
finds the version unchanged has nothing to do. -/
theorem Current.eq_snapshot (h : Current c b sn) (hnumber : b.id = c.buffer)
    (hversion : c.reconciled = some b.version) : sn = b.snapshot := by
  have heq : sn.version = b.version := Option.some.inj (h.reconciled.symm.trans hversion)
  obtain ⟨origin, version, text⟩ := sn
  obtain rfl : origin = some c.buffer := h.origin
  obtain rfl : version = b.version := heq
  obtain rfl : text = b.text := h.text rfl
  rw [← hnumber]
  rfl

/-- One snapshot of a buffer is of the version of another only if it has its text. -/
theorem Current.text_of_sameVersion (h : Current c b sn)
    (hsame : b.snapshot.sameVersion sn = true) : b.snapshot.text = sn.text := by
  simp only [Snapshot.sameVersion, Bool.and_eq_true, beq_iff_eq] at hsame
  exact (h.text hsame.2.symm).symm

/-! ## Standards -/

/-- **What is asked of bodies that do not come from buffers.** It is left open because two things are proved with
it: what holds while the files change behind the session, and what holds as long as they stay as they are. -/
structure Standard where
  /-- what a project may list -/
  listing : Handle → Body → Prop
  /-- what may have been read for a file -/
  reading : Handle → Snapshot → Prop
  /-- they list files -/
  children : ∀ {q b}, listing q b → ∀ f ∈ b.children, IsFile f ∧ f.parent? = some q

/-- The files meet the standard: what is listed and what is read is allowed. -/
structure Standard.Admits (std : Standard) (p : Project) (files : FileTree) : Prop where
  /-- what is listed -/
  listing : ∀ {q b}, IsProject q → p.body files q = .ok b → std.listing q b
  /-- what is read, after the project was listed -/
  reading : ∀ {q b f text}, std.listing q b → IsFile f → f.parent? = some q →
    p.hasResource files f = true → p.text files f = .ok text → std.reading f (.detached text)

/-- What a standard demands of the cache of a store. -/
def Standard.demands (std : Standard) (s : Store) : Demands where
  held e := e.Plain lexicon ∧ (s.copyOf? e).isSome = true
  listing := std.listing
  origin f sn := (s.copyOf? f = none → std.reading f sn) ∧
    ∀ {id c b}, InForce s f id c b → Current c b sn

/-- **A store whose cache is faithful** to the working copies in force and to the standard. This is the invariant of
Foo sessions. It says of everything that is cached where it comes from, so that an answer from the cache can be
compared with a build; and it says that what belongs to a working copy is there, so that it need not be built again
from a buffer that has gone on. -/
structure Coherent (std : Standard) (s : Store) : Prop where
  /-- no build is going on -/
  quiet : Quiet s
  /-- registrations are told apart -/
  registry : Table.Plain lexicon s.registry
  /-- only projects and files are registered, and only with working copies that can be used -/
  registered : ∀ {e id}, e.Plain lexicon → s.copyOf? e = some id →
    (IsProject e ∨ IsFile e) ∧ ∃ c b, InForce s e id c b
  /-- buffers know their numbers -/
  numbered : ∀ {i b}, s.buffer? i = some b → b.id = i
  /-- pins are told apart -/
  pins : ∀ k ∈ s.cache.pinned, k.Plain lexicon
  /-- the cache is faithful -/
  faithful : Faithful (std.demands s) s.cache

variable {std : Standard}

theorem Coherent.inForce (h : Coherent std s) (he : e.Plain lexicon) (hid : s.copyOf? e = some id) :
    ∃ c b, InForce s e id c b := (h.registered he hid).2

/-- **A file that is a working copy** is there with the text it was reconciled with. It is held, so its body has not
been dropped; and the standard says of held files that they come from a current snapshot. -/
theorem Coherent.current (h : Coherent std s) (hf : IsFile f) (hc : InForce s f id c b) :
    ∃ sn, s.cache.peek? f = some (ownBody f sn) ∧ Current c b sn := by
  have hheld : (std.demands s).held f := ⟨hf.plain, by rw [hc.registered]; rfl⟩
  obtain ⟨body, hbody⟩ := Option.isSome_iff_exists.mp (h.faithful.kept hheld)
  obtain ⟨sn, rfl, -, hsn⟩ := h.faithful.file hf hbody
  exact ⟨sn, hbody, hsn hc⟩

theorem Coherent.copyOf?_eq_none (h : Coherent std s) (he : e.Plain lexicon)
    (hnone : s.cache.peek? e = none) : s.copyOf? e = none := by
  rcases hid : s.copyOf? e with _ | id
  · rfl
  · have hkept := h.faithful.kept (e := e) ⟨he, by rw [hid]; rfl⟩
    rw [Cache.contains, hnone] at hkept
    cases hkept

/-- What is no working copy has no buffer to be built from. -/
theorem copySnapshot?_of_none (h : s.copyOf? e = none) : s.copySnapshot? e = none := by
  simp [Store.copySnapshot?, Store.workingCopy?, h]

/-! ## Sparing -/

/-- **The working copies of all elements but some are left alone**, with their bodies. Operations are shown to spare
all working copies but the one they are about; what they do to the rest of the cache is not said. -/
structure Spared (besides : Handle → Prop) (s t : Store) : Prop extends Upkeep besides s t where
  /-- the bodies of what is a working copy stay, with those of the declarations in it -/
  bodies : ∀ {e x}, e.Plain lexicon → (s.copyOf? e).isSome = true → ¬ besides e → IsElement x →
    x = e ∨ DeclaredIn e x → t.cache.peek? x = s.cache.peek? x

theorem Spared.refl (s : Store) : Spared besides s s := ⟨Upkeep.refl s, fun _ _ _ _ _ => rfl⟩

theorem Spared.trans (h : Spared besides s t) (k : Spared besides t u) : Spared besides s u := by
  refine ⟨h.toUpkeep.trans k.toUpkeep, fun he hheld hne hx hxe => ?_⟩
  have hheld' := hheld
  rw [← h.copyOf he hne] at hheld'
  exact (k.bodies he hheld' hne hx hxe).trans (h.bodies he hheld hne hx hxe)

theorem Spared.mono {some' : Handle → Prop} (h : Spared besides s t)
    (himp : ∀ e, besides e → some' e) : Spared some' s t :=
  ⟨h.toUpkeep.mono himp, fun he hheld hne => h.bodies he hheld fun hb => hne (himp _ hb)⟩

/-! ## Demands that stay -/

section Upkeep

variable (h : Coherent std s) (hu : Upkeep besides s t)

include hu in
/-- The same elements are working copies before and after, but for some. -/
theorem held_of_upkeep (hne : ¬ besides e) : (std.demands t).held e ↔ (std.demands s).held e := by
  refine and_congr_right fun he => ?_
  rw [hu.copyOf he hne]

include h hu

/-- What a file may come from does not change as long as its working copy is left alone: the buffer may go on, but
the snapshot stays current. -/
theorem Coherent.origin_of_upkeep (hf : IsFile f) (hne : ¬ besides f)
    (ho : (std.demands s).origin f sn) : (std.demands t).origin f sn := by
  refine ⟨fun hnone => ho.1 ((hu.copyOf hf.plain hne).symm.trans hnone), fun {id c b} hc => ?_⟩
  obtain ⟨c₀, b₀, hc₀⟩ := h.inForce hf.plain ((hu.copyOf hf.plain hne).symm.trans hc.registered)
  obtain ⟨n, b', hc', hlater⟩ := hc₀.upkeep hu hf.plain hne
  obtain ⟨-, rfl, rfl⟩ := hc'.unique hc
  exact (ho.2 hc₀).later hlater

theorem Coherent.numbered_of_upkeep {i : BufferId} (hb : t.buffer? i = some b) : b.id = i := by
  have hlt : i < s.buffers.length := hu.length ▸ (List.getElem?_eq_some_iff.mp hb).1
  have hb₀ : s.buffer? i = some s.buffers[i] := List.getElem?_eq_getElem hlt
  obtain ⟨b', hb', hlater⟩ := hu.buffer hb₀
  obtain rfl := Option.some.inj (hb'.symm.trans hb)
  exact hlater.id.trans (h.numbered hb₀)

/-- **Coherence** is settled element by element: what is left alone stays as it is, so it is enough to look at the
elements that an operation is about, and at the cache. -/
theorem Coherent.of_upkeep (hquiet : Quiet t) (hplain : Table.Plain lexicon t.registry)
    (hrest : ∀ {e id}, e.Plain lexicon → besides e → t.copyOf? e = some id →
      (IsProject e ∨ IsFile e) ∧ ∃ c b, InForce t e id c b)
    (hpins : ∀ k ∈ t.cache.pinned, k.Plain lexicon)
    (hf : Faithful (std.demands t) t.cache) : Coherent std t := by
  refine ⟨hquiet, hplain, fun {e id} he hid => ?_, h.numbered_of_upkeep hu, hpins, hf⟩
  by_cases hne : besides e
  · exact hrest he hne hid
  · have hid₀ := (hu.copyOf he hne).symm.trans hid
    obtain ⟨c, b, hc⟩ := h.inForce he hid₀
    obtain ⟨n, b', hc', -⟩ := hc.upkeep hu he hne
    exact ⟨(h.registered he hid₀).1, _, b', hc'⟩

end Upkeep

/-- **References and edits** keep a store coherent: bodies stay as they are, and buffers may go on under the bodies
that were built from them. -/
theorem Coherent.upkeep (h : Coherent std s) (hu : Upkeep (fun _ => False) s t)
    (hrest : aside t s = t) : Coherent std t ∧ Spared (fun _ => False) s t := by
  have hcache : t.cache = s.cache := by rw [← hrest]; rfl
  refine ⟨h.of_upkeep hu ?_ ?_ (fun _ hfalse => hfalse.elim) (hcache ▸ h.pins) ?_, hu, ?_⟩
  · rw [← hrest]
    exact ⟨h.quiet.drafts, h.quiet.building⟩
  · rw [← hrest]
    exact h.registry
  · rw [hcache]
    exact h.faithful.weaken (held_of_upkeep hu id).mp (fun _ => id)
      fun hf => h.origin_of_upkeep hu hf id
  · intro _ _ _ _ _ _ _
    rw [hcache]

/-! ## Turnover -/

/-- **Bodies come and go in the cache, and nothing else happens.** This is what requests for bodies, queries and
closings do to a store. -/
structure Turnover (std : Standard) (s t : Store) : Prop where
  /-- it comes to a coherent store -/
  coherent : Coherent std t
  /-- only the cache is another -/
  rest : t = { s with cache := t.cache }
  /-- the bodies of working copies stay -/
  spared : Spared (fun _ => False) s t

theorem Turnover.refl (h : Coherent std s) : Turnover std s s := ⟨h, rfl, Spared.refl s⟩

theorem Turnover.trans (h : Turnover std s t) (k : Turnover std t u) : Turnover std s u := by
  refine ⟨k.coherent, ?_, h.spared.trans k.spared⟩
  rw [k.rest, h.rest]

/-- A turnover is settled by what becomes of the cache: it is faithful to the same demands, has the same pins, and
keeps the bodies of working copies. -/
theorem Coherent.turnover {cache : Cache} (h : Coherent std s)
    (hf : Faithful (std.demands s) cache) (hpins : cache.pinned = s.cache.pinned)
    (hbodies : ∀ {k x}, (std.demands s).held k → IsElement x → x = k ∨ DeclaredIn k x →
      cache.peek? x = s.cache.peek? x) : Turnover std s { s with cache } := by
  have hu : Upkeep (fun _ => False) s { s with cache } := Upkeep.of_eq rfl rfl rfl
  refine ⟨h.of_upkeep hu ⟨h.quiet.drafts, h.quiet.building⟩ h.registry (fun _ hfalse => hfalse.elim)
    (hpins ▸ h.pins) ?_, rfl, hu, fun he hheld _ hx hxe => hbodies ⟨he, hheld⟩ hx hxe⟩
  exact hf.weaken (held_of_upkeep hu id).mp (fun _ => id) fun hf => h.origin_of_upkeep hu hf id

/-- **Using** a body changes the order of use only, and nothing of what coherence says is about that order. -/
theorem Coherent.use (h : Coherent std s) (he : IsElement e) :
    Turnover std s { s with cache := s.cache.touch e } :=
  h.turnover (h.faithful.touch he) (Cache.pinned_touch ..) fun _ hx _ =>
    Cache.peek?_touch h.faithful.plain.toDistinct he.plain.follows hx.plain.follows

/-- **Building** an element that is no working copy. What the new bodies push out has neither a pin nor an owner
with one, so no working copy loses anything. -/
theorem Coherent.commit {cache : Cache} (h : Coherent std s) (hnone : s.copyOf? e = none)
    (hbatch : Batch (std.demands s) e bodies)
    (hc : Store.Committed lexicon { s.cache with pinned := s.cache.pinned } e bodies cache) :
    Turnover std s { s with cache } := by
  have hne : ∀ {k}, (std.demands s).held k → k ≠ e := by
    rintro k ⟨-, hk⟩ rfl
    rw [hnone] at hk
    cases hk
  refine h.turnover (h.faithful.commit hbatch hc (fun hk _ => hk) h.faithful.pinned (fun _ _ => id)
    fun _ _ => id) hc.pinned fun hk hx hxk => ?_
  exact peek?_of_pinned hbatch hc (h.faithful.openable hk) (h.faithful.pinned hk) (hne hk) hx hxk

/-- **Closing** an element that is no working copy drops its tree, in which there is none either: only projects and
files can be working copies, and a file is not dropped with its project. -/
theorem Coherent.close (h : Coherent std s) (he : IsProject e ∨ IsFile e)
    (hnone : s.copyOf? e = none) (n : Nat) :
    Turnover std s ((s.eraseTree e).2.lowerCapacity n e).2 := by
  have hne : ∀ {k}, (std.demands s).held k → k ≠ e := by
    rintro k ⟨-, hk⟩ rfl
    rw [hnone] at hk
    cases hk
  have hpinned : (s.eraseTree e).2.cache.pinned = s.cache.pinned := Store.pinned_eraseTree s e
  have herased : Faithful (std.demands s) (s.eraseTree e).2.cache :=
    h.faithful.eraseTree rfl he h.faithful.pinned (fun hk => ⟨hk, hne hk⟩) (fun _ _ => id)
      fun _ _ => id
  have hshed := Store.shed_lowerCapacity (s := (s.eraseTree e).2) herased.plain n e
  refine h.turnover (herased.shed hshed id) (hshed.pinned.trans hpinned) fun {k x} hk hx hxk => ?_
  have hpin : k ∈ (s.eraseTree e).2.cache.pinned := hpinned ▸ h.faithful.pinned hk
  have hopen := h.faithful.openable hk
  refine (hshed.spared hx.plain (isPinned_of_mem rfl hpin hxk) fun o ho hxo => ?_).trans
    (peek?_eraseTree_of_ne h.faithful.plain he hopen (hne hk) hx hxk)
  rw [owner_eq hopen hx hxk ho hxo]
  exact isPinned_of_mem rfl hpin (.inl rfl)

/-! ## The structure of a working copy -/

/-- **A working copy has got a structure**, and the others were left alone. Both the first structure and the ones
that reconciles commit come to this. -/
structure Restructured (std : Standard) (e : Handle) (bodies : Table Body) (id : CopyId)
    (c : WorkingCopy) (b : Buffer) (s t : Store) : Prop where
  /-- the store is coherent -/
  coherent : Coherent std t
  /-- the others were left alone -/
  spared : Spared (· = e) s t
  /-- the working copy is in force -/
  inForce : InForce t e id c b
  /-- its structure meets the standard -/
  batch : Batch (std.demands t) e bodies
  /-- it is in the cache -/
  brought : ∀ {x body}, x.Plain lexicon → Table.get? bodies x = some body →
    t.cache.peek? x = some body

/-- **The commit of a working copy**: its structure goes in, and the others are left alone. The pins keep their
bodies from being dropped for the new ones. -/
theorem Coherent.restructure {pins : HandleSet} (h : Coherent std s) (hu : Upkeep (· = e) s t)
    (hquiet : Quiet t) (hplain : Table.Plain lexicon t.registry) (hin : InForce t e id c b)
    (hbatch : Batch (std.demands t) e bodies)
    (hc : Store.Committed lexicon { s.cache with pinned := pins } e bodies t.cache)
    (hpins : ∀ k, k ∈ pins ↔ k ∈ s.cache.pinned ∨ k = e) :
    Restructured std e bodies id c b s t := by
  have hel : IsElement e := hbatch.openable.elim IsProject.element IsFile.element
  refine ⟨h.of_upkeep hu hquiet hplain ?_ ?_ ?_, ⟨hu, ?_⟩, hin, hbatch, peek?_of_batch hbatch hc⟩
  · -- only the element itself is excepted, and it is in force
    rintro k id' - rfl hid
    obtain rfl := Option.some.inj (hin.registered.symm.trans hid)
    exact ⟨hbatch.openable, c, b, hin⟩
  · -- there is one pin more at most
    intro k hk
    rw [hc.pinned] at hk
    rcases (hpins k).mp hk with hk | rfl
    · exact h.pins k hk
    · exact hel.plain
  · refine h.faithful.commit hbatch hc (fun hk hne => (held_of_upkeep hu hne).mp hk) (fun {k} hk => ?_)
      (fun _ _ hl => hl) fun hf hne => h.origin_of_upkeep hu hf hne
    by_cases hne : k = e
    · exact (hpins k).mpr (.inr hne)
    · exact (hpins k).mpr (.inl (h.faithful.pinned ((held_of_upkeep hu hne).mp hk)))
  · -- the pins keep the bodies of the others from being dropped for the new ones
    intro k x hk hheld hne hx hxk
    have hd : (std.demands s).held k := ⟨hk, hheld⟩
    exact peek?_of_pinned hbatch hc (h.faithful.openable hd)
      ((hpins k).mpr (.inl (h.faithful.pinned hd))) hne hx hxk

/-- The demands without those on one element. -/
def Demands.waiving (d : Demands) (e : Handle) : Demands where
  held x := d.held x ∧ x ≠ e
  listing := d.listing
  origin f sn := f ≠ e → d.origin f sn

/-- **A working copy is gone**, and the others were left alone. -/
structure Dissolved (std : Standard) (e : Handle) (s t : Store) : Prop where
  /-- the store is coherent -/
  coherent : Coherent std t
  /-- the others were left alone -/
  spared : Spared (· = e) s t
  /-- the element is no working copy any longer -/
  gone : t.copyOf? e = none

/-- **The end of a working copy**: its bodies go, and the others are left alone. What happened to its own bodies
before does not matter, so this serves for set-ups that failed half-way as well. -/
theorem Coherent.dissolve {cache : Cache} {v : Store} (h : Coherent std s)
    (hf : Faithful ((std.demands s).waiving e) cache)
    (hbodies : ∀ {k x}, (std.demands s).held k → k ≠ e → IsElement x → x = k ∨ DeclaredIn k x →
      cache.peek? x = s.cache.peek? x)
    (he : IsProject e ∨ IsFile e) (hu : Upkeep (· = e) s t) (hquiet : Quiet t)
    (hplain : Table.Plain lexicon t.registry) (hnone : t.copyOf? e = none)
    (hcache : t.cache = (v.eraseTree e).2.cache) (hentries : v.cache.entries = cache.entries)
    (hpins : ∀ k ∈ v.cache.pinned, k.Plain lexicon)
    (hkept : ∀ k ∈ s.cache.pinned, k ≠ e → k ∈ v.cache.pinned) : Dissolved std e s t := by
  have hheld : ∀ {k}, (std.demands t).held k → (std.demands s).held k ∧ k ≠ e := by
    intro k hk
    have hne : k ≠ e := by
      rintro rfl
      have := hk.2
      rw [hnone] at this
      cases this
    exact ⟨(held_of_upkeep hu hne).mp hk, hne⟩
  refine ⟨h.of_upkeep hu hquiet hplain ?_ ?_ ?_, ⟨hu, ?_⟩, hnone⟩
  · rintro k id - rfl hid
    rw [hnone] at hid
    cases hid
  · rw [hcache, Store.pinned_eraseTree]
    exact hpins
  · -- the demands waived so far are on bodies that go now
    rw [hcache]
    refine hf.eraseTree hentries he (fun hk => ?_) (fun hk => ⟨hheld hk, (hheld hk).2⟩)
      (fun _ _ => id) fun hfile hne ho => h.origin_of_upkeep hu hfile hne (ho hne)
    exact hkept _ (h.faithful.pinned (hheld hk).1) (hheld hk).2
  · -- what goes is the tree of the element, and no other working copy has a body in it
    intro k x hk hkheld hne hx hxk
    have hd : (std.demands s).held k := ⟨hk, hkheld⟩
    rw [hcache, peek?_eraseTree_of_ne (hentries ▸ hf.plain) he (h.faithful.openable hd) hne hx hxk,
      Cache.peek?, hentries]
    exact hbodies hd hne hx hxk

theorem Faithful.waiving {d : Demands} {cache : Cache} (h : Faithful d cache) (e : Handle) :
    Faithful (d.waiving e) cache :=
  h.weaken And.left (fun _ => id) fun _ ho _ => ho

end CodeModel.Foo
