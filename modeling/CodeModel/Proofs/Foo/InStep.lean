import CodeModel.Proofs.Foo.Steps

/-!
# The cache stays in step

The cache of a Foo session is in step with the working copies and with itself at any time (`run_inStep`):
after all requests there can be, refused and failed ones included, under all settings, and while the files
change behind the session.

* **Declarations** are cached with their file only, and have the bodies that a build of the file from the
  text of its cached body makes.
* A cached file was built from its **buffer** if it is a working copy, and was **read** if it is none.
* A working copy is **always** cached.
-/

namespace CodeModel.Foo

open Session

variable {p : Project} {refusal : Refusal} {s : Session Desk} {n : Nat}

/-! ## Files that may change -/

/-- What can be asked if the files may change at any time: projects list files, and files were read. From what they
were read cannot be told afterwards. -/
def anyFiles : Standard where
  listing q b := ∀ f ∈ b.children, IsFile f ∧ f.parent? = some q
  reading _ sn := ∃ text, sn = Snapshot.detached text
  children := id

/-- The elements that a project lists are files that stand directly in it. -/
theorem isFile_sub {q : Handle} (hq : IsProject q) (name : String) :
    IsFile (q.sub fileKind name) ∧ (q.sub fileKind name).parent? = some q := ⟨⟨hq, rfl⟩, rfl⟩

/-- Projects list files. Which of them there are depends on the file tree at the time, so more than that is not
asked of them. -/
theorem listing_body {files : FileTree} {q : Handle} {b : Body} (hq : IsProject q)
    (h : p.body files q = .ok b) : anyFiles.listing q b := by
  rw [Project.body] at h
  rcases hnames : p.sourceFiles files with error | names
  · rw [hnames] at h
    cases h
  · rw [hnames] at h
    cases h
    intro f hf
    obtain ⟨name, -, rfl⟩ := List.mem_map.mp (mem_children_setChildren hf)
    exact isFile_sub hq name

theorem admits_anyFiles (p : Project) (files : FileTree) : anyFiles.Admits p files :=
  ⟨fun hq hb => listing_body hq hb, fun _ _ _ _ _ => ⟨_, rfl⟩⟩

/-! ## Runs -/

/-- A session at its start is coherent, whatever is asked, for there is nothing in it yet. -/
theorem coherent_freshSession (std : Standard) (config : Config) (files : FileTree)
    (texts : List Text) (arrangement : Arrangement) :
    Coherent std (freshSession config files texts arrangement).store := by
  have hnone : ∀ e, (freshSession config files texts arrangement).store.copyOf? e = none := fun e => rfl
  refine ⟨⟨rfl, rfl⟩, Table.plain_nil, fun {e id} _ hid => ?_, fun {i b} hb => ?_, ?_, ?_⟩
  · rw [hnone] at hid
    cases hid
  · have hget : (freshBuffers texts)[i]? = some b := hb
    rw [freshBuffers, List.getElem?_mapIdx] at hget
    obtain ⟨text, -, rfl⟩ := Option.map_eq_some_iff.mp hget
    rfl
  · intro k hk
    cases hk
  · refine .of_empty rfl fun e hheld => ?_
    have := hheld.2
    rw [hnone] at this
    cases this

theorem length_freshSession (config : Config) (files : FileTree) (texts : List Text)
    (arrangement : Arrangement) :
    (freshSession config files texts arrangement).store.buffers.length = texts.length := List.length_mapIdx

/-- **All runs are coherent**, by induction on the requests. The files may change between any two of them: the
standard does not ask what they are. -/
theorem run_coherent (p : Project) (refusal : Refusal) (rs : List (Request n))
    (h : Coherent anyFiles s.store) (hn : s.store.buffers.length = n) :
    Coherent anyFiles (run (p.hosted refusal) rs s).2.store ∧
      (run (p.hosted refusal) rs s).2.store.buffers.length = n := by
  refine run_invariant (fun s => Coherent anyFiles s.store ∧ s.store.buffers.length = n)
    (fun r s hs => ?_) rs ⟨h, hn⟩
  obtain ⟨hcoh, hspared⟩ := perform_spares refusal hs.1 (admits_anyFiles p _) hs.2 r
  exact ⟨hcoh, hspared.length.trans hs.2⟩

/-! ## In step -/

/-- **The cache of a session is in step** with itself and with the working copies. The parts say where each cached
body comes from; what an eviction may drop is not among them, but for the bodies of working copies. -/
structure InStep (p : Project) (refusal : Refusal) (s : Session Desk) : Prop where
  /-- it has bodies of elements of the model, one for each -/
  elements : ∀ q ∈ s.store.cache.entries, IsElement q.1 ∧ s.store.cache.peek? q.1 = some q.2
  /-- a declaration is cached with its file, and building the file from the text of its cached body makes
  the cached body of the declaration -/
  declared : ∀ {f x b}, IsFile f → DeclaredIn f x → s.store.cache.peek? x = some b →
    ∃ fb sn bodies, s.store.cache.peek? f = some fb ∧ fb.snapshot? = some sn ∧
      (buildBodies (p.hosted refusal) false f (some sn)).run s = (.ok bodies, s) ∧
      Table.get? bodies x = some b
  /-- a file that is a working copy is cached, and was built from the buffer of the working copy -/
  copies : ∀ {f id}, IsFile f → s.store.copyOf? f = some id →
    ∃ c buffer fb sn, s.store.copy? id = some c ∧ s.store.buffer? c.buffer = some buffer ∧
      s.store.cache.peek? f = some fb ∧ fb.snapshot? = some sn ∧ sn.origin = some buffer.id
  /-- any other cached file was read -/
  read : ∀ {f fb}, IsFile f → s.store.copyOf? f = none → s.store.cache.peek? f = some fb →
    ∃ text, fb.snapshot? = some (Snapshot.detached text)

/-- **The cache stays in step** whatever is requested. Coherence holds after every run, and says where the bodies
come from: a declaration was built with its file, a working copy from its buffer, and any other file was read. -/
theorem run_inStep (p : Project) (refusal : Refusal) (config : Config) (files : FileTree)
    (texts : List Text) (arrangement : Arrangement) (rs : List (Request texts.length)) :
    InStep p refusal (run (p.hosted refusal) rs (freshSession config files texts arrangement)).2 := by
  obtain ⟨h, -⟩ := run_coherent p refusal rs (coherent_freshSession anyFiles config files texts arrangement)
    (length_freshSession config files texts arrangement)
  generalize (run (p.hosted refusal) rs (freshSession config files texts arrangement)).2 = s at h
  refine ⟨fun q hq => ?_, fun {f x b} hf hx hb => ?_, fun {f id} hf hid => ?_,
    fun {f fb} hf hnone hfb => ?_⟩
  · have hplain := h.faithful.plain.keys q hq
    exact ⟨h.faithful.element q hq, (h.faithful.plain.get?_eq_some_iff hplain).mpr hq⟩
  · obtain ⟨sn, hsn, hget⟩ := h.faithful.declared hf hx hb
    refine ⟨_, sn, _, hsn, snapshot?_ownBody f sn, ?_, hget⟩
    rw [run_buildBodies, made_some_file hf]
    rfl
  · obtain ⟨c, b, hin⟩ := h.inForce hf.plain hid
    obtain ⟨sn, hsn, hcurrent⟩ := h.current hf hin
    refine ⟨c, b, _, sn, hin.copy, hin.buffer, hsn, snapshot?_ownBody f sn, ?_⟩
    rw [hcurrent.origin, h.numbered hin.buffer]
  · obtain ⟨sn, rfl, horigin, -⟩ := h.faithful.file hf hfb
    obtain ⟨text, rfl⟩ := horigin hnone
    exact ⟨text, snapshot?_ownBody f _⟩

end CodeModel.Foo
