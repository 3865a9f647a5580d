import CodeModel.Proofs.Foo.Differences
import CodeModel.Proofs.Foo.InStep

/-!
# Files that stay as they are

As long as nobody changes the files, a cached body is what a build would make now.

* The **standard** of such sessions: projects list the files that there are, and files were read from them
  (`fixedFiles`).
* So a request for an element that is no working copy has **one answer**, whether the element is cached or
  not: it follows from the answer for the element above it (`answer_fixed_project`, `answer_fixed_file`,
  `answer_below_file`).
* And a **project** that is a working copy has nothing to report (`differences_project`).
-/

namespace CodeModel.Foo

open Session

variable {std : Standard} {p : Project} {files : FileTree} {store : Store} {e f q x : Handle} {b : Body}

/-! ## The standard -/

/-- A project can be listed only if its directory is there. -/
theorem isDirectory_of_body (h : p.body files q = .ok b) : files.isDirectory p.root = true := by
  rw [Project.body, Project.sourceFiles, FileTree.fileNames] at h
  rcases hplace : files.resolve p.root with error | place
  · rw [hplace] at h
    cases h
  · rw [hplace] at h
    have hat : files.at? place = some .directory := by
      rcases hat : files.at? place with _ | content | _
      · simp [FileTree.directoryAt, hat, bind, Except.bind] at h
      · simp [FileTree.directoryAt, hat, bind, Except.bind] at h
      · rfl
    simp [FileTree.isDirectory, FileTree.find, hplace, hat, bind, Except.bind]

/-- What can be asked if the files stay as they are: projects list those, and files were read from them, when the
project could be listed and the file was there. -/
def fixedFiles (p : Project) (files : FileTree) : Standard where
  listing q b := IsProject q ∧ p.body files q = .ok b
  reading f sn := ∃ q b text, f.parent? = some q ∧ p.body files q = .ok b ∧
    p.hasResource files f = true ∧ p.text files f = .ok text ∧ sn = Snapshot.detached text
  children h := listing_body h.1 h.2

theorem admits_fixedFiles (p : Project) (files : FileTree) : (fixedFiles p files).Admits p files :=
  ⟨fun hq hb => ⟨hq, hb⟩, fun hl _ hpar hres ht => ⟨_, _, _, hpar, hl.2, hres, ht, rfl⟩⟩

theorem hasResource_project (hq : IsProject q) (h : p.body files q = .ok b) :
    p.hasResource files q = true := by
  rw [Project.hasResource, hq.kind, if_pos (beq_self_eq_true _)]
  exact isDirectory_of_body h

theorem made_of_body (hq : IsProject q) (h : p.body files q = .ok b) :
    p.made files false q none = .ok [(q, b)] := by
  rw [made_project hq, hasResource_project hq h, h]
  rfl

/-! ## Answers that do not depend on the cache -/

section Answers

variable (h : Coherent (fixedFiles p files) store)

include h

/-- What is cached and no working copy has its resource. -/
theorem hasResource_of_cached (he : IsProject e ∨ IsFile e) (hnone : store.copyOf? e = none)
    (hb : store.cache.peek? e = some b) : p.hasResource files e = true := by
  rcases he with hq | hf
  · exact hasResource_project hq (h.faithful.project hq hb).2
  · obtain ⟨sn, -, hread, -⟩ := h.faithful.file hf hb
    obtain ⟨q, qb, text, -, -, hres, -⟩ := hread hnone
    exact hres

/-- **A project** is answered as a build would now, be it cached or not. What is cached was listed when the files
were as they are, so it is what a build lists. -/
theorem answer_fixed_project (hq : IsProject q) :
    p.answer files store.cache.peek? q = bodyOf q (p.made files false q none) := by
  rcases hb : store.cache.peek? q with _ | b
  · exact answer_project hq hb
  · rw [answer_of_known hb, made_of_body hq (h.faithful.project hq hb).2]
    simp [bodyOf, Table.get?]

/-- **A file that is no working copy** is answered as a build would now, after its project. If it is cached it was
read when the project could be listed, the file was there and its text was what it is. -/
theorem answer_fixed_file (hf : IsFile f) (hpar : f.parent? = some q)
    (hnone : store.copyOf? f = none) :
    p.answer files store.cache.peek? f =
      match p.answer files store.cache.peek? q with
      | .error error => .error error
      | .ok _ => bodyOf f (p.made files false f none) := by
  rcases hb : store.cache.peek? f with _ | b
  · exact answer_file hf hpar hb
  · obtain ⟨q', hpar', hq⟩ := hf.parent
    obtain rfl := Option.some.inj (hpar.symm.trans hpar')
    obtain ⟨sn, rfl, hread, -⟩ := h.faithful.file hf hb
    obtain ⟨q', qb, text, hpar', hqb, hres, htext, rfl⟩ := hread hnone
    obtain rfl := Option.some.inj (hpar.symm.trans hpar')
    rw [answer_of_known hb, answer_fixed_project h hq, made_of_body hq hqb, made_none_file hf, hres,
      htext]
    simp [bodyOf, Table.get?, Except.map, get?_fileTable_self]

end Answers

/-- **What is declared in a file** is answered from the body of the file. If it is cached the file is, too, and both
come from one text. -/
theorem answer_below_file (h : Coherent std store) (hf : IsFile f) (hx : DeclaredIn f x) :
    p.answer files store.cache.peek? x =
      match p.answer files store.cache.peek? f with
      | .error error => .error error
      | .ok b => bodyOf x (.ok (tableOf f b)) := by
  rcases hb : store.cache.peek? f with _ | b
  · refine answer_declared hx ?_
    rcases hxb : store.cache.peek? x with _ | b
    · rfl
    · obtain ⟨sn, hsn, -⟩ := h.faithful.declared hf hx hxb
      rw [hb] at hsn
      cases hsn
  · obtain ⟨sn, rfl, -⟩ := h.faithful.file hf hb
    rw [h.answer_of_within p files hf hb (.inr hx), answer_of_known hb]
    simp only [tableOf_ownBody]

/-! ## Projects that are working copies -/

/-- The project and everything below it. -/
def Below (q x : Handle) : Prop := IsElement x ∧ (x = q ∨ q ∈ x.ancestors)

/-- Children of what is below a project are below it. -/
theorem Below.child {c : Handle} (hx : Below q x) (hc : IsElement c) (hpar : c.parent? = some x) :
    Below q c := by
  refine ⟨hc, .inr ?_⟩
  cases c with
  | root n => cases hpar
  | child y n =>
    obtain rfl : y = x := Option.some.inj hpar
    rcases hx.2 with rfl | hmem
    · exact List.mem_cons_self ..
    · exact List.mem_cons_of_mem _ hmem

/-- A pin on a project protects everything below it. -/
theorem isPinned_of_below {c : Cache} (h : q ∈ c.pinned) (hx : Below q x) : c.isPinned x = true := by
  have hcontains : HandleSet.contains c.pinned q = true :=
    HandleSet.contains_iff.mpr ⟨q, h, Handle.same_refl q⟩
  rw [Cache.isPinned, HandleSet.covers, Bool.or_eq_true]
  rcases hx.2 with rfl | hmem
  · exact .inl hcontains
  · exact .inr (List.any_eq_true.mpr ⟨q, hmem, hcontains⟩)

/-- The owner of what is below a project is below it, too. -/
theorem Below.owner {o : Handle} (hq : IsProject q) (hx : Below q x) (ho : o.Plain lexicon)
    (hxo : x.isOwnedBy o = true) : Below q o := by
  obtain ⟨hf, n, rfl, -⟩ := (isOwnedBy_iff hx.1 ho).mp hxo
  refine ⟨hf.element, .inr ?_⟩
  rcases hx.2 with rfl | hmem
  · cases hq
  · exact (List.mem_cons.mp hmem).resolve_left (hq.ne_file hf)

/-- **A project** that is a working copy never has anything to report: it lists the same files, and what is below it
stays, as it is covered by the pin. -/
theorem differences_project {id : CopyId} {sn : Snapshot} {bodies : Table Body} {canceled : Bool}
    (h : Coherent (fixedFiles p files) store) (hq : IsProject q) (hid : store.copyOf? q = some id)
    (hmade : p.made files canceled q (some sn) = .ok bodies) (limit version : Nat) :
    differences limit q store.cache.entries (renewed store id q bodies version).cache.entries =
      .ok (Builder.new q).delta := by
  have hheld : ((fixedFiles p files).demands store).held q := ⟨hq.plain, by rw [hid]; rfl⟩
  obtain ⟨b, hb⟩ := Option.isSome_iff_exists.mp (h.faithful.kept hheld)
  obtain ⟨-, hbody⟩ := h.faithful.project hq hb
  obtain rfl : [(q, b)] = bodies := by
    rw [made_project hq, hbody] at hmade
    split at hmade
    · cases hmade
    · exact Except.ok.inj hmade
  have hbatch : Batch ((fixedFiles p files).demands store) q [(q, b)] := .project hq ⟨hq, hbody⟩
  have hcommit := Store.committed_commit (e := q) h.faithful.plain hbatch.plain
  have hsame : ∀ {x}, Below q x →
      Table.get? store.cache.entries x = Table.get? (store.commit q [(q, b)]).2.cache.entries x := by
    intro x hx
    by_cases hxq : x = q
    · -- the project is built again from the same files
      subst hxq
      have hget : Table.get? [(x, b)] x = some b := by simp [Table.get?]
      exact hb.trans (peek?_of_batch hbatch hcommit hq.plain hget).symm
    · -- the pin on the project keeps what is below it
      have hnone : Table.get? [(q, b)] x = none := by
        rcases hget : Table.get? [(q, b)] x with _ | b'
        · rfl
        · rcases hbatch.of_get? hx.1.plain hget with hxe | ⟨hf, -⟩
          · exact absurd hxe hxq
          · exact absurd rfl (hq.ne_file hf)
      have hfree : x.isOwnedBy q = false := by
        rw [← Bool.not_eq_true, isOwnedBy_iff hx.1 hq.plain]
        exact fun howned => hq.ne_file howned.1 rfl
      have hpin := h.faithful.pinned hheld
      exact (hcommit.spared hx.1.plain hnone hfree (isPinned_of_below hpin hx)
        fun o ho hxo => isPinned_of_below hpin (hx.owner hq ho hxo)).symm
  have hregion : Recorder.Region lexicon (Below q) store.cache.entries := by
    refine ⟨fun hx => hx.1.plain.follows, fun {x b c} hx hb hc => ?_⟩
    obtain ⟨hel, hpar⟩ := h.child hx.1 hb hc
    exact ⟨hx.child hel hpar, hpar⟩
  have hregion' : Recorder.Region lexicon (Below q) (store.commit q [(q, b)]).2.cache.entries :=
    ⟨hregion.follows, fun hx hb => hregion.child hx ((hsame hx).trans hb)⟩
  have hgrounded : Recorder.Grounded (Below q) store.cache.entries :=
    hregion.grounded (fun k hk => (h.faithful.plain.keys k hk).dependent) fun hx => hx.1.plain.dependent
  have hgrounded' : Recorder.Grounded (Below q) (store.commit q [(q, b)]).2.cache.entries :=
    hregion'.grounded (fun k hk => (hcommit.plain.keys k hk).dependent) fun hx => hx.1.plain.dependent
  have hnone : Recorder.compare store.cache.entries (store.commit q [(q, b)]).2.cache.entries limit
      (store.cache.entries.length + 1) 0 q (Builder.new q) = .ok (Builder.new q, false) :=
    Recorder.compare_agreeing (Recorder.agreement_of_eq hregion' hsame) ⟨hq.element, .inl rfl⟩
  have hentries : (renewed store id q [(q, b)] version).cache.entries =
      (store.commit q [(q, b)]).2.cache.entries := rfl
  rw [hentries, differences_eq_compare hgrounded hgrounded' ⟨hq.element, .inl rfl⟩, hnone]
  rfl

end CodeModel.Foo
