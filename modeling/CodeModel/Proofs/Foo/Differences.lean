import CodeModel.Proofs.Foo.Lifecycle

/-!
# Differences between texts

What a reconcile reports about a file is a matter of two texts alone.

* Bodies that were built from two snapshots of **one text** differ in the snapshot they speak of and in
  nothing else (`get?_fileTable_retake`).
* So the differences that are recorded between two states of a working copy are those between the
  bodies of **the two texts** (`differences_eq`), whatever else the cache holds.
* They are **empty** exactly if the texts are equal (`differences_textTable`).
-/

namespace CodeModel.Foo

open Session

variable {std : Standard} {store t : Store} {f x : Handle} {b o n : Body} {sn sn' : Snapshot}
  {old new : Text} {limit : Nat} {p : Project} {files : FileTree} {canceled : Bool} {bodies : Table Body}
  {id : CopyId} {c : WorkingCopy} {buffer : Buffer}

/-! ## Another snapshot of the same text -/

/-- The body with another snapshot. -/
def retake (sn : Snapshot) (b : Body) : Body :=
  { b with source := b.source.map fun s => { s with snapshot := some sn } }

@[simp] theorem children_retake (sn : Snapshot) (b : Body) : (retake sn b).children = b.children := rfl

/-- Children are set without a look at the snapshot. -/
theorem setChildren_retake (sn : Snapshot) (b : Body) (l : List Handle) :
    (retake sn b).setChildren l = retake sn (b.setChildren l) := by
  suffices hfold : ∀ b : Body, l.foldl Body.addChild (retake sn b) = retake sn (l.foldl Body.addChild b) by
    exact hfold { b with children := [] }
  induction l with
  | nil => exact fun b => rfl
  | cons c l ih =>
    intro b
    rw [List.foldl_cons, List.foldl_cons, ← ih]
    congr 1
    rw [Body.addChild, Body.addChild, children_retake]
    split <;> rfl

/-- Builds from two snapshots of one text make the same elements, with bodies that differ in the snapshot. -/
theorem fileBodies_retake (h : sn'.text = sn.text) :
    fileBodies f sn' = (fileBodies f sn).map fun q => (q.1, retake sn' q.2) := by
  simp only [fileBodies, h, List.map_append, List.map_map, List.map_cons, List.map_nil]
  congr 3
  rw [fileBody, fileBody, ← setChildren_retake, h]
  rfl

/-- A table of bodies that are changed one by one is built in the same way. -/
theorem insert_map {α β : Type} (g : α → β) (l : Table α) (e : Handle) (a : α) :
    Table.insert (l.map fun q => (q.1, g q.2)) e (g a) =
      (Table.insert l e a).map fun q => (q.1, g q.2) := by
  induction l with
  | nil => rfl
  | cons q l ih =>
    obtain ⟨k, v⟩ := q
    simp only [List.map_cons, Table.insert]
    split
    · rfl
    · rw [ih, List.map_cons]

theorem ofList_map {α β : Type} (g : α → β) (l : List (Handle × α)) :
    Table.ofList (l.map fun q => (q.1, g q.2)) = (Table.ofList l).map fun q => (q.1, g q.2) := by
  induction l using List.reverseRecOn with
  | nil => rfl
  | append_singleton l q ih =>
    rw [List.map_append, List.map_singleton, Table.ofList_concat, Table.ofList_concat, ih, insert_map]

theorem get?_map {α β : Type} (g : α → β) (l : Table α) (e : Handle) :
    Table.get? (l.map fun q => (q.1, g q.2)) e = (Table.get? l e).map g := by
  induction l with
  | nil => rfl
  | cons q l ih =>
    obtain ⟨k, v⟩ := q
    simp only [List.map_cons, Table.get?]
    split
    · rfl
    · exact ih

/-- **Two snapshots of one text** give the same bodies, the snapshots apart. -/
theorem get?_fileTable_retake (h : sn'.text = sn.text) (x : Handle) :
    Table.get? (fileTable f sn') x = (Table.get? (fileTable f sn) x).map (retake sn') := by
  rw [fileTable, fileBodies_retake h, ofList_map, get?_map, fileTable]

/-- Whether content differs depends on whether the snapshots agree, and on nothing else about them. -/
theorem contentDiffers_retake {tn tn' : Snapshot} (ho : o.snapshot? = some sn)
    (hn : n.snapshot? = some sn') (h : tn'.agrees tn = sn'.agrees sn) :
    (retake tn' n).contentDiffers (retake tn o) = n.contentDiffers o := by
  obtain ⟨so, hso, hsn⟩ := Option.bind_eq_some_iff.mp ho
  obtain ⟨s, hs, hsn'⟩ := Option.bind_eq_some_iff.mp hn
  simp only [Body.contentDiffers, retake, hso, hs, Option.map_some, Source.agrees, hsn, hsn',
    Source.snapshotsAgree, h]

/-! ## The elements of one file -/

/-- The file and its declarations. -/
def Within (f x : Handle) : Prop := x = f ∨ DeclaredIn f x

theorem Within.element (hf : IsFile f) (h : Within f x) : IsElement x :=
  h.elim (fun hx => hx ▸ hf.element) (DeclaredIn.element hf)

/-- The bodies of a cached file and of its declarations are those of its text, as far as they are there. -/
theorem Coherent.get?_of_within (h : Coherent std store) (hf : IsFile f)
    (hfb : store.cache.peek? f = some (ownBody f sn)) (hx : Within f x)
    (hb : store.cache.peek? x = some b) : Table.get? (fileTable f sn) x = some b := by
  rcases hx with rfl | hx
  · rw [get?_fileTable_self, ← hfb, hb]
  · obtain ⟨sn', hsn, hget⟩ := h.faithful.declared hf hx hb
    obtain rfl := ownBody_injective (Option.some.inj (hfb.symm.trans hsn))
    exact hget

/-- Whatever of a cached file is asked for, the answer is what its text gives: what is still cached comes from it,
and what has been dropped is built from it again. -/
theorem Coherent.answer_of_within (p : Project) (files : FileTree) (h : Coherent std store)
    (hf : IsFile f) (hfb : store.cache.peek? f = some (ownBody f sn)) (hx : Within f x) :
    p.answer files store.cache.peek? x = bodyOf x (.ok (fileTable f sn)) := by
  rcases hb : store.cache.peek? x with _ | b
  · rcases hx with rfl | hx
    · rw [hfb] at hb
      cases hb
    · rw [answer_declared hx hb, answer_of_known hfb]
      simp only [tableOf_ownBody]
  · rw [answer_of_known hb, bodyOf]
    simp only [h.get?_of_within hf hfb hx hb]

/-- Those of a working copy are all there, for nothing below a pin is dropped. -/
theorem Coherent.peek?_of_within (h : Coherent std store) (hf : IsFile f)
    (hcopy : (store.copyOf? f).isSome = true) (hfb : store.cache.peek? f = some (ownBody f sn))
    (hx : Within f x) : store.cache.peek? x = Table.get? (fileTable f sn) x := by
  rcases hb : store.cache.peek? x with _ | b
  · rcases hget : Table.get? (fileTable f sn) x with _ | b
    · rfl
    · rw [h.faithful.complete hf ⟨hf.plain, hcopy⟩ hfb (hx.element hf).plain hget] at hb
      cases hb
  · exact (h.get?_of_within hf hfb hx hb).symm

/-- The structure of a working copy shows the text it was built from. -/
theorem Restructured.peek?_file (h : Restructured std f bodies id c buffer store t) (hf : IsFile f)
    (hmade : p.made files canceled f (some sn) = .ok bodies) :
    t.cache.peek? f = some (ownBody f sn) := by
  rw [made_some_file hf] at hmade
  split at hmade
  · cases hmade
  · cases hmade
    exact h.brought hf.plain (get?_fileTable_self f sn)

/-- The file and its declarations speak of the same text: all bodies of one build are made from one snapshot. -/
theorem snapshot?_of_within (hf : IsFile f) (hx : Within f x)
    (h : Table.get? (fileTable f sn) x = some b) : b.snapshot? = some sn := by
  rcases mem_fileTable hf (hx.element hf).plain h with ⟨-, rfl⟩ | ⟨-, hsn, -⟩
  · exact snapshot?_ownBody f sn
  · exact hsn

/-- Only the file has children, its declarations. So differences go down one level from a file, and no further. -/
theorem child_of_within (hf : IsFile f) (hx : Within f x) (h : Table.get? (fileTable f sn) x = some b)
    {c : Handle} (hc : c ∈ b.children) : x = f ∧ DeclaredIn f c := by
  rcases mem_fileTable hf (hx.element hf).plain h with ⟨rfl, rfl⟩ | ⟨-, -, hnil⟩
  · exact ⟨rfl, declaredIn_of_mem_ownBody hc⟩
  · rw [hnil] at hc
    cases hc

/-- The children in the table of a file stand where they belong, directly below the element that lists them. It is
what comparisons ask of a state. -/
theorem region_fileTable (hf : IsFile f) (sn : Snapshot) :
    Recorder.Region lexicon (Within f) (fileTable f sn) := by
  refine ⟨fun hx => (hx.element hf).plain.follows, fun hx hb hc => ?_⟩
  obtain ⟨rfl, hd⟩ := child_of_within hf hx hb hc
  exact ⟨.inr hd, hd.parent⟩

theorem length_pos_of_get? {l : Table Body} (h : Table.get? l x = some b) : 1 ≤ l.length := by
  cases l with
  | nil => cases h
  | cons q l => simp

/-! ## The differences of two texts -/

/-- The bodies of the file with a text. -/
def textTable (f : Handle) (text : Text) : Table Body := fileTable f (.detached text)

/-- The bodies of a text are grounded, so a recording can rely on its copy of them. -/
theorem grounded_textTable (hf : IsFile f) (text : Text) :
    Recorder.Grounded (Within f) (textTable f text) :=
  (region_fileTable hf _).grounded (fun q hq => ((plain_fileTable hf _).keys q hq).dependent)
    fun hx => (hx.element hf).plain.dependent

/-- **The differences of two states** of a working copy are those of their texts. What a comparison looks at below
the file are its declarations. They are all cached on both sides, and their bodies are those of the two texts but
for the snapshots; and the snapshots agree exactly if the texts do, as a version of a buffer has one text. -/
theorem differences_eq (h : Coherent std store) (ht : Coherent std t) (hf : IsFile f)
    (hcopy : (store.copyOf? f).isSome = true) (hcopy' : (t.copyOf? f).isSome = true)
    (hfb : store.cache.peek? f = some (ownBody f sn)) (hfb' : t.cache.peek? f = some (ownBody f sn'))
    (hversion : sn'.sameVersion sn = true → sn'.text = sn.text) (limit : Nat) :
    differences limit f store.cache.entries t.cache.entries =
      differences limit f (textTable f sn.text) (textTable f sn'.text) := by
  have hagrees : (Snapshot.detached sn'.text).agrees (.detached sn.text) = sn'.agrees sn := by
    rw [Bool.eq_iff_iff]
    simp only [Snapshot.agrees, Snapshot.sameVersion, Snapshot.detached, Option.isSome_none,
      Bool.false_and, Bool.false_or, Bool.or_eq_true, beq_iff_eq]
    constructor
    · exact .inr
    · -- equal versions of one buffer have equal texts
      rintro (hsame | htext)
      · exact hversion hsame
      · exact htext
  have hmatching : Recorder.Matching (fun x => if x = f then 1 else 0)
      (fun x => if x = f then 1 else 0) (Within f) (retake (.detached sn.text)) (retake (.detached sn'.text)) store.cache.entries t.cache.entries
      (textTable f sn.text) (textTable f sn'.text) := by
    have hold := fun {x} => h.peek?_of_within (x := x) hf hcopy hfb
    have hnew := fun {x} => ht.peek?_of_within (x := x) hf hcopy' hfb'
    refine ⟨fun {x} hx => ?_, fun {x} hx => ?_, fun b => ⟨rfl, rfl⟩, fun {x o n} hx ho hn => ?_,
      fun {x o n c} hx _ hn hc => ?_, fun {x} _ => ?_⟩
    · exact (get?_fileTable_retake (Snapshot.text_detached sn.text) x).trans
        (congrArg (Option.map _) (hold hx).symm)
    · exact (get?_fileTable_retake (Snapshot.text_detached sn'.text) x).trans
        (congrArg (Option.map _) (hnew hx).symm)
    · exact contentDiffers_retake (snapshot?_of_within hf hx ((hold hx).symm.trans ho))
        (snapshot?_of_within hf hx ((hnew hx).symm.trans hn)) hagrees
    · -- only the file has children, so the rank goes down
      obtain ⟨rfl, hd⟩ := child_of_within hf hx ((hnew hx).symm.trans hn) hc.1
      rw [if_neg (hf.ne_declared hd), if_pos rfl]
      exact ⟨.inr hd, Nat.zero_lt_one, Nat.zero_lt_one⟩
    · have hlength := length_pos_of_get? hfb
      have hlength' := length_pos_of_get? (get?_fileTable_self f (.detached sn.text))
      rw [textTable]
      split
      · exact ⟨hlength, hlength'⟩
      · exact ⟨Nat.zero_le _, Nat.zero_le _⟩
  have hbound := hmatching.bound (.inl rfl)
  rw [differences_eq_compare h.grounded ht.grounded hf.element,
    differences_eq_compare (grounded_textTable hf _) (grounded_textTable hf _) (.inl rfl),
    Recorder.compare_congr hmatching (.inl rfl) (Nat.lt_succ_of_le hbound.1) (Nat.lt_succ_of_le hbound.2)]

/-- **The differences of two texts** can always be told, and are empty exactly if the texts are equal. Other texts
make the file itself differ in content, at any depth of detail; equal ones make equal tables. -/
theorem differences_textTable (hf : IsFile f) (limit : Nat) (old new : Text) :
    ∃ delta, differences limit f (textTable f old) (textTable f new) = .ok delta ∧
      (delta.isEmpty = true ↔ old = new) := by
  have hold := region_fileTable hf (.detached old)
  have hnew := region_fileTable hf (.detached new)
  have hsound : Delta.Sound lexicon (Builder.new f).delta := Delta.sound_new hf.plain.follows
  obtain ⟨b, d, hb, hout⟩ : ∃ b d, Recorder.compare (textTable f old) (textTable f new) limit
      ((textTable f old).length + 1) 0 f (Builder.new f) = .ok (b, d) ∧
        Recorder.Outcome lexicon (Builder.new f) b d :=
    Recorder.compare_ok hold hnew (.inl rfl) hsound (.here f)
  have hdelta : differences limit f (textTable f old) (textTable f new) = .ok b.delta := by
    rw [differences_eq_compare (grounded_textTable hf _) (grounded_textTable hf _) (.inl rfl)]
    exact congrArg (Except.map fun r => r.1.delta) hb
  refine ⟨b.delta, hdelta, fun hempty => ?_, ?_⟩
  · -- other texts make the file itself differ in content, at any depth
    by_contra hne
    have hcontent : (ownBody f (.detached new)).contentDiffers (ownBody f (.detached old)) = true := by
      have hne' : ¬ new = old := fun h => hne h.symm
      simp [ownBody, fileBody, Body.contentDiffers, Source.agrees, Source.snapshotsAgree,
        Snapshot.agrees, Snapshot.sameVersion, Snapshot.detached, hne']
    obtain rfl := Recorder.differs_of_content (get?_fileTable_self f (.detached old))
      (get?_fileTable_self f (.detached new)) hcontent hb
    have htelling := Recorder.telling_of_compare hold hnew (.inl rfl)
      (get?_fileTable_self f (.detached old)) (get?_fileTable_self f (.detached new)) hsound rfl hb
    rw [Delta.isEmpty] at hempty
    simp_all
  · rintro rfl
    have hnone : Recorder.compare (textTable f old) (textTable f old) limit
        ((textTable f old).length + 1) 0 f (Builder.new f) = .ok (Builder.new f, false) :=
      Recorder.compare_agreeing (Recorder.agreement_of_eq hold fun _ => rfl) (.inl rfl)
    cases hnone.symm.trans hb
    rfl

end CodeModel.Foo
