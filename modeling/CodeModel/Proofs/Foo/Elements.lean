import CodeModel.Foo.Model
import CodeModel.Proofs.Element.Distinct

/-!
# The elements of Foo projects

The element tree of the Foo model has three levels: projects, files and declarations. All of them are
plain handles of one lexicon, so comparing them is equality.

* A **declaration** is owned by its file (`isOwnedBy_iff`); projects and files are owned by
  nobody.
* A build of a file makes a **table** of bodies: one for the file, the others for declarations in it
  (`mem_fileTable`), all of them speaking of the text that was built from.
-/

namespace CodeModel.Foo

/-! ## The element tree -/

/-- What the kind names of the model stand for. -/
def lexicon : Lexicon := fun name =>
  if name = projectKind.name then projectKind
  else if name = fileKind.name then fileKind
  else { name }

/-- The element is a project. -/
def IsProject : Handle → Prop
  | .root n => n.kind = projectKind
  | .child _ _ => False

/-- The element is a file of a project. -/
def IsFile : Handle → Prop
  | .root _ => False
  | .child p n => IsProject p ∧ n.kind = fileKind

/-- The element is a variable or a function that stands directly in the file `f`. -/
def DeclaredIn (f e : Handle) : Prop :=
  ∃ n : Node, e = .child f n ∧ (n.kind = varKind ∨ n.kind = functionKind)

/-- The element is a variable or a function of some file. -/
def IsDeclared (e : Handle) : Prop := ∃ f, IsFile f ∧ DeclaredIn f e

/-- The element belongs to the element tree of the model. -/
def IsElement (e : Handle) : Prop := IsProject e ∨ IsFile e ∨ IsDeclared e

/-- An **element** of the model. -/
abbrev Element := { e : Handle // IsElement e }

variable {e f p x : Handle}

theorem IsFile.element (h : IsFile f) : IsElement f := .inr (.inl h)

theorem IsProject.element (h : IsProject p) : IsElement p := .inl h

theorem DeclaredIn.element (hf : IsFile f) (h : DeclaredIn f e) : IsElement e :=
  .inr (.inr ⟨f, hf, h⟩)

theorem IsFile.parent (h : IsFile f) : ∃ p, f.parent? = some p ∧ IsProject p := by
  cases f with
  | root n => cases h
  | child p n => exact ⟨p, rfl, h.1⟩

theorem IsProject.parent (h : IsProject p) : p.parent? = none := by
  cases p with
  | root n => rfl
  | child q n => cases h

theorem DeclaredIn.parent (h : DeclaredIn f e) : e.parent? = some f := by
  obtain ⟨n, rfl, -⟩ := h
  rfl

/-! ## Comparison -/

/-- Projects are plain handles, so comparing them is equality. -/
theorem IsProject.plain (h : IsProject p) : p.Plain lexicon := by
  cases p with
  | root n =>
    have hk : n.kind = projectKind := h
    exact ⟨by simp [Handle.Follows, Node.Follows, hk, lexicon],
      by simp [Handle.ParentDependent, hk, projectKind]⟩
  | child q n => cases h

/-- Files are plain handles, as the project above them is: they are equal if they have one name and one project. -/
theorem IsFile.plain (h : IsFile f) : f.Plain lexicon := by
  cases f with
  | root n => cases h
  | child p n =>
    obtain ⟨hp, hk⟩ := h
    refine ⟨⟨hp.plain.follows, ?_⟩, hp.plain.dependent, by simp [hk, fileKind]⟩
    simp [Node.Follows, hk, lexicon, fileKind, projectKind]

/-- Declarations are plain handles, for their kinds are told apart by their names. -/
theorem DeclaredIn.plain (hf : IsFile f) (h : DeclaredIn f e) : e.Plain lexicon := by
  obtain ⟨n, rfl, hk⟩ := h
  refine ⟨⟨hf.plain.follows, ?_⟩, hf.plain.dependent, ?_⟩
  · rcases hk with hk | hk <;>
      simp [Node.Follows, hk, lexicon, varKind, functionKind, fileKind, projectKind]
  · rcases hk with hk | hk <;> simp [hk, varKind, functionKind]

/-- **All elements are plain**, and of one lexicon: two handles match exactly if they are equal. This is what makes
tables of bodies behave like functions of elements. -/
theorem IsElement.plain (h : IsElement e) : e.Plain lexicon := by
  rcases h with h | h | ⟨f, hf, h⟩
  · exact h.plain
  · exact h.plain
  · exact h.plain hf

/-! ## Kinds and owners -/

theorem IsProject.kind (h : IsProject p) : p.kind = projectKind := by
  cases p with
  | root n => exact h
  | child q n => cases h

theorem IsFile.kind (h : IsFile f) : f.kind = fileKind := by
  cases f with
  | root n => cases h
  | child q n => exact h.2

theorem IsProject.openable (h : IsProject p) : p.openable = true := by
  rw [Handle.openable, h.kind]
  rfl

theorem IsFile.openable (h : IsFile f) : f.openable = true := by
  rw [Handle.openable, h.kind]
  rfl

/-- Declarations cannot be opened for themselves; their bodies come with their file. -/
theorem DeclaredIn.not_openable (h : DeclaredIn f e) : e.openable = false := by
  obtain ⟨n, rfl, hk | hk⟩ := h <;> simp [Handle.openable, Handle.kind, Handle.node, hk, varKind,
    functionKind]

/-- The owner of a declaration is the file it stands in, its nearest openable ancestor. -/
theorem DeclaredIn.owner (hf : IsFile f) (h : DeclaredIn f e) : e.owner? = some f := by
  have hne := h.not_openable
  obtain ⟨n, rfl, -⟩ := h
  cases f with
  | root m => cases hf
  | child p m =>
    have hm : m.kind.openable = true := hf.openable
    simp only [Handle.openable, Handle.kind, Handle.node] at hne
    simp [Handle.owner?, hne, hm]

theorem IsElement.of_openable (h : IsElement e) (ho : e.openable = true) :
    IsProject e ∨ IsFile e := by
  rcases h with h | h | ⟨f, -, h⟩
  · exact .inl h
  · exact .inr h
  · rw [h.not_openable] at ho
    cases ho

/-- What cannot be opened is a declaration. -/
theorem IsElement.of_not_openable (h : IsElement e) (ho : e.openable = false) : IsDeclared e := by
  rcases h with h | h | h
  · rw [h.openable] at ho
    cases ho
  · rw [h.openable] at ho
    cases ho
  · exact h

/-- **Declarations** are owned by the file they stand in, and nothing else is owned by anything. So dropping what an
evicted element owns is to drop the declarations of an evicted file. -/
theorem isOwnedBy_iff (hx : IsElement x) (he : e.Plain lexicon) :
    x.isOwnedBy e = true ↔ IsFile e ∧ DeclaredIn e x := by
  rw [Handle.isOwnedBy_iff hx.plain.follows he.follows]
  constructor
  · rintro ⟨hne, ho⟩
    obtain ⟨f, hf, hfx⟩ := hx.of_not_openable hne
    obtain rfl := Option.some.inj ((hfx.owner hf).symm.trans ho)
    exact ⟨hf, hfx⟩
  · rintro ⟨hf, hfx⟩
    exact ⟨hfx.not_openable, hfx.owner hf⟩

theorem DeclaredIn.isOwnedBy (hf : IsFile f) (h : DeclaredIn f e) : e.isOwnedBy f = true :=
  (isOwnedBy_iff (h.element hf) hf.plain).mpr ⟨hf, h⟩

/-- A declaration stands in one file only, its parent. So a body for it comes with the body of that file. -/
theorem DeclaredIn.unique {g : Handle} (h : DeclaredIn f e) (k : DeclaredIn g e) : f = g :=
  Option.some.inj (h.parent.symm.trans k.parent)

theorem DeclaredIn.isFile (h : DeclaredIn f e) (he : IsElement e) : IsFile f := by
  obtain ⟨g, hg, hge⟩ := he.of_not_openable h.not_openable
  exact h.unique hge ▸ hg

theorem IsFile.ne_declared (hf : IsFile f) (h : DeclaredIn x e) : e ≠ f := by
  rintro rfl
  have := hf.openable
  rw [h.not_openable] at this
  cases this

theorem IsProject.ne_file (hp : IsProject p) (hf : IsFile f) : p ≠ f := by
  rintro rfl
  cases p with
  | root n => cases hf
  | child q n => cases hp

/-! ## The table of a file -/

/-- The bodies that a build of a file makes from a text. -/
def fileTable (f : Handle) (snapshot : Snapshot) : Table Body := Table.ofList (fileBodies f snapshot)

theorem mem_children_setChildren {b : Body} {l : List Handle} (h : x ∈ (b.setChildren l).children) :
    x ∈ l := by
  suffices hfold : ∀ b : Body, x ∈ (l.foldl Body.addChild b).children → x ∈ b.children ∨ x ∈ l by
    exact (hfold _ h).resolve_left (by simp)
  clear h
  induction l with
  | nil => exact fun b h => .inl h
  | cons c l ih =>
    intro b h
    rcases ih _ h with h | h
    · rw [Body.addChild] at h
      split at h
      · exact .inl h
      · rcases List.mem_append.mp h with h | h
        · exact .inl h
        · exact .inr (List.mem_singleton.mp h ▸ List.mem_cons_self ..)
    · exact .inr (List.mem_cons_of_mem _ h)

@[simp] theorem source_setChildren (b : Body) (l : List Handle) :
    (b.setChildren l).source = b.source := by
  suffices hfold : ∀ b : Body, (l.foldl Body.addChild b).source = b.source by
    exact hfold _
  induction l with
  | nil => exact fun b => rfl
  | cons c l ih =>
    intro b
    refine (ih _).trans ?_
    rw [Body.addChild]
    split <;> rfl

/-- The elements of a text stand directly in the file: declarations do not stand in one another. -/
theorem declaredIn_elements {tally : Tally} {ds : List Declaration} {q : Handle × Declaration}
    (h : q ∈ elements f tally ds) : DeclaredIn f q.1 := by
  induction ds generalizing tally with
  | nil => cases h
  | cons d ds ih =>
    rcases List.mem_cons.mp h with rfl | h
    · refine ⟨_, rfl, ?_⟩
      rcases hd : d.kind with _ | ps <;> simp [Declaration.elementKind, hd]
    · exact ih h

/-- The body that a build makes for the file itself. -/
def ownBody (f : Handle) (snapshot : Snapshot) : Body :=
  let outline := parse snapshot.text
  fileBody snapshot outline.problems.length ((elements f [] outline.declarations).map Prod.fst)

/-- The table of a file has the body of the file itself, which goes in last. -/
theorem get?_fileTable_self (f : Handle) (snapshot : Snapshot) :
    Table.get? (fileTable f snapshot) f = some (ownBody f snapshot) := by
  rw [fileTable, fileBodies, Table.ofList_concat]
  exact Table.get?_insert_self ..

/-- The body of a file tells which text it was built from, so a caller who speaks of another text can be told. -/
theorem snapshot?_ownBody (f : Handle) (snapshot : Snapshot) :
    (ownBody f snapshot).snapshot? = some snapshot := by
  simp [ownBody, fileBody, Body.snapshot?]

theorem declaredIn_of_mem_ownBody {snapshot : Snapshot} (h : x ∈ (ownBody f snapshot).children) :
    DeclaredIn f x := by
  obtain ⟨q, hq, rfl⟩ := List.mem_map.mp (mem_children_setChildren h)
  exact declaredIn_elements hq

/-- A build makes bodies for the file and for declarations in it. The latter have no children, and all of them speak
of the same text. -/
theorem mem_fileBodies {snapshot : Snapshot} {q : Handle × Body} (h : q ∈ fileBodies f snapshot) :
    q = (f, ownBody f snapshot) ∨
      DeclaredIn f q.1 ∧ q.2.snapshot? = some snapshot ∧ q.2.children = [] := by
  rcases List.mem_append.mp h with h | h
  · obtain ⟨⟨e, d⟩, hd, rfl⟩ := List.mem_map.mp h
    exact .inr ⟨declaredIn_elements hd, rfl, rfl⟩
  · exact .inl (List.mem_singleton.mp h)

theorem plain_of_mem_fileBodies {snapshot : Snapshot} (hf : IsFile f) :
    ∀ q ∈ fileBodies f snapshot, q.1.Plain lexicon := by
  intro q hq
  rcases mem_fileBodies hq with rfl | ⟨hd, -⟩
  · exact hf.plain
  · exact hd.plain hf

/-- The table of a file has one body for each element, so it does not matter in which order it is gone through. -/
theorem plain_fileTable (hf : IsFile f) (snapshot : Snapshot) :
    Table.Plain lexicon (fileTable f snapshot) :=
  Table.plain_ofList _ (plain_of_mem_fileBodies hf)

/-- **The table of a file** has bodies for the file and for declarations in it, and no others. It is what the bodies
of a build come to when they are put into one table. -/
theorem mem_fileTable {snapshot : Snapshot} {b : Body} (hf : IsFile f) (hx : x.Plain lexicon)
    (h : Table.get? (fileTable f snapshot) x = some b) :
    x = f ∧ b = ownBody f snapshot ∨
      DeclaredIn f x ∧ b.snapshot? = some snapshot ∧ b.children = [] := by
  obtain ⟨k, hk, hxk⟩ := Table.exists_of_get?_ofList
    (fun q hq => (plain_of_mem_fileBodies hf q hq).follows) hx.follows h
  obtain rfl := (hx.same_iff (plain_of_mem_fileBodies hf _ hk)).mp hxk
  rcases mem_fileBodies hk with heq | hd
  · exact .inl (Prod.mk.inj heq)
  · exact .inr hd

end CodeModel.Foo
