import CodeModel.Proofs.Foo.Building
import CodeModel.Proofs.Foo.Placement
import CodeModel.Proofs.Foo.Tally

/-!
# Every declaration has its body

A table keeps one body for handles that match, and a body keeps one child of them. So a build would lose
declarations without a word if their handles matched. They do not, for the tally gives declarations of one kind
and name different occurrences; and a list of handles that stay apart is kept as it is, in a table and as
children.

* No two bodies of a file are for handles that match, the file's own included: its kind is none of those that
  declarations have (`pairwise_apart_fileBodies`).
* Handle and body of a declaration **record** it: place, kind, name, occurrence, text and the place of the name
  (`recorded_element`). That the ranges lie within the text is known from the parser.

So a build of a file makes a body for every declaration of the text (`build_complete`).
-/

namespace CodeModel.Foo

variable {f : Handle} {sn : Snapshot} {d : Declaration}

/-! ## The bodies of a file -/

/-- **No two bodies** of a build are for handles that match. Declarations are told apart by their occurrences, and
the file from all of them by its kind. -/
theorem pairwise_apart_fileBodies (hf : f.kind.name = fileKind.name) (sn : Snapshot) :
    (fileBodies f sn).Pairwise fun q r => q.1.Apart r.1 := by
  refine List.pairwise_append.mpr ⟨?_, List.pairwise_singleton .., fun q hq r hr => ?_⟩
  · exact List.pairwise_map.mpr (pairwise_apart_elements Tally.counts_nil f _)
  · obtain rfl := List.mem_singleton.mp hr
    obtain ⟨⟨e, d⟩, hd, rfl⟩ := List.mem_map.mp hq
    obtain ⟨n, rfl, hn⟩ := declaredIn_elements hd
    refine Handle.apart_of_node (Bool.eq_false_iff.mpr fun hsame => ?_)
    have hkind : n.kind.name = f.kind.name := ((Node.same_iff ..).mp hsame).1
    rw [hf] at hkind
    rcases hn with hn | hn <;> simp [hn, varKind, functionKind, fileKind] at hkind

/-- The table of a file is the list of its bodies: none of them is replaced by a later one. -/
theorem fileTable_eq_fileBodies (hf : f.kind.name = fileKind.name) (sn : Snapshot) :
    fileTable f sn = fileBodies f sn := Table.ofList_eq_self (pairwise_apart_fileBodies hf sn)

/-- The children of a file are its declarations, in the order of the text, and none is left out. -/
theorem children_ownBody (f : Handle) (sn : Snapshot) :
    (ownBody f sn).children = (elements f [] (parse sn.text).declarations).map Prod.fst :=
  Body.children_setChildren (List.pairwise_map.mpr (pairwise_apart_elements Tally.counts_nil ..)) _

/-- Every element of the text has its body among those of the build, together with the body of the file itself. -/
theorem mem_fileBodies_of_mem_elements {q : Handle × Declaration}
    (h : q ∈ elements f [] (parse sn.text).declarations) : (q.1, q.2.body sn) ∈ fileBodies f sn :=
  List.mem_append_left _ (List.mem_map_of_mem h)

/-- The table finds the body of an element of the text, which is the one of its declaration. -/
theorem get?_fileTable_element (hf : IsFile f) {q : Handle × Declaration}
    (h : q ∈ elements f [] (parse sn.text).declarations) :
    Table.get? (fileTable f sn) q.1 = some (q.2.body sn) := by
  refine ((plain_fileTable hf sn).get?_eq_some_iff ((declaredIn_elements h).plain hf)).mpr ?_
  rw [fileTable_eq_fileBodies (by rw [hf.kind])]
  exact mem_fileBodies_of_mem_elements h

/-- The file covers its whole text, and notes how many problems there are in it. -/
theorem source_ownBody (f : Handle) (sn : Snapshot) :
    (ownBody f sn).source = some
      { fullRange := some ⟨0, sn.text.length⟩
        snapshot := some sn
        properties := Properties.set {} "problems" (.int (parse sn.text).problems.length) } :=
  source_setChildren ..

/-- The text that a build of a file is made from: the given one, or else that of the resource. -/
def Project.source (p : Project) (files : FileTree) (f : Handle) : Option Snapshot → Except Error Snapshot
  | some sn => .ok sn
  | none => (p.text files f).map Snapshot.detached

/-- A build of a file is made from the given text, or else from that of the resource; what it makes depends on the
text alone. -/
theorem bodies_of_file (p : Project) (files : FileTree) (hf : f.kind.name = fileKind.name)
    (given : Option Snapshot) : p.bodies files f given = (p.source files f given).map (fileBodies f) := by
  rcases given with _ | sn
  · simp only [Project.bodies, Project.source, hf]
    rcases p.text files f with error | text <;> rfl
  · simp only [Project.bodies, Project.source, hf]
    rfl

/-- The handle and the body are those of the declaration `d` of a text, behind the `earlier` ones. -/
structure Declaration.Recorded (d : Declaration) (f : Handle) (sn : Snapshot) (earlier : List Declaration)
    (e : Handle) (b : Body) : Prop where
  /-- the element stands directly in the file -/
  parent : e.parent? = some f
  /-- kind and name are those of the declaration, a function being named with its arity -/
  named : match d.kind with
    | .var => e.kind = varKind ∧ e.name = some d.name
    | .function parameters =>
      e.kind = functionKind ∧ e.name = some (d.name ++ "/" ++ parameters.length.repr)
  /-- the occurrence counts the declarations of this kind and name up to this one -/
  occurrence : e.occurrence =
    1 + earlier.countP fun c => c.elementKind = d.elementKind ∧ c.elementName = d.elementName
  /-- the text of the body is that of the declaration -/
  text : ∃ t, sn.text.slice? d.fullRange.offset d.fullRange.stop = some t ∧ b.text? = some t
  /-- the name range of the body is where the name stands -/
  identified : ∃ r, b.source.bind Source.nameRange = some r ∧
    sn.text.slice? r.offset r.stop = some d.name.toList

/-- **Handle and body of a declaration record it.** The text and the name stand where the parser says, the rest is
how elements and bodies are made. -/
theorem recorded_element (hd : d.Placed sn.text) (f : Handle) (earlier : List Declaration) :
    d.Recorded f sn earlier (d.element f (d.occurrence earlier)) (d.body sn) := by
  refine ⟨rfl, ?_, ?_, ?_, ?_⟩
  · rcases hkind : d.kind with _ | parameters <;>
      simp [Declaration.element, Handle.sub, Handle.kind, Handle.name, Handle.node, Declaration.elementKind,
        Declaration.elementName, hkind]
  · have hcount : (earlier.countP fun c => c.key = d.key) =
        earlier.countP fun c => c.elementKind = d.elementKind ∧ c.elementName = d.elementName := by
      refine List.countP_congr fun c _ => ?_
      rw [decide_eq_true_iff, decide_eq_true_iff, Declaration.key_eq_iff]
    show max (d.occurrence earlier) 1 = _
    rw [Declaration.occurrence, hcount]
    omega
  · obtain ⟨inner, hfull⟩ := hd.full
    exact ⟨_, hfull, hfull⟩
  · exact ⟨_, rfl, hd.name⟩

/-- **No declaration is lost.** A build of a file from any text makes one body for each declaration of the text and
one for the file, for handles that stay apart. The children of the file are its declarations in the order of the
text, every one has the handle and the body that record it, and the number of problems is noted. Tables and lists of
children drop what matches something they have, without a word; that they drop nothing here is due to the tally. -/
theorem build_complete {σ : Type} (p : Project) (files : σ → FileTree) (f : Handle) (given : Option Snapshot)
    (sn : Snapshot) (s : Session σ) (hf : f.kind.name = fileKind.name)
    (hsource : p.source (files s.world) f given = .ok sn) :
    ∃ (declared : Table Body) (own : Body),
      (Session.inDraft ((p.model files).build f given)).run s = (.ok (declared ++ [(f, own)]), s) ∧
      ((declared ++ [(f, own)]).Pairwise fun q r => q.1.Apart r.1) ∧
      own.children = declared.map Prod.fst ∧
      declared.length = (parse sn.text).declarations.length ∧
      (∀ (k : Nat) (d : Declaration), (parse sn.text).declarations[k]? = some d →
        ∃ e b, declared[k]? = some (e, b) ∧ d.Recorded f sn ((parse sn.text).declarations.take k) e b) ∧
      own.source.bind (·.properties.get? "problems") = some (.int (parse sn.text).problems.length) := by
  have hapart : ((elements f [] (parse sn.text).declarations).map (fun q => (q.1, q.2.body sn)) ++
      [(f, ownBody f sn)]).Pairwise fun q r => q.1.Apart r.1 := pairwise_apart_fileBodies hf sn
  refine ⟨_, _, ?_, hapart, ?_, ?_, fun k d hd => ?_, ?_⟩
  · rw [run_inDraft, bodies_of_file p _ hf, hsource]
    exact congrArg (fun t => (Except.ok t, s)) (fileTable_eq_fileBodies hf sn)
  · rw [children_ownBody, List.map_map]
    rfl
  · have hall := congrArg List.length (map_snd_elements f [] (parse sn.text).declarations)
    rwa [List.length_map] at hall ⊢
  · have hplaced := ((spread_parse sn.text).declared d (List.mem_of_getElem? hd)).1
    refine ⟨_, _, ?_, recorded_element hplaced f _⟩
    rw [List.getElem?_map, getElem?_elements Tally.counts_nil, hd]
    simp
  · rw [source_ownBody]
    exact Properties.get?_set_self ..

/-- Two functions of one name and arity are kept apart by their occurrences. -/
theorem build_complete_namesakes :
    let p : Project := ⟨"lib"⟩
    let f := p.file "a.foo"
    let sn := Snapshot.detached "def f(a) \x7b\x7d def f(b) \x7b\x7d".toList
    let s := freshSession {} {} []
    f.kind.name = fileKind.name ∧ p.source s.world.files f (some sn) = .ok sn ∧
      ∃ e b e' b' own,
        (Session.inDraft ((p.model Desk.files).build f (some sn))).run s =
          (.ok [(e, b), (e', b'), (f, own)], s) ∧
        own.children = [e, e'] ∧ e.name = some "f/1" ∧ e'.name = some "f/1" ∧
        e.occurrence = 1 ∧ e'.occurrence = 2 := by
  intro p f sn s
  have hsource : p.source s.world.files f (some sn) = .ok sn := rfl
  have hparse : (parse sn.text).declarations =
      [⟨.function ["a"], "f", ⟨0, 11⟩, ⟨4, 1⟩⟩, ⟨.function ["b"], "f", ⟨12, 11⟩, ⟨16, 1⟩⟩] := by
    decide +kernel
  obtain ⟨declared, own, hrun, -, hchildren, hlength, hall, -⟩ :=
    build_complete p Desk.files f (some sn) sn s rfl hsource
  rw [hparse] at hlength hall
  obtain ⟨⟨e, b⟩, ⟨e', b'⟩, rfl⟩ := List.length_eq_two.mp hlength
  obtain ⟨_, _, he, hrecorded⟩ := hall 0 _ rfl
  obtain ⟨_, _, he', hrecorded'⟩ := hall 1 _ rfl
  cases he
  cases he'
  exact ⟨rfl, hsource, e, b, e', b', own, hrun, hchildren, hrecorded.named.2, hrecorded'.named.2,
    hrecorded.occurrence, hrecorded'.occurrence.trans (by decide)⟩

end CodeModel.Foo
