import CodeModel.Proofs.Delta.Regular
import CodeModel.Proofs.Delta.StepLaw
import CodeModel.Proofs.Element.Bare

/-!
# Bare change trees

A builder does the same whether its handles are bare or not, so what is known about builders under a
lexicon is known about builders of parent-dependent handles.

* Putting a report in and looking an element up **commute** with making a tree bare
  (`bare_composeAlong`, `find?_bare`).
* A call within the tree is taken in, and is **recorded** by the bare builder
  (`Builder.exists_records_bare`).
-/

namespace CodeModel

namespace Delta

open Handle

variable {c d incoming fresh : Delta} {e root x : Handle} {path : List Handle} {l : List Delta}

mutual

/-- The tree with bare elements. -/
def bare : Delta → Delta
  | ⟨element, status, flags, movedFrom, movedTo, markers, resources, children⟩ =>
    ⟨element.bare, status, flags, movedFrom, movedTo, markers, resources, bareAll children⟩

/-- The trees with bare elements. -/
def bareAll : List Delta → List Delta
  | [] => []
  | c :: cs => c.bare :: bareAll cs

end

/-- Making all trees of a list bare is done one by one. -/
theorem bareAll_eq_map (l : List Delta) : bareAll l = l.map bare := by
  induction l with
  | nil => rfl
  | cons c l ih => rw [bareAll, ih, List.map_cons]

/-- A bare tree has bare elements and is the same otherwise. -/
theorem bare_eq (d : Delta) :
    d.bare = { d with element := d.element.bare, children := d.children.map bare } := by
  cases d
  rw [bare, bareAll_eq_map]

@[simp] theorem element_bare (d : Delta) : d.bare.element = d.element.bare := by rw [bare_eq]

@[simp] theorem status_bare (d : Delta) : d.bare.status = d.status := by rw [bare_eq]

@[simp] theorem flags_bare (d : Delta) : d.bare.flags = d.flags := by rw [bare_eq]

@[simp] theorem children_bare (d : Delta) : d.bare.children = d.children.map bare := by rw [bare_eq]

@[simp] theorem isWhole_bare (d : Delta) : d.bare.isWhole = d.isWhole := by rw [isWhole, isWhole, status_bare]

@[simp] theorem told?_bare (d : Delta) : d.bare.told? = d.told? := by
  rw [told?, told?, status_bare, flags_bare]

/-- A report about one element is still one when bare. -/
theorem leaf_bare (h : Leaf d) : Leaf d.bare := ⟨by rw [status_bare]; exact h.telling, by simp [h.children]⟩

/-! ## Putting reports in -/

theorem bare_compose (h : incoming.children = []) :
    (d.compose incoming).map bare = d.bare.compose incoming.bare := by
  rw [compose_eq, compose_eq, children_bare, h, composeNode, composeNode, status_bare, status_bare]
  rcases d.status with _ | _ | _ | _ <;> rcases incoming.status with _ | _ | _ | _ <;>
    simp [bare_eq, joinNode, h]

/-- The same where an outcome of nothing leaves an empty root. -/
theorem bare_composeOrReset (h : incoming.children = []) :
    (d.composeOrReset incoming).bare = d.bare.composeOrReset incoming.bare := by
  rw [composeOrReset, composeOrReset, ← bare_compose h]
  rcases d.compose incoming with _ | k
  · simp [bare_eq]
  · rfl

/-- An update of one child finds the same child whether handles are bare or not. -/
theorem bare_upsert {update update' : Delta → Option Delta} (e : Handle) (fresh : Delta) (l : List Delta)
    (h : ∀ k : Delta, (update k).map bare = update' k.bare) :
    (upsert e update fresh l).map bare = upsert e.bare update' fresh.bare (l.map bare) := by
  induction l with
  | nil => rfl
  | cons k l ih =>
    rw [upsert, List.map_cons, upsert, element_bare, same_bare, ← h k]
    split
    · rcases update k with _ | k' <;> rfl
    · rw [List.map_cons, ih]

theorem bare_modifyChild {update update' : Delta → Delta} (e : Handle) (l : List Delta)
    (h : ∀ k, (update k).bare = update' k.bare) :
    (modifyChild e update l).map bare = modifyChild e.bare update' (l.map bare) := by
  induction l with
  | nil => rfl
  | cons k l ih =>
    rw [modifyChild, List.map_cons, modifyChild, element_bare, same_bare]
    split
    · rw [List.map_cons, h]
    · rw [List.map_cons, ih]

theorem bare_addChild (h : c.children = []) : (d.addChild c).bare = d.bare.addChild c.bare := by
  rw [addChild, addChildWith, addChild, addChildWith, isWhole_bare]
  split
  · rfl
  · have hupsert : (upsert c.element (·.compose c) c d.children).map bare =
        upsert c.element.bare (·.compose c.bare) c.bare (d.children.map bare) :=
      bare_upsert _ _ _ fun _ => bare_compose h
    simp only [bare_eq d, element_bare, bare_eq { d with status := _, flags := _, children := _ }, hupsert]

/-- **Putting a report in** does not depend on the switch: every decision on the way is one of comparisons and of
statuses, and neither of them looks at it. -/
theorem bare_composeAlong (h : incoming.children = []) (path : List Handle) (d : Delta) :
    (composeAlong incoming path d).bare = composeAlong incoming.bare (path.map Handle.bare) d.bare := by
  induction path generalizing d with
  | nil => exact bare_composeOrReset h
  | cons next rest ih =>
    cases rest with
    | nil => exact bare_addChild h
    | cons next' rest =>
      simp only [composeAlong, List.map_cons, isWhole_bare]
      split
      · rfl
      · have hadd := bare_addChild (d := d) (c := { element := next }) rfl
        have hnext : ({ element := next } : Delta).bare = { element := next.bare } := by simp [bare_eq]
        rw [hnext] at hadd
        rw [← hadd]
        simp only [bare_eq { d.addChild _ with children := _ }, bare_eq (d.addChild _)]
        rw [bare_modifyChild next _ ih]
        rfl

/-! ## Looking elements up -/

/-- The path between bare handles is the bare path: the strict comparison, by which the root is recognised, does not
see the switches that are taken away. -/
theorem pathBelow?_bare (root e : Handle) :
    pathBelow? root.bare e.bare = (pathBelow? root e).map (List.map Handle.bare) := by
  induction e with
  | root n =>
    have hsame := sameChain_bare (.root n) root
    rw [Handle.bare] at hsame ⊢
    rw [pathBelow?, pathBelow?, hsame]
    split <;> rfl
  | child p n ih =>
    have hsame := sameChain_bare (.child p n) root
    rw [Handle.bare] at hsame ⊢
    rw [pathBelow?, pathBelow?, hsame, ih]
    split
    · rfl
    · rcases pathBelow? root p with _ | path
      · rfl
      · simp [Handle.bare]

/-- Going down bare handles in a bare tree finds the bare node, for at each step the comparison picks the same child
as before. -/
theorem descend_bare (path : List Handle) (d : Delta) :
    descend (path.map Handle.bare) d.bare = (descend path d).map bare := by
  induction path generalizing d with
  | nil => rfl
  | cons next rest ih =>
    have hfind : d.bare.children.find? (fun c => next.bare.same c.element) =
        (d.children.find? fun c => next.same c.element).map bare := by
      rw [children_bare, List.find?_map]
      simp only [Function.comp_def, element_bare, Handle.same_bare]
    rw [List.map_cons, descend, descend, isWhole_bare, hfind]
    split
    · rfl
    · rcases hc : d.children.find? (fun c => next.same c.element) with _ | c
      · simp only [hc, Option.map_none]
      · simp only [hc, Option.map_some, element_bare, sameChain_bare, ih]
        split <;> rfl

/-- **Looking an element up** does not depend on the switch: the path is found by comparisons, and so is each step
down along it. -/
theorem find?_bare (d : Delta) (e : Handle) : d.bare.find? e.bare = (d.find? e).map bare := by
  rw [find?, element_bare, pathBelow?_bare, find?]
  rcases pathBelow? d.element e with _ | path
  · rfl
  · exact descend_bare path d

end Delta

namespace Builder

open Delta Handle

variable {b : Builder} {r : Report} {call : Status × Flags} {path : List Handle}

/-- The builder with a bare tree. -/
def bare (b : Builder) : Builder := { b with delta := b.delta.bare }

/-- **A call within the tree** is taken in, and the bare builder records it unless something above came or went as a
whole. Comparisons of states are about handles of any kinds; by this lemma the step law can be used for them all the
same. -/
theorem exists_records_bare {P : Delta → Prop} (hP : Lasting P) (hb : Regular simple P b.bare.delta)
    (hr : r.element.ParentDependent) (hcall : r.call? = some call) (hown : P r.toDelta.bare)
    (h : Leads b.bare.delta.element path r.element.bare) (hclear : Clear path b.bare.delta) :
    ∃ b', b.report r = .ok b' ∧ Records simple b.bare r.element.bare call b'.bare ∧
      Regular simple P b'.bare.delta := by
  have hleaf := leaf_toDelta r
  have hpath := (pathBelow?_eq_some_iff hb.tidy.follows hr.follows_bare).mpr h
  rw [show b.bare.delta.element = b.delta.element.bare from element_bare b.delta, pathBelow?_bare] at hpath
  obtain ⟨path', hpath', rfl⟩ := Option.map_eq_some_iff.mp hpath
  obtain ⟨hm, htold⟩ := report_of_call hcall
  have hfollows : r.toDelta.bare.element.Follows simple := by
    rw [element_bare]
    exact hr.follows_bare
  have hleads : Leads b.bare.delta.element (path'.map Handle.bare) r.toDelta.bare.element := by
    rw [element_bare r.toDelta]
    exact h
  refine ⟨{ b with delta := composeAlong r.toDelta path' b.delta }, ?_, ?_, ?_⟩
  · rw [report_eq_insert hm, insert, show pathBelow? b.delta.element r.toDelta.element = some path' from hpath']
  · have hrecords := records_composeAlong (b := b.bare) hb.sound (leaf_bare hleaf) hfollows hleads hclear
    rw [element_bare, status_bare, flags_bare, htold] at hrecords
    simp only [bare, bare_composeAlong hleaf.children]
    exact hrecords
  · simp only [bare, bare_composeAlong hleaf.children]
    exact hb.composeAlong hP (leaf_bare hleaf) hfollows hown hleads

end Builder

end CodeModel
