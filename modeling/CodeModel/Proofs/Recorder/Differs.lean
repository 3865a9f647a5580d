import Mathlib.Data.List.Nodup
import Mathlib.Data.List.Perm.Subperm
import CodeModel.Proofs.Recorder.Longest
import CodeModel.Proofs.Recorder.Snapshot

/-!
# When trees differ

Two states differ below an element if somewhere in the trees below it a body is there on one side only,
has other content or has other children (`Differs`). Openable children without a body on one side are
skipped, as they have not been opened.

* The check that looks at all of it at once, used at the depth limit, decides just that
  (`treeDiffers_iff`).
* Children give nothing to report exactly if their lists are the same (`childReports_eq_nil_iff`): what is
  **left in place** is all of the children only if there are no others and their order is the same.
-/

namespace CodeModel.Recorder

open Handle

variable {old new t : Bodies} {x y c : Handle} {o n b : Body} {fuel : Nat}

/-! ## States -/

/-- A state in which every body lists different children of its element, over parent-dependent handles. These are
the states that a comparison is meant for: no child has two places, and no body has two elements. -/
structure Arranged (t : Bodies) : Prop where
  /-- ancestors of elements matter -/
  keys : ∀ p ∈ t, p.1.ParentDependent
  /-- ancestors of children matter, the nearest of which is the element -/
  children : ∀ p ∈ t, ∀ c ∈ p.2.children,
    c.ParentDependent ∧ (c.parent?.any fun q => q.same p.1) = true
  /-- children are different -/
  apart : ∀ p ∈ t, p.2.children.Pairwise fun c k => c.same k = false

/-- **The trees below the element differ.** A difference is a path down through children that are listed on the
later side to an element whose own bodies differ. A child that can be opened and has no body on one side has not
been opened there, and is not followed. -/
inductive Differs (old new : Bodies) : Handle → Prop where
  /-- the element came -/
  | appeared {x : Handle} {n : Body} (ho : Table.get? old x = none) (hn : Table.get? new x = some n) :
      Differs old new x
  /-- the element went -/
  | vanished {x : Handle} {o : Body} (ho : Table.get? old x = some o) (hn : Table.get? new x = none) :
      Differs old new x
  /-- its content is different -/
  | content {x : Handle} {o n : Body} (ho : Table.get? old x = some o) (hn : Table.get? new x = some n)
      (h : (n.contentChange o).isEmpty = false) : Differs old new x
  /-- it has other children, or the same in another order -/
  | children {x : Handle} {o n : Body} (ho : Table.get? old x = some o) (hn : Table.get? new x = some n)
      (h : sameChildren o.children n.children = false) : Differs old new x
  /-- the trees below a child differ, and the child was opened on both sides if it can be opened -/
  | deeper {x c : Handle} {o n : Body} (ho : Table.get? old x = some o) (hn : Table.get? new x = some n)
      (hc : c ∈ n.children) (hopened : isUnopened old new c = false) (h : Differs old new c) :
      Differs old new x

/-- The lists of children differ, or trees below one of the children. With the content it makes up all differences
of an element that has a body on both sides (`differs_iff`). -/
def ChildrenDiffer (old new : Bodies) (o n : Body) : Prop :=
  sameChildren o.children n.children = false ∨
    ∃ c ∈ n.children, isUnopened old new c = false ∧ Differs old new c

/-- An element with bodies on both sides differs in its content or in its children. -/
theorem differs_iff (ho : Table.get? old x = some o) (hn : Table.get? new x = some n) :
    Differs old new x ↔ n.contentDiffers o = true ∨ ChildrenDiffer old new o n := by
  have hcontent : (n.contentChange o).isEmpty = false ↔ n.contentDiffers o = true := by
    rw [Body.contentChange_isEmpty, Bool.not_eq_false']
  constructor
  · rintro (⟨ho', -⟩ | ⟨-, hn'⟩ | ⟨ho', hn', h⟩ | ⟨ho', hn', h⟩ | ⟨ho', hn', hc, hopened, h⟩)
    · cases ho.symm.trans ho'
    · cases hn.symm.trans hn'
    all_goals
      cases ho.symm.trans ho'
      cases hn.symm.trans hn'
    · exact .inl (hcontent.mp h)
    · exact .inr (.inl h)
    · exact .inr (.inr ⟨_, hc, hopened, h⟩)
  · rintro (h | h | ⟨c, hc, hopened, h⟩)
    · exact .content ho hn (hcontent.mpr h)
    · exact .children ho hn h
    · exact .deeper ho hn hc hopened h

theorem not_differs_of_none (ho : Table.get? old x = none) (hn : Table.get? new x = none) :
    ¬ Differs old new x := by
  rintro (⟨-, hn'⟩ | ⟨ho', -⟩ | ⟨ho', -, -⟩ | ⟨ho', -, -⟩ | ⟨ho', -, -, -, -⟩)
  · cases hn.symm.trans hn'
  all_goals cases ho.symm.trans ho'

/-- Children belong to their element: they stand one step below it, and their ancestors matter as its own do. -/
theorem Arranged.child (h : Arranged t) (hx : x.ParentDependent) (hb : Table.get? t x = some b)
    (hc : c ∈ b.children) : c.ParentDependent ∧ c.bare.parent? = some x.bare := by
  obtain ⟨k, hk, hxk⟩ := Table.exists_of_get? hb
  obtain ⟨hcd, hparent⟩ := h.children (k, b) hk c hc
  obtain ⟨q, hq, hqk⟩ := (Option.any_eq_true _ _).mp hparent
  have hkd := h.keys (k, b) hk
  refine ⟨hcd, ?_⟩
  rw [parent?_bare, hq, Option.map_some, (same_iff_bare (hcd.parent hq) hkd).mp hqk,
    (same_iff_bare hx hkd).mp hxk]

/-- Children of one body are different handles even when bare, so reports about two of them are about two elements.
-/
theorem Arranged.apart_bare (h : Arranged t) (hb : Table.get? t x = some b) :
    b.children.Pairwise fun c k => c.bare ≠ k.bare := by
  obtain ⟨k, hk, -⟩ := Table.exists_of_get? hb
  refine (h.apart (k, b) hk).imp_of_mem fun {c d} hc hd hne => ?_
  rw [Ne, ← same_iff_bare (h.children _ hk c hc).1 (h.children _ hk d hd).1, hne]
  simp

theorem Arranged.nodup (h : Arranged t) (hb : Table.get? t x = some b) :
    (b.children.map Handle.bare).Nodup :=
  List.pairwise_map.mpr (h.apart_bare hb)

/-- An arranged state is grounded at all parent-dependent handles. -/
theorem Arranged.grounded (h : Arranged t) : Grounded ParentDependent t := ⟨h.keys, id, h.child⟩

/-- Below an element with a body there are fewer levels left. This is the measure for which the fuel of a comparison
has to last. -/
theorem Arranged.levels_lt (h : Arranged t) (hx : x.ParentDependent) (hb : Table.get? t x = some b)
    (hc : c.bare.parent? = some x.bare) : levels t c < levels t x := Recorder.levels_lt h.keys hx hb hc

/-! ## The whole tree -/

/-- **The whole tree is looked at** if there is fuel for its levels. By induction on the fuel: one level compares
contents and lists of children, and where the lists are the same it goes on to the children, below which there are
fewer levels. -/
theorem treeDiffers_iff (ho : Arranged old) (hn : Arranged new) (hx : x.ParentDependent)
    (hxo : Table.get? old x = some o) (hxn : Table.get? new x = some n) (hfuel : levels old x ≤ fuel) :
    treeDiffers old new fuel o n = true ↔ Differs old new x := by
  induction fuel generalizing x o n with
  | zero => exact absurd (levels_pos ho.keys hx hxo) (by omega)
  | succ fuel ih =>
    rw [differs_iff hxo hxn, ChildrenDiffer, treeDiffers, Bool.or_eq_true, Bool.or_eq_true,
      Bool.not_eq_true', List.any_eq_true, or_assoc]
    refine or_congr_right (or_congr_right (exists_congr fun c => and_congr_right fun hc => ?_))
    obtain ⟨hcd, hcp⟩ := hn.child hx hxn hc
    have hlt := ho.levels_lt hx hxo hcp
    rw [Bool.and_eq_true, Bool.not_eq_true']
    refine and_congr_right fun _ => ?_
    rcases hco : Table.get? old c with _ | o' <;> rcases hcn : Table.get? new c with _ | n'
    · simpa using not_differs_of_none hco hcn
    · simpa using Differs.appeared hco hcn
    · simpa using Differs.vanished hco hcn
    · exact ih hcd hco hcn (by omega)

/-! ## One level -/

/-- Handles whose ancestors matter stand in the same order as parts of one list. They match only if they are the
same when bare, so an order-keeping match is a common part of the lists of bare handles. -/
theorem sublist_of_inOrder {as bs : List Handle} (ha : ∀ k ∈ as, k.ParentDependent)
    (hb : ∀ k ∈ bs, k.ParentDependent) (h : Subsequence.InOrder Handle.same as bs) :
    (bs.map Handle.bare).Sublist (as.map Handle.bare) := by
  induction h with
  | nil => exact List.nil_sublist _
  | cons hab _ ih =>
    have heq := (same_iff_bare (ha _ (List.mem_cons_self ..)) (hb _ (List.mem_cons_self ..))).mp hab
    rw [List.map_cons, List.map_cons, heq]
    apply List.Sublist.cons_cons
    exact ih (fun k hk => ha k (List.mem_cons_of_mem _ hk)) fun k hk => hb k (List.mem_cons_of_mem _ hk)
  | cons_right _ ih => exact (ih (fun k hk => ha k (List.mem_cons_of_mem _ hk)) hb).cons _

/-- The reports about children that went, came or changed places. -/
def childReports (o n : Body) : List Report :=
  (o.children.filter fun c => !HandleSet.contains (HandleSet.ofList n.children) c).map (.removed ·) ++
    ((n.children.filter fun c => !HandleSet.contains (HandleSet.ofList o.children) c).map (.added ·) ++
      (reordered o n).map (.changed · Flags.reorder))

/-- One level reports the content first, if it differs, and then the children. -/
theorem levelReports_eq (e : Handle) (o n : Body) :
    levelReports e o n =
      (if n.contentDiffers o then [.changed e (n.contentChange o)] else []) ++ childReports o n := by
  rw [levelReports, childReports, List.append_assoc, List.append_assoc]

/-- Children that are the same give nothing to report, whatever the bodies say otherwise. -/
theorem childReports_of_eq (h : n.children.map Handle.bare = o.children.map Handle.bare) :
    childReports o n = [] := by
  have hreports : childReports o n =
      levelReports default { children := o.children } { children := n.children } := by
    rw [levelReports_eq]
    rfl
  rw [hreports]
  exact levelReports_of_eq h rfl

/-- **Nothing to report** about children: their lists are the same. If no child went and none came, the lists have
the same children; and if none changed places either, what is left in place is the whole of both lists, in the same
order. -/
theorem childReports_eq_nil_iff (ho : Arranged old) (hn : Arranged new) (hx : x.ParentDependent)
    (hxo : Table.get? old x = some o) (hxn : Table.get? new x = some n) :
    childReports o n = [] ↔ sameChildren o.children n.children = true := by
  have hod : ∀ k ∈ o.children, k.ParentDependent := fun k hk => (ho.child hx hxo hk).1
  have hnd : ∀ k ∈ n.children, k.ParentDependent := fun k hk => (hn.child hx hxn hk).1
  rw [sameChildren_iff hod hnd]
  refine ⟨fun h => ?_, childReports_of_eq⟩
  simp only [childReports, List.append_eq_nil_iff, List.map_eq_nil_iff, List.filter_eq_nil_iff,
    Bool.not_eq_true', Bool.not_eq_false] at h
  obtain ⟨hremoved, hadded, hreordered⟩ := h
  have hall : o.children.filter (HandleSet.contains (HandleSet.ofList n.children)) = o.children :=
    List.filter_eq_self.mpr hremoved
  have hcommon : commonChildren o n = n.children := List.filter_eq_self.mpr hadded
  -- all children were left in place, so the later list is part of the earlier one
  have hplaces : ∀ i < n.children.length, i ∈ Subsequence.stable Handle.same o.children n.children := by
    intro i hi
    rw [reordered, hall, hcommon, List.map_eq_nil_iff, List.filter_eq_nil_iff] at hreordered
    simpa using hreordered (n.children[i], i) (List.mk_mem_zipIdx_iff_getElem?.mpr (by simp [hi]))
  have hinOrder := (Subsequence.longest_stable Handle.same o.children n.children).inOrder
  rw [Subsequence.elementsAt_eq_self hplaces] at hinOrder
  have hsub : (n.children.map Handle.bare).Sublist (o.children.map Handle.bare) :=
    sublist_of_inOrder hod hnd hinOrder
  have hlen : (o.children.map Handle.bare).length ≤ (n.children.map Handle.bare).length := by
    refine ((ho.nodup hxo).subperm fun k hk => ?_).length_le
    obtain ⟨c, hc, rfl⟩ := List.mem_map.mp hk
    exact (contains_ofList_iff hnd (hod c hc)).mp (hremoved c hc)
  exact hsub.eq_of_length_le hlen

end CodeModel.Recorder
