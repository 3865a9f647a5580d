import CodeModel.Proofs.Element.Apart
import CodeModel.Proofs.Recorder.Exact
import CodeModel.Proofs.Recorder.Longest
import Mathlib.Data.List.Pairwise

/-!
# Children that change their places

Of the children that two bodies have in common, a recording flags **as few as possible** as reordered
(`reordering_minimal`).

* The flagged children are those outside a longest common subsequence; the others are the **steady** ones,
  which stand on both sides in the same order (`inOrder_steady`).
* Whatever children are left out to bring the others into order, they are **at least as many**
  (`Unrepeated.length_reordered_le`).
* The flags that are reported are the ones that the finished delta shows (`marked_eq`, `sparing_marked`), except
  for children that cannot be opened and yet have a body on one side only: these come or go, and are told so
  instead (`not_sparing_marked`).
-/

namespace CodeModel.Recorder

open Builder Delta Subsequence

variable {lex : Lexicon} {old new : Bodies} {e c x input : Handle} {o n : Body} {b : Builder}
  {l kept moved : List Handle} {limit depth : Nat} {m : Bool}

/-- No two handles of the list match. Lists of children are like that in every arranged state, and longest common
subsequences of such lists are told by their elements alone. -/
def Unrepeated (l : List Handle) : Prop := l.Pairwise Handle.Apart

instance (l : List Handle) : Decidable (Unrepeated l) := inferInstanceAs (Decidable (l.Pairwise Handle.Apart))

/-- A list whose handles do not match has no handle twice. -/
theorem Unrepeated.nodup (h : Unrepeated l) : l.Nodup := by
  refine h.imp ?_
  rintro a _ ⟨ha, -⟩ rfl
  rw [Handle.same_refl] at ha
  cases ha

theorem Unrepeated.eq_of_same (h : Unrepeated l) {a b : Handle} (ha : a ∈ l) (hb : b ∈ l)
    (hab : a.same b = true) : a = b := by
  refine Classical.byContradiction fun hne => ?_
  have hsymm : Std.Symm Handle.Apart := ⟨fun _ _ h => h.symm⟩
  have hfalse := (h.forall ha hb hne).1
  rw [hab] at hfalse
  cases hfalse

theorem Arranged.unrepeated (h : Arranged new) (hx : x.ParentDependent) (hb : Table.get? new x = some n) :
    Unrepeated n.children := by
  refine (h.apart_bare hb).imp_of_mem fun {c k} hc hk hne => ?_
  have hcd := (h.child hx hb hc).1
  have hkd := (h.child hx hb hk).1
  rw [Handle.Apart, ← Bool.not_eq_true, ← Bool.not_eq_true, Handle.same_iff_bare hcd hkd,
    Handle.same_iff_bare hkd hcd]
  exact ⟨hne, hne.symm⟩

/-- A common child is a later one with a match among the earlier ones. -/
theorem Unrepeated.mem_commonChildren_iff (h : Unrepeated o.children) :
    c ∈ commonChildren o n ↔ c ∈ n.children ∧ ∃ k ∈ o.children, c.same k = true := by
  rw [commonChildren, List.mem_filter, HandleSet.ofList_eq_self h, HandleSet.contains_iff]

/-- No common child is listed twice. -/
theorem Unrepeated.nodup_common (hn : Unrepeated n.children) : (commonChildren o n).Nodup :=
  hn.nodup.sublist List.filter_sublist

/-- No more common children are in a list than it has handles. They are different handles, so they cannot be more
than those of the list. -/
theorem Unrepeated.length_filter_mem_le (hn : Unrepeated n.children) (o : Body) (l : List Handle) :
    ((commonChildren o n).filter fun c => decide (c ∈ l)).length ≤ l.length := by
  apply List.Subperm.length_le
  apply (hn.nodup_common.filter _).subperm
  exact fun c hc => of_decide_eq_true (List.mem_filter.mp hc).2

/-! ## Steady children -/

/-- The children that keep their places: the common children at the positions that the walk picks. -/
def steady (o n : Body) : List Handle :=
  elementsAt (commonChildren o n) 0 (stable Handle.same (commonChildren n o) (commonChildren o n))

/-- The reordered children are the common ones at all other positions. -/
theorem reordered_eq (o n : Body) :
    reordered o n = ((commonChildren o n).zipIdx.filter fun p =>
      !(stable Handle.same (commonChildren n o) (commonChildren o n)).contains p.2).map Prod.fst := rfl

/-- Every common child is either steady or reordered, according to whether the walk has picked its position, and so
the numbers of the two add up. -/
theorem length_steady_add (o n : Body) :
    (steady o n).length + (reordered o n).length = (commonChildren o n).length := by
  rw [reordered_eq, steady, elementsAt, List.length_map, List.length_map,
    ← List.length_eq_length_filter_add, List.length_zipIdx]

/-- The steady children are a longest part of the common children that stands in order on the earlier side as well.
-/
theorem longest_steady (o n : Body) :
    InOrder Handle.same (commonChildren n o) (steady o n) ∧
      ∀ kept, kept.Sublist (commonChildren o n) → InOrder Handle.same (commonChildren n o) kept →
        kept.length ≤ (steady o n).length := by
  have h := longest_stable Handle.same (commonChildren n o) (commonChildren o n)
  rw [steady, length_elementsAt _ h.increasing h.inside]
  exact ⟨h.inOrder, h.longest⟩

/-- **Steady children** stand on both sides in the same order, for they are a common part of the two lists of common
children. -/
theorem inOrder_steady (o n : Body) : InOrder Handle.same o.children (steady o n) :=
  (longest_steady o n).1.of_sublist List.filter_sublist

/-- Common children that stand in the same order stand so among the common ones: the children that are on one side
only are matched by none of them. -/
theorem Unrepeated.inOrder_common (hn : Unrepeated n.children) (hkept : kept.Sublist n.children)
    (h : InOrder Handle.same o.children kept) : InOrder Handle.same (commonChildren n o) kept := by
  obtain ⟨s, hs, hsub⟩ := List.sublistForall₂_iff.mp h
  refine List.sublistForall₂_iff.mpr ⟨s, hs, ?_⟩
  -- what matches a child of the later body is a common child
  have hall : ∀ a ∈ s, HandleSet.contains (HandleSet.ofList n.children) a = true := by
    intro a ha
    obtain ⟨c, hc, hac⟩ := exists_of_forall₂ hs.flip ha
    rw [HandleSet.ofList_eq_self hn, HandleSet.contains_iff]
    exact ⟨c, hkept.subset hc, hac⟩
  have hfilter := hsub.filter (HandleSet.contains (HandleSet.ofList n.children))
  rwa [List.filter_eq_self.mpr hall] at hfilter

/-- Which children are reordered is told by their positions: the child at a position is reordered exactly if the
walk has not picked it. No child is at two positions, so it does not matter which one is asked. -/
theorem Unrepeated.mem_reordered_iff (hn : Unrepeated n.children) {i : Nat}
    (hi : (commonChildren o n)[i]? = some c) :
    c ∈ reordered o n ↔ i ∉ stable Handle.same (commonChildren n o) (commonChildren o n) := by
  rw [reordered_eq, List.mem_map]
  constructor
  · rintro ⟨⟨_, j⟩, hj, rfl⟩
    obtain ⟨hplace, hout⟩ := List.mem_filter.mp hj
    -- a child stands in one place only
    have hij : i = j := by
      refine (List.getElem?_inj (List.getElem?_eq_some_iff.mp hi).1 hn.nodup_common).mp ?_
      rw [hi, List.mem_zipIdx_iff_getElem?.mp hplace]
    simpa [hij] using hout
  · intro hout
    exact ⟨(c, i), List.mem_filter.mpr ⟨List.mem_zipIdx_iff_getElem?.mpr hi, by simpa using hout⟩, rfl⟩

/-- Reordered children are listed in the order of the later body, each of them once. -/
theorem Unrepeated.filter_reordered (hn : Unrepeated n.children) :
    (commonChildren o n).filter (fun c => decide (c ∈ reordered o n)) = reordered o n := by
  have hsub := (reordered_sublist o n).filter fun c => decide (c ∈ reordered o n)
  rw [List.filter_eq_self.mpr fun c hc => decide_eq_true hc] at hsub
  exact (hsub.eq_of_length_le (hn.length_filter_mem_le o _)).symm

/-- Children that are not flagged are the steady ones, in the order of the later body. -/
theorem Unrepeated.filter_not_reordered (hn : Unrepeated n.children) :
    (commonChildren o n).filter (fun c => decide (c ∉ reordered o n)) = steady o n := by
  have hplace : ∀ p ∈ (commonChildren o n).zipIdx, decide (p.1 ∉ reordered o n) =
      (stable Handle.same (commonChildren n o) (commonChildren o n)).contains p.2 := by
    intro p hp
    rw [Bool.eq_iff_iff, decide_eq_true_iff, hn.mem_reordered_iff (List.mem_zipIdx_iff_getElem?.mp hp)]
    simp
  conv_lhs => rw [← List.zipIdx_map_fst 0 (commonChildren o n), List.filter_map]
  rw [steady, elementsAt, ← List.filter_congr hplace]
  rfl

/-- **Leaving out fewer does not do**: whatever is left out to bring the other common children into order, it is as
much as is flagged. The others stand in order on both sides, so they are no more than the steady ones. -/
theorem Unrepeated.length_reordered_le (hn : Unrepeated n.children)
    (h : InOrder Handle.same o.children ((commonChildren o n).filter fun c => decide (c ∉ moved))) :
    (reordered o n).length ≤ moved.length := by
  have hkept := (longest_steady o n).2 _ List.filter_sublist
    (hn.inOrder_common (List.filter_sublist.trans List.filter_sublist) h)
  have hleft := hn.length_filter_mem_le o moved
  have hall := List.length_eq_length_filter_add (l := commonChildren o n) fun c => decide (c ∈ moved)
  have hsteady := length_steady_add o n
  simp only [decide_not] at hkept
  omega

/-- **Nothing is flagged** exactly if the common children stand in the same order: then all of them are a common
subsequence, and no longer one is left out. -/
theorem Unrepeated.reordered_eq_nil_iff (hn : Unrepeated n.children) :
    reordered o n = [] ↔ InOrder Handle.same o.children (commonChildren o n) := by
  constructor
  · intro h
    have hsteady := hn.filter_not_reordered (o := o)
    rw [h, List.filter_eq_self.mpr (by simp)] at hsteady
    exact hsteady ▸ inOrder_steady o n
  · intro h
    have hle : (reordered o n).length ≤ ([] : List Handle).length := by
      apply hn.length_reordered_le
      rwa [List.filter_eq_self.mpr (by simp)]
    exact List.length_eq_zero_iff.mp (Nat.le_zero.mp hle)

/-- Handles of one lexicon: if nothing is flagged, the common children of both sides match **one by one**. Two lists
of the same children in the same order are the same list, as no child comes twice. -/
theorem Unrepeated.reordered_eq_nil_iff_forall₂ (ho : Unrepeated o.children) (hn : Unrepeated n.children)
    (hlex : ∀ c ∈ o.children ++ n.children, c.Follows lex) :
    reordered o n = [] ↔
      List.Forall₂ (fun a b => a.same b = true) (commonChildren n o) (commonChildren o n) := by
  rw [hn.reordered_eq_nil_iff]
  constructor
  · intro h
    obtain ⟨s, hs, hsub⟩ := List.sublistForall₂_iff.mp (hn.inOrder_common List.filter_sublist h)
    -- each common child of the earlier body has a match in the later one, whose partner it must be
    have hall : ∀ c ∈ commonChildren n o, c ∈ s := by
      intro c hc
      obtain ⟨hco, d, hd, hcd⟩ := hn.mem_commonChildren_iff.mp hc
      have hcf : c.Follows lex := hlex c (List.mem_append_left _ hco)
      have hdf : d.Follows lex := hlex d (List.mem_append_right _ hd)
      have hdcommon := ho.mem_commonChildren_iff.mpr ⟨hd, c, hco, Handle.same_symm hcf hdf hcd⟩
      obtain ⟨a, ha, had⟩ := exists_of_forall₂ hs hdcommon
      have hao : a ∈ o.children := mem_commonChildren (hsub.subset ha)
      have haf : a.Follows lex := hlex a (List.mem_append_left _ hao)
      have hac : a.same c = true := Handle.same_trans haf hdf hcf had (Handle.same_symm hcf hdf hcd)
      exact ho.eq_of_same hao hco hac ▸ ha
    have hwhole : s = commonChildren n o := hsub.eq_of_length_le (ho.nodup_common.subperm hall).length_le
    exact hwhole ▸ hs.flip
  · intro h
    exact List.sublistForall₂_iff.mpr ⟨commonChildren n o, h.flip, List.filter_sublist⟩

/-! ## Few flags -/

/-- **The children that moved are told sparingly**: they are as few as can be. The first two parts say that flagging
them is enough to explain the new order, the third that nothing smaller would be. -/
structure Sparing (o n : Body) (moved : List Handle) : Prop where
  /-- each of them is a child that both bodies have, and is told once -/
  common : moved.Sublist (commonChildren o n)
  /-- the other common children keep their relative order -/
  kept : InOrder Handle.same o.children ((commonChildren o n).filter fun c => decide (c ∉ moved))
  /-- no choice that leaves the others in order is smaller -/
  least : ∀ others : List Handle,
    InOrder Handle.same o.children ((commonChildren o n).filter fun c => decide (c ∉ others)) →
      moved.length ≤ others.length
  /-- there are none exactly if the common children of the later body stand in the earlier one as they do -/
  none_iff : moved = [] ↔ InOrder Handle.same o.children (commonChildren o n)
  /-- that is, if the common children of both sides match one by one -/
  sides_iff : ∀ {lex : Lexicon}, (∀ c ∈ o.children ++ n.children, c.Follows lex) →
    (moved = [] ↔ List.Forall₂ (fun a b => a.same b = true) (commonChildren n o) (commonChildren o n))

/-- What is outside a longest common subsequence is as few as can be. -/
theorem Unrepeated.sparing_reordered (ho : Unrepeated o.children) (hn : Unrepeated n.children) :
    Sparing o n (reordered o n) where
  common := reordered_sublist o n
  kept := hn.filter_not_reordered.symm ▸ inOrder_steady o n
  least _ h := hn.length_reordered_le h
  none_iff := hn.reordered_eq_nil_iff
  sides_iff hlex := ho.reordered_eq_nil_iff_forall₂ hn hlex

/-! ## Flags in reports -/

/-- The elements that are reported as reordered. -/
def flagged (reports : List Report) : List Handle :=
  reports.filterMap fun
    | .changed c flags => if flags.contains Flags.reorder then some c else none
    | _ => none

/-- The flags of the content say nothing about places, so that they do not mix with those of the order. -/
theorem contentChange_not_reorder (o n : Body) : (n.contentChange o).contains Flags.reorder = false := by
  rw [Body.contentChange]
  split <;> decide

/-- One level reports the reordered children, each of them once. Its other reports carry other flags or none. -/
theorem flagged_levelReports (e : Handle) (o n : Body) : flagged (levelReports e o n) = reordered o n := by
  have hown : flagged (if n.contentDiffers o then [.changed e (n.contentChange o)] else []) = [] := by
    split
    · simp [flagged, contentChange_not_reorder]
    · rfl
  have hmoved : Flags.reorder.contains Flags.reorder = true := by decide
  simp only [levelReports, flagged, List.filterMap_append] at hown ⊢
  rw [hown]
  simp [List.filterMap_map, hmoved]

/-- **Reordering is reported minimally.** What the walk through the table picks is a longest common subsequence
of any two lists, so of two lists of different children, the reports of a level flag as few as possible as
reordered: whoever flags fewer leaves more of them in order than the two lists have in common. -/
theorem reordering_minimal :
    (∀ {α : Type} (eq : α → α → Bool) (as bs : List α), Longest eq as bs (stable eq as bs)) ∧
      ∀ (e : Handle) {o n : Body}, Unrepeated o.children → Unrepeated n.children →
        Sparing o n (flagged (levelReports e o n)) := by
  refine ⟨fun eq as bs => longest_stable eq as bs, fun e {o n} ho hn => ?_⟩
  rw [flagged_levelReports]
  exact ho.sparing_reordered hn

/-- The last of three children became the first one, and it alone is flagged. -/
theorem reordering_minimal_rotated :
    let root := Handle.top { name := "Node" } (some "r")
    let a := root.sub { name := "Node" } "a"
    let b := root.sub { name := "Node" } "b"
    let c := root.sub { name := "Node" } "c"
    let o : Body := { children := [a, b, c] }
    let n : Body := { children := [c, a, b] }
    flagged (levelReports root o n) = [c] ∧ Sparing o n (flagged (levelReports root o n)) := by
  intro root a b c o n
  obtain ⟨-, hlevel⟩ := reordering_minimal
  exact ⟨by decide +kernel, hlevel root (by decide) (by decide)⟩

/-! ## Flags in deltas -/

/-- The common children that a delta flags as reordered. -/
def marked (d : Delta) (o n : Body) : List Handle :=
  (commonChildren o n).filter fun c => (nodeAt d c).flags.contains Flags.reorder

/-- The note of a child that changed its place has the flag, and the other has not. -/
theorem shifted_contains_reorder (m : Bool) :
    ((shifted m).getD (.unchanged, ∅)).2.contains Flags.reorder = m := by
  cases m <;> decide

/-- A change of place is told of an element that neither came nor went: its own comparison joins further flags to
the note, and takes none away. -/
theorem Law.contains_reorder (h : Law old new limit depth m x b)
    (hb : Regular simple Unattached b.bare.delta) (hx : x.ParentDependent)
    (hboth : Table.contains old x = Table.contains new x) :
    (nodeAt b.delta x).flags.contains Flags.reorder = m := by
  rw [Table.contains, Table.contains] at hboth
  rcases hxo : Table.get? old x with _ | o <;> rcases hxn : Table.get? new x with _ | n
  · rw [flags_nodeAt hb hx, h.agreeing (not_differs_of_none hxo hxn), shifted_contains_reorder]
  · simp [hxo, hxn] at hboth
  · simp [hxo, hxn] at hboth
  · obtain ⟨content, kids, fine, hflags, -⟩ := h.nodeAt_eq hb hx hxo hxn
    rw [hflags, (toldFlags_spec m content kids fine).1]

/-- **The delta flags what is reported**, if no child that cannot be opened has a body on one side only. The law of
the element settles the children that are not opened, and the law of each other common child settles that one. -/
theorem marked_eq (hn : Arranged new) (hx : x.ParentDependent) (hxo : Table.get? old x = some o)
    (hxn : Table.get? new x = some n) (hb : Regular simple Unattached b.bare.delta)
    (hlimit : depth < limit) (hlaw : Law old new limit depth m x b)
    (hkids : ∀ k ∈ commonChildren o n, isUnopened old new k = false →
      Law old new limit (depth + 1) (decide (k ∈ reordered o n)) k b)
    (hboth : ∀ c ∈ commonChildren o n, c.openable = true ∨ Table.contains old c = Table.contains new c) :
    marked b.delta o n = reordered o n := by
  rw [← (hn.unrepeated hx hxn).filter_reordered, marked]
  refine List.filter_congr fun c hc => ?_
  have hcd : c.ParentDependent := (hn.child hx hxn (mem_commonChildren hc)).1
  cases hopened : isUnopened old new c with
  | true =>
    rw [flags_nodeAt hb hcd, hlaw.unopened hxo hxn hlimit hc hopened, shifted_contains_reorder]
  | false =>
    refine (hkids c hc hopened).contains_reorder hb hcd ?_
    -- a child that can be opened and has been opened has a body on both sides
    rcases hboth c hc with hopenable | hboth
    · obtain ⟨ho, hn⟩ : Table.contains old c = true ∧ Table.contains new c = true := by
        simpa [isUnopened, hopenable] using hopened
      rw [ho, hn]
    · exact hboth

/-- **The delta of a recording flags sparingly, too**, at every element above the depth limit that is reached from
the input, as long as no common child comes or goes, that is, has a body on one side only and cannot be opened.
For what was reported about a child as its parent was compared stays in its node, and the reports about the child
itself leave it alone. -/
theorem sparing_marked (ho : Arranged old) (hn : Arranged new) (hx : input.ParentDependent) (limit : Nat) :
    ∃ r b, start {} old input none limit = .ok r ∧ r.finish new = (.ok b, {}) ∧
      ∀ {depth x m o n}, Trail old new depth input false x m → depth < limit →
        Table.get? old x = some o → Table.get? new x = some n →
        (∀ c ∈ commonChildren o n, c.openable = true ∨ Table.contains old c = Table.contains new c) →
        Sparing o n (marked b.delta o n) := by
  obtain ⟨r, b, hstart, hfinish, hregular, -, hlaw⟩ := recording_law ho hn hx limit
  refine ⟨r, b, hstart, hfinish, fun htrail hlimit hxo hxn hboth => ?_⟩
  have hxd := (htrail.under hn hx).1
  rw [marked_eq hn hxd hxo hxn hregular hlimit (hlaw htrail (Nat.le_of_lt hlimit))
    (fun k hk hopened => hlaw (htrail.snoc hxo hxn hk hopened) hlimit) hboth]
  exact (ho.unrepeated hxd hxo).sparing_reordered (hn.unrepeated hxd hxn)

/-- **A child that goes** is told as gone and no longer as reordered: two children changed places and the one that
is flagged has lost its body. The delta flags none, although they do not stand in the same order. -/
theorem not_sparing_marked :
    let root := Handle.top { name := "Node" } (some "r")
    let a := root.sub { name := "Node" } "a"
    let b := root.sub { name := "Node" } "b"
    let o : Body := { children := [a, b] }
    let n : Body := { children := [b, a] }
    let old : Bodies := [(root, o), (a, {}), (b, {})]
    let new : Bodies := [(root, n), (b, {})]
    Arranged old ∧ Arranged new ∧ flagged (levelReports root o n) = [a] ∧
      (∃ r, start {} old root none 1 = .ok r ∧
        (r.finish new).1.toOption.map (fun built => marked built.delta o n) = some []) ∧
      ¬ Sparing o n [] := by
  intro root a b o n old new
  have ho : Arranged old := ⟨by decide, by decide, by decide⟩
  have hn : Arranged new := ⟨by decide, by decide, by decide⟩
  refine ⟨ho, hn, by decide +kernel, ⟨_, rfl, by decide +kernel⟩, fun hsparing => ?_⟩
  have hnew : Unrepeated n.children := by decide
  have hnone : reordered o n = [] := hnew.reordered_eq_nil_iff.mpr (hsparing.none_iff.mp rfl)
  exact absurd hnone (by decide +kernel)

end CodeModel.Recorder
