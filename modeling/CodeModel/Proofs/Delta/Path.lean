import CodeModel.Delta.Basic
import CodeModel.Proofs.Element.Lexicon

/-!
# Paths through the element tree

A delta finds its way to an element by the handles between its root and the element. For handles of
one lexicon, `pathBelow?` gives **the** path that leads there (`pathBelow?_eq_some_iff`), so what
stands in a tree can be told by paths.

* A path that is cut short ends at an **ancestor** (`Leads.mem_ancestors`), and every ancestor below
  the start is met on the way (`exists_leads_of_mem_ancestors`).
* Two elements **beside** each other, neither of them above the other one, have paths that diverge
  (`diverge_of_isBeside`).
-/

namespace CodeModel

namespace Handle

/-- Going down from `a` through the listed handles, each of them a child of the one before, one comes to `e`. A tree
of changes is searched along such paths, so what stands where in it is said by paths. -/
inductive Leads : Handle → List Handle → Handle → Prop where
  /-- one is there -/
  | here (a : Handle) : Leads a [] a
  /-- one step down, and on -/
  | down {a b e : Handle} {path : List Handle} (step : b.parent? = some a) (rest : Leads b path e) :
      Leads a (b :: path) e

namespace Leads

variable {lex : Lexicon} {a b e m p x : Handle} {path q r : List Handle}

/-- A path leads to one element only: it names all levels from its start on, and the last of them is the end. -/
theorem unique (h : Leads a path e) (k : Leads a path x) : e = x := by
  induction h with
  | here a =>
    cases k
    rfl
  | down _ _ ih =>
    cases k with
    | down _ k => exact ih k

theorem eq_of_nil (h : Leads a [] e) : e = a := by
  cases h
  rfl

theorem of_cons (h : Leads a (b :: path) e) : b.parent? = some a ∧ Leads b path e := by
  cases h with
  | down step rest => exact ⟨step, rest⟩

theorem append (h : Leads a q m) (k : Leads m r e) : Leads a (q ++ r) e := by
  induction h with
  | here a => exact k
  | down step _ ih => exact .down step (ih k)

theorem concat (h : Leads a path p) (he : e.parent? = some p) : Leads a (path ++ [e]) e :=
  h.append (.down he (.here e))

theorem split (h : Leads a (q ++ r) e) : ∃ m, Leads a q m ∧ Leads m r e := by
  induction q generalizing a with
  | nil => exact ⟨a, .here a, h⟩
  | cons b q ih =>
    cases h with
    | down step h =>
      obtain ⟨m, hq, hr⟩ := ih h
      exact ⟨m, .down step hq, hr⟩

/-- A path has as many steps as there are levels between its ends, so no path leads from an element back to itself.
-/
theorem depth_eq (h : Leads a path e) : e.depth = a.depth + path.length := by
  induction h with
  | here a => rfl
  | @down a b e path step _ ih =>
    cases b with
    | root n => cases step
    | child c n =>
      obtain rfl := Option.some.inj step
      simp only [depth] at ih
      simp only [List.length_cons]
      omega

/-- A lexicon that the end follows is followed all along, since the levels of a handle include those of its
ancestors. -/
theorem follows (h : Leads a path e) (he : e.Follows lex) : a.Follows lex := by
  induction h with
  | here a => exact he
  | down step _ ih => exact (ih he).parent step

/-- Where the way down ends, it ends with a step from the parent. -/
theorem eq_concat (h : Leads a path e) (hne : path ≠ []) :
    ∃ p init, path = init ++ [e] ∧ e.parent? = some p ∧ Leads a init p := by
  induction h with
  | here a => exact absurd rfl hne
  | @down a b e path step h ih =>
    by_cases hp : path = []
    · subst hp
      cases h
      exact ⟨a, [], rfl, step, .here a⟩
    · obtain ⟨p, init, rfl, he, hinit⟩ := ih hp
      exact ⟨p, b :: init, rfl, he, .down step hinit⟩

/-- **Ancestors** are where paths come from: a path of at least one step starts at an ancestor of its end. -/
theorem mem_ancestors (h : Leads a path e) (hne : path ≠ []) : a ∈ e.ancestors := by
  induction h with
  | here a => exact absurd rfl hne
  | @down a b e path step h ih =>
    have hab : a ∈ b.ancestors := by
      cases b with
      | root n => cases step
      | child c n =>
        obtain rfl := Option.some.inj step
        exact List.mem_cons_self ..
    by_cases hp : path = []
    · subst hp
      cases h
      exact hab
    · have hbe := ih hp
      clear ih h
      induction e with
      | root n => cases hbe
      | child c n ihe =>
        rcases List.mem_cons.mp hbe with rfl | hbe
        · exact List.mem_cons_of_mem _ hab
        · exact List.mem_cons_of_mem _ (ihe hbe)

end Leads

variable {lex : Lexicon} {a b e root x : Handle} {path : List Handle}

theorem exists_leads_of_mem_ancestors (h : a ∈ e.ancestors) : ∃ path, path ≠ [] ∧ Leads a path e := by
  induction e with
  | root n => cases h
  | child p n ih =>
    rcases List.mem_cons.mp h with rfl | h
    · exact ⟨[.child a n], by simp, .down rfl (.here _)⟩
    · obtain ⟨path, -, hpath⟩ := ih h
      exact ⟨path ++ [.child p n], by simp, hpath.concat rfl⟩

/-- The element is strictly `root`, or strictly below it. -/
def isWithin (e root : Handle) : Bool := e.sameChain root || root.isAncestorOf e

/-- The elements are different and neither is above the other, strictly compared. -/
def isBeside (e x : Handle) : Bool := !e.sameChain x && !e.isAncestorOf x && !x.isAncestorOf e

/-- An ancestor under one lexicon is a handle of the chain itself. The comparison is the relaxed one, but under a
lexicon handles of one depth that match are the same. -/
theorem isAncestorOf_iff (ha : a.Follows lex) (he : e.Follows lex) :
    a.isAncestorOf e = true ↔ a ∈ e.ancestors := by
  rw [isAncestorOf, List.any_eq_true]
  constructor
  · rintro ⟨x, hx, hxa⟩
    rwa [← eq_of_sameChain (he.ancestor hx) ha hxa]
  · intro h
    exact ⟨a, h, sameChain_refl a⟩

/-- Elements beside each other are different, and neither is above the other. -/
theorem isBeside_iff (he : e.Follows lex) (hx : x.Follows lex) :
    e.isBeside x = true ↔ e ≠ x ∧ e ∉ x.ancestors ∧ x ∉ e.ancestors := by
  simp only [isBeside, Bool.and_eq_true, Bool.not_eq_true', ← Bool.not_eq_true, sameChain_iff he hx,
    isAncestorOf_iff he hx, isAncestorOf_iff hx he, and_assoc]

end Handle

namespace Delta

open Handle

variable {lex : Lexicon} {e root x : Handle} {path other : List Handle}

/-- **The path** below the root is the one that leads to the element. The library finds it by going up from the
element until it meets the root, comparing strictly, which within a lexicon is equality. -/
theorem pathBelow?_eq_some_iff (hr : root.Follows lex) (he : e.Follows lex) :
    pathBelow? root e = some path ↔ Leads root path e := by
  induction e generalizing path with
  | root n =>
    rw [pathBelow?]
    constructor
    · intro h
      split at h
      · rename_i heq
        obtain rfl := Option.some.inj h
        obtain rfl := eq_of_sameChain he hr heq
        exact .here _
      · cases h
    · -- a top element is reached from itself only
      intro h
      cases h with
      | here => simp
      | down step h =>
        obtain ⟨p, init, -, hp, -⟩ := (Leads.down step h).eq_concat (by simp)
        cases hp
  | child p n ih =>
    rw [pathBelow?]
    by_cases heq : (Handle.child p n).sameChain root = true
    · rw [if_pos heq, Option.some.injEq]
      obtain rfl := eq_of_sameChain he hr heq
      constructor
      · rintro rfl
        exact .here _
      · intro h
        have := h.depth_eq
        exact (List.length_eq_zero_iff.mp (by omega)).symm
    · rw [if_neg heq, Option.map_eq_some_iff]
      constructor
      · rintro ⟨init, hinit, rfl⟩
        exact ((ih he.1).mp hinit).concat rfl
      · intro h
        have hne : path ≠ [] := by
          rintro rfl
          cases h
          exact heq (sameChain_refl _)
        obtain ⟨q, init, rfl, hq, hinit⟩ := h.eq_concat hne
        obtain rfl := Option.some.inj hq
        exact ⟨init, (ih he.1).mpr hinit, rfl⟩

/-- There is only **one path** from one element to another, since each element has one parent. -/
theorem path_unique (he : e.Follows lex) (h : Leads root path e) (k : Leads root other e) : path = other :=
  Option.some.inj (((pathBelow?_eq_some_iff (h.follows he) he).mpr h).symm.trans
    ((pathBelow?_eq_some_iff (h.follows he) he).mpr k))

/-- There is a path exactly to the elements **within** the tree of the root: to the root itself and to what has it
among its ancestors. -/
theorem isWithin_iff (hr : root.Follows lex) (he : e.Follows lex) :
    e.isWithin root = true ↔ ∃ path, Leads root path e := by
  rw [isWithin, Bool.or_eq_true, sameChain_iff he hr, isAncestorOf_iff hr he]
  constructor
  · rintro (rfl | ha)
    · exact ⟨[], .here _⟩
    · obtain ⟨path, -, hpath⟩ := exists_leads_of_mem_ancestors ha
      exact ⟨path, hpath⟩
  · rintro ⟨path, hpath⟩
    by_cases hp : path = []
    · subst hp
      exact .inl hpath.eq_of_nil
    · exact .inr (hpath.mem_ancestors hp)

/-- There is no path exactly to the elements outside the tree. So a look-up that finds no path and a report that is
refused are about the same elements. -/
theorem pathBelow?_eq_none_iff (hr : root.Follows lex) (he : e.Follows lex) :
    pathBelow? root e = none ↔ e.isWithin root = false := by
  rw [← Bool.not_eq_true, isWithin_iff hr he, Option.eq_none_iff_forall_ne_some]
  simp only [ne_eq, pathBelow?_eq_some_iff hr he, not_exists]

/-- The path of an element that is neither another one nor above it is no beginning of its path. -/
theorem not_prefix_of_leads (hx : Leads root other x) (he : Leads root path e) (hne : x ≠ e)
    (hna : x ∉ e.ancestors) : ¬ other <+: path := by
  rintro ⟨rest, rfl⟩
  obtain ⟨m, hm, hrest⟩ := he.split
  obtain rfl := hm.unique hx
  by_cases hr : rest = []
  · subst hr
    cases hrest
    exact hne rfl
  · exact hna (hrest.mem_ancestors hr)

/-- Neither path is a beginning of the other one: they share some steps and then part. -/
def Diverge (path other : List Handle) : Prop := ¬ path <+: other ∧ ¬ other <+: path

theorem Diverge.symm (h : Diverge path other) : Diverge other path := ⟨h.2, h.1⟩

/-- Paths that diverge have a first step: neither of them leads to where the other one starts. -/
theorem Diverge.exists_cons (h : Diverge path other) :
    (∃ a as, path = a :: as) ∧ ∃ b bs, other = b :: bs :=
  ⟨List.exists_cons_of_ne_nil fun hnil => h.1 (hnil ▸ List.nil_prefix),
    List.exists_cons_of_ne_nil fun hnil => h.2 (hnil ▸ List.nil_prefix)⟩

/-- Where the first steps are the same, paths diverge further on. -/
theorem Diverge.of_cons (h : Diverge (e :: path) (e :: other)) : Diverge path other := by
  rw [Diverge, List.cons_prefix_cons, List.cons_prefix_cons, not_and, not_and] at h
  exact ⟨h.1 rfl, h.2 rfl⟩

/-- The paths of elements beside each other diverge. If one of them went along the other its element would be above
or below, and not beside. -/
theorem diverge_of_isBeside (he : e.Follows lex) (hx : x.Follows lex) (h : e.isBeside x = true)
    (hpath : Leads root path e) (hother : Leads root other x) : Diverge path other := by
  obtain ⟨hne, hex, hxe⟩ := (isBeside_iff he hx).mp h
  exact ⟨not_prefix_of_leads hpath hother hne hex, not_prefix_of_leads hother hpath (Ne.symm hne) hxe⟩

end Delta

end CodeModel
