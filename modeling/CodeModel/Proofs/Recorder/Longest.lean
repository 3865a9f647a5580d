import CodeModel.Recorder.Subsequence
import Mathlib.Data.List.Forall2
import Mathlib.Data.List.Sort

/-!
# The longest common subsequence

The walk through the table picks a **longest** common subsequence of two lists (`longest_stable`), whatever
relation the elements are compared by.

* Whatever the table says, what the walk picks stands in both lists in the same order (`inOrder_walk`).
* Taking two heads that match **loses nothing**: whatever the first list is cut down to, one of its elements
  at most can be matched with the head of the other (`InOrder.length_le`).
* The table has the lengths for all pairs of suffixes (`rows_eq`), so the walk knows which of two heads can be
  dropped, and picks as many elements as there can be (`length_walk`).
-/

namespace CodeModel.Subsequence

variable {α : Type} {eq : α → α → Bool} {a b : α} {as bs old new kept : List α} {table : List (List Nat)}
  {places : List Nat} {i j : Nat}

/-! ## What stands in the same order -/

/-- The elements of `kept` match elements of `old` in the **same order**: `old` has a part that matches `kept` one
by one. -/
def InOrder (eq : α → α → Bool) (old kept : List α) : Prop :=
  List.SublistForall₂ (fun b a => eq a b = true) kept old

/-- Without its first element a list is still in order. -/
theorem InOrder.tail (h : InOrder eq old (b :: kept)) : InOrder eq old kept := by
  induction old with
  | nil => cases h
  | cons a old ih =>
    cases h with
    | cons _ hkept => exact .cons_right hkept
    | cons_right hkept => exact .cons_right (ih hkept)

/-- What is matched one by one has a partner each: an element of the first list is matched with some element of the
second. -/
theorem exists_of_forall₂ {R : α → α → Prop} {l m : List α} (h : List.Forall₂ R l m) (ha : a ∈ l) :
    ∃ b ∈ m, R a b := by
  induction h with
  | nil => cases ha
  | cons hab _ ih =>
    rcases List.mem_cons.mp ha with rfl | ha
    · exact ⟨_, List.mem_cons_self .., hab⟩
    · obtain ⟨b, hb, hab⟩ := ih ha
      exact ⟨b, List.mem_cons_of_mem _ hb, hab⟩

/-- What is in order for a part of a list is in order for the list. -/
theorem InOrder.of_sublist (h : InOrder eq as kept) (hsub : as.Sublist old) : InOrder eq old kept := by
  obtain ⟨s, hs, hsas⟩ := List.sublistForall₂_iff.mp h
  exact List.sublistForall₂_iff.mpr ⟨s, hs, hsas.trans hsub⟩

/-- **No common subsequence is longer** than the length that comparing heads gives. The induction follows the two
lists. Where the heads match, a common subsequence that does not use the match can be changed to use it and loses
nothing, as one element at most stands in the way; where they do not, one of the heads is not used. -/
theorem InOrder.length_le (h : InOrder eq old kept) (hkept : kept.Sublist new) :
    kept.length ≤ length eq old new := by
  fun_induction length eq old new generalizing kept with
  | case1 new =>
    cases h
    exact Nat.le_refl _
  | case2 a as =>
    rw [List.sublist_nil.mp hkept]
    exact Nat.le_refl _
  | case3 a as b bs hab ih =>
    -- the heads match, and of the rest of `kept` nothing needs them
    cases kept with
    | nil => exact Nat.zero_le _
    | cons c kept =>
      have hrest : InOrder eq as kept := by
        cases h with
        | cons _ h => exact h
        | cons_right h => exact InOrder.tail h
      exact Nat.succ_le_succ (ih hrest hkept.tail)
  | case4 a as b bs hab ihFirst ihSecond =>
    -- the heads do not match, so `kept` does without one of them
    cases h with
    | nil => exact Nat.zero_le _
    | cons_right h => exact Nat.le_trans (ihFirst h hkept) (Nat.le_max_left ..)
    | cons hac h =>
      cases hkept with
      | cons _ hkept => exact Nat.le_trans (ihSecond (.cons hac h) hkept) (Nat.le_max_right ..)
      | cons_cons => exact absurd hac hab

/-! ## What the walk picks -/

/-- The elements at some positions of a list, in the order of the list; positions count from `start`. -/
def elementsAt (l : List α) (start : Nat) (places : List Nat) : List α :=
  ((l.zipIdx start).filter fun p => places.contains p.2).map Prod.fst

/-- An empty list has no elements at any positions. -/
theorem elementsAt_nil (l : List α) (start : Nat) : elementsAt l start [] = [] := by
  simp [elementsAt]

/-- If the first position is asked for, so is the head. -/
theorem elementsAt_taken (b : α) (bs : List α) (j : Nat) (places : List Nat) :
    elementsAt (b :: bs) j (j :: places) = b :: elementsAt bs (j + 1) places := by
  have hrest : ∀ p ∈ bs.zipIdx (j + 1), (j :: places).contains p.2 = places.contains p.2 := by
    intro p hp
    have := List.le_snd_of_mem_zipIdx hp
    have hne : p.2 ≠ j := by omega
    simp [List.contains_eq_mem, hne]
  rw [elementsAt, List.zipIdx_cons, List.filter_cons_of_pos (by simp), List.map_cons,
    List.filter_congr hrest]
  rfl

/-- If all positions that are asked for come later, the head is not among the elements. -/
theorem elementsAt_dropped (b : α) (bs : List α) (h : ∀ i ∈ places, j < i) :
    elementsAt (b :: bs) j places = elementsAt bs (j + 1) places := by
  have hnot : j ∉ places := fun hj => Nat.lt_irrefl j (h j hj)
  rw [elementsAt, List.zipIdx_cons, List.filter_cons_of_neg (by simpa using hnot)]
  rfl

theorem elementsAt_eq_self {l : List α} (h : ∀ i < l.length, i ∈ places) : elementsAt l 0 places = l := by
  have hall : ∀ p ∈ l.zipIdx 0, places.contains p.2 = true := by
    intro p hp
    simpa using h p.2 (List.snd_lt_of_mem_zipIdx hp)
  rw [elementsAt, List.filter_eq_self.mpr hall, List.zipIdx_map_fst]

/-- There is one element for each position, if positions increase and stay inside the list. -/
theorem length_elementsAt (l : List α) (hplaces : places.Pairwise (· < ·))
    (hinside : ∀ i ∈ places, i < l.length) : (elementsAt l 0 places).length = places.length := by
  have hpositions : ((l.zipIdx 0).filter fun p => places.contains p.2).map Prod.snd = places := by
    refine (List.filter_map (f := Prod.snd) (p := places.contains)).symm.trans ?_
    rw [List.zipIdx_map_snd, ← List.range_eq_range']
    refine (List.pairwise_lt_range.sublist List.filter_sublist).eq_of_mem_iff hplaces fun i => ?_
    simpa using hinside i
  rw [elementsAt, List.length_map, ← List.length_map (f := Prod.snd), hpositions]

/-- The walk goes forward: no position it picks is before the one where it starts. -/
theorem le_of_mem_walk (h : i ∈ walk eq as bs table j) : j ≤ i := by
  fun_induction walk eq as bs table j with
  | case1 | case2 => cases h
  | case3 a as b bs table j hab ih =>
    rcases List.mem_cons.mp h with rfl | h
    · exact Nat.le_refl _
    · exact Nat.le_of_succ_le (ih h)
  | case4 a as b bs table j hab hle ih => exact ih h
  | case5 a as b bs table j hab hle ih => exact Nat.le_of_succ_le (ih (by simpa using h))

theorem lt_of_mem_walk (h : i ∈ walk eq as bs table j) : i < j + bs.length := by
  fun_induction walk eq as bs table j with
  | case1 | case2 => cases h
  | case3 a as b bs table j hab ih =>
    rw [List.length_cons]
    rcases List.mem_cons.mp h with rfl | h
    · omega
    · have := ih h
      omega
  | case4 a as b bs table j hab hle ih => exact ih h
  | case5 a as b bs table j hab hle ih =>
    have := ih (by simpa using h)
    rw [List.length_cons]
    omega

/-- The walk picks each position at most once, in increasing order. It goes through the second list from the front,
and leaves an element behind as soon as it has picked it. -/
theorem walk_increasing (as bs : List α) (table : List (List Nat)) (j : Nat) :
    (walk eq as bs table j).Pairwise (· < ·) := by
  fun_induction walk eq as bs table j with
  | case1 | case2 => exact .nil
  | case3 a as b bs table j hab ih => exact List.pairwise_cons.mpr ⟨fun _ hi => le_of_mem_walk hi, ih⟩
  | case4 a as b bs table j hab hle ih => exact ih
  | case5 a as b bs table j hab hle ih => simpa using ih

/-- **What the walk picks** stands in both lists in the same order, whatever the table says: a position is picked
only where the heads match, and the walk goes forward in both lists. The table decides only which head is dropped
where they do not. -/
theorem inOrder_walk (as bs : List α) (table : List (List Nat)) (j : Nat) :
    InOrder eq as (elementsAt bs j (walk eq as bs table j)) := by
  fun_induction walk eq as bs table j with
  | case1 bs table j =>
    rw [elementsAt_nil]
    exact .nil
  | case2 a as table j => exact .nil
  | case3 a as b bs table j hab ih =>
    rw [elementsAt_taken]
    exact .cons hab ih
  | case4 a as b bs table j hab hle ih => exact .cons_right ih
  | case5 a as b bs table j hab hle ih =>
    rw [elementsAt_dropped b bs fun _ hi => le_of_mem_walk hi]
    simpa using ih

/-! ## The table -/

/-- The lengths for all suffixes of the second list, the longest suffix first. -/
def lengths (eq : α → α → Bool) (as bs : List α) : List Nat :=
  (List.range (bs.length + 1)).map fun j => length eq as (bs.drop j)

/-- The lengths for all suffixes of both lists, the longest suffix first. -/
def lengthTable (eq : α → α → Bool) (as bs : List α) : List (List Nat) := as.tails.map (lengths eq · bs)

/-- The first of the lengths is that for the whole second list. It is the entry that the next row and the walk look
at. -/
theorem lengths_headD (eq : α → α → Bool) (as bs : List α) : (lengths eq as bs).headD 0 = length eq as bs := by
  simp [lengths, List.range_succ_eq_map]

/-- One more element on the right is one more length in front. -/
theorem lengths_cons (eq : α → α → Bool) (as : List α) (b : α) (bs : List α) :
    lengths eq as (b :: bs) = length eq as (b :: bs) :: lengths eq as bs := by
  rw [lengths, List.length_cons, List.range_succ_eq_map]
  simp [lengths, Function.comp_def]

/-- **The rows** are those of the lengths for all pairs of suffixes. They are filled from the end: each entry is
computed from its neighbours to the right and below, which are the lengths of shorter suffixes. -/
theorem rows_eq (eq : α → α → Bool) (as bs : List α) : rows eq as bs = lengthTable eq as bs := by
  induction as with
  | nil =>
    have h := rows_head eq [] bs
    rw [rows, List.headD_cons] at h
    rw [rows, h]
    rfl
  | cons a as ih =>
    have h := rows_head eq (a :: as) bs
    rw [rows, List.headD_cons] at h
    rw [rows, h, ih]
    rfl

/-- One more element on the left is one more row in front. -/
theorem lengthTable_cons_left (eq : α → α → Bool) (a : α) (as bs : List α) :
    lengthTable eq (a :: as) bs = lengths eq (a :: as) bs :: lengthTable eq as bs := by
  simp [lengthTable]

/-- The first row is that of the whole first list. The rows below it are for what is left when its elements are
dropped one by one. -/
theorem lengthTable_headD (eq : α → α → Bool) (as bs : List α) :
    (lengthTable eq as bs).headD [] = lengths eq as bs := by
  cases as <;> simp [lengthTable]

/-- One column further on, the table is that of the second list without its head. -/
theorem lengthTable_tail (eq : α → α → Bool) (as : List α) (b : α) (bs : List α) :
    (lengthTable eq as (b :: bs)).map List.tail = lengthTable eq as bs := by
  simp [lengthTable, lengths_cons, Function.comp_def]

/-- With the right table **the walk picks as much as there can be**. It drops the head whose loss the table says
costs nothing, so the length that is still to be had never falls without a position being picked. -/
theorem length_walk (eq : α → α → Bool) (as bs : List α) (j : Nat) :
    (walk eq as bs (lengthTable eq as bs) j).length = length eq as bs := by
  fun_induction length eq as bs generalizing j with
  | case1 bs => simp [walk]
  | case2 a as => simp [walk]
  | case3 a as b bs hab ih =>
    rw [walk, if_pos hab, List.length_cons, lengthTable_cons_left, List.tail_cons, lengthTable_tail, ih]
  | case4 a as b bs hab ihFirst ihSecond =>
    have hfirst : ((lengthTable eq (a :: as) (b :: bs)).tail.headD []).headD 0 = length eq as (b :: bs) := by
      rw [lengthTable_cons_left, List.tail_cons, lengthTable_headD, lengths_headD]
    have hsecond : ((lengthTable eq (a :: as) (b :: bs)).headD []).tail.headD 0 = length eq (a :: as) bs := by
      rw [lengthTable_headD, lengths_cons, List.tail_cons, lengths_headD]
    rw [walk, if_neg hab, hfirst, hsecond]
    split
    · rename_i hle
      rw [lengthTable_cons_left, List.tail_cons, ihFirst, Nat.max_eq_left hle]
    · rename_i hlt
      rw [lengthTable_tail, ihSecond, Nat.max_eq_right (Nat.le_of_not_le hlt)]

/-! ## The result -/

/-- **A longest common subsequence** of two lists, told by its positions in the second one. All four parts refer to
the lists only, and none to a table or to the way the positions were found. -/
structure Longest (eq : α → α → Bool) (old new : List α) (places : List Nat) : Prop where
  /-- no position comes twice -/
  increasing : places.Pairwise (· < ·)
  /-- they are positions of the second list -/
  inside : ∀ i ∈ places, i < new.length
  /-- what stands there stands in the first list in the same order -/
  inOrder : InOrder eq old (elementsAt new 0 places)
  /-- no common subsequence is longer -/
  longest : ∀ kept, kept.Sublist new → InOrder eq old kept → kept.length ≤ places.length

/-- **The table walk finds a longest common subsequence**, for every relation the elements are compared by. Its
positions increase and stand for elements in order however the table is filled; that none is missing comes from the
table, whose entries are the lengths for all pairs of suffixes. -/
theorem longest_stable (eq : α → α → Bool) (old new : List α) :
    Longest eq old new (stable eq old new) where
  increasing := walk_increasing ..
  inside i hi := by simpa using lt_of_mem_walk hi
  inOrder := inOrder_walk ..
  longest kept hkept h := by
    rw [stable, rows_eq, length_walk]
    exact h.length_le hkept

end CodeModel.Subsequence
