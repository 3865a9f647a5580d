/-!
# Longest common subsequences

Which elements of a list keep their order when another list is turned into it.

* `nextRow` and `rows` fill the **table** of the lengths of longest common subsequences of all suffixes,
  from the end.
* `stable` walks the table from the front: equal heads are taken, else the head of the first list is
  dropped if that loses nothing against dropping the head of the second one.
-/

namespace CodeModel.Subsequence

variable {α : Type} (eq : α → α → Bool)

/-- The length of a longest common subsequence, by comparing heads. -/
def length : List α → List α → Nat
  | [], _ => 0
  | _ :: _, [] => 0
  | a :: as, b :: bs =>
    if eq a b then length as bs + 1 else max (length as (b :: bs)) (length (a :: as) bs)
termination_by as bs => as.length + bs.length

/-- The row of `a :: as` from the row of `as`: the entry at a column belongs to the suffix of the
second list that starts there. -/
def nextRow (a : α) : List α → List Nat → List Nat
  | [], _ => [0]
  | b :: bs, below =>
    let right := nextRow a bs below.tail
    (if eq a b then below.tail.headD 0 + 1 else max (below.headD 0) (right.headD 0)) :: right

/-- The rows of all suffixes of the first list, the longest suffix first. -/
def rows : List α → List α → List (List Nat)
  | [], bs => [List.replicate (bs.length + 1) 0]
  | a :: as, bs =>
    let below := rows as bs
    nextRow eq a bs (below.headD []) :: below

/-- Walks the rows, which start at the present column `j`, and lists the columns taken. -/
def walk : List α → List α → List (List Nat) → Nat → List Nat
  | [], _, _, _ => []
  | _ :: _, [], _, _ => []
  | a :: as, b :: bs, table, j =>
    if eq a b then j :: walk as bs (table.tail.map List.tail) (j + 1)
    else if (table.headD []).tail.headD 0 ≤ (table.tail.headD []).headD 0 then
      walk as (b :: bs) table.tail j
    else walk (a :: as) bs (table.map List.tail) (j + 1)
termination_by as bs => as.length + bs.length

/-- The positions in `new` of a longest common subsequence of `old` and `new`, in increasing order. -/
def stable (old new : List α) : List Nat := walk eq old new (rows eq old new) 0

/-! ## Laws -/

@[simp] theorem length_nil_right (as : List α) : length eq as [] = 0 := by
  cases as <;> simp [length]

theorem nextRow_eq (a : α) (as bs : List α) :
    ∀ (below : List Nat), below = (List.range (bs.length + 1)).map (fun j => length eq as (bs.drop j)) →
      nextRow eq a bs below =
        (List.range (bs.length + 1)).map fun j => length eq (a :: as) (bs.drop j) := by
  induction bs with
  | nil => intro below _; simp [nextRow]
  | cons b bs ih =>
    intro below h
    have htail : below.tail = (List.range (bs.length + 1)).map (fun j => length eq as (bs.drop j)) := by
      rw [h, List.length_cons, List.range_succ_eq_map]
      simp [Function.comp_def]
    have hhead : below.headD 0 = length eq as (b :: bs) := by
      rw [h, List.range_succ_eq_map]; simp
    have hright := ih below.tail htail
    rw [nextRow, hright, hhead, htail]
    conv => rhs; rw [List.length_cons, List.range_succ_eq_map]
    have hz : ((List.range (bs.length + 1)).map fun j => length eq as (bs.drop j)).headD 0 =
        length eq as bs := by
      rw [List.range_succ_eq_map]; simp
    have hy : ((List.range (bs.length + 1)).map fun j => length eq (a :: as) (bs.drop j)).headD 0 =
        length eq (a :: as) bs := by
      rw [List.range_succ_eq_map]; simp
    rw [hz, hy]
    simp [length, Function.comp_def]

/-- The first row of the table belongs to the whole first list. -/
theorem rows_head (as bs : List α) :
    (rows eq as bs).headD [] = (List.range (bs.length + 1)).map fun j => length eq as (bs.drop j) := by
  induction as with
  | nil =>
    simp only [rows, List.headD_cons]
    apply List.ext_getElem <;> simp [length]
  | cons a as ih =>
    simp only [rows, List.headD_cons]
    exact nextRow_eq eq a as bs _ ih

end CodeModel.Subsequence
