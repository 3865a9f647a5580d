import CodeModel.Proofs.Element.Apart
import CodeModel.Proofs.Foo.Elements

/-!
# Occurrences

A build goes through the declarations of a text once and keeps a tally, from which each of them gets its
occurrence. Here the running tally is tied to what it is meant for: the occurrence of a declaration is one more
than **the number of earlier ones** of its kind and name.

* The tally has a count for every kind and name, and counting one more changes that count and no other
  (`Tally.count_bump`).
* So it stays **in line** with the declarations gone through (`Tally.Counts`), and the elements of a text are
  known in closed form (`getElem?_elements`).
* Therefore elements of one text **stay apart**: an earlier declaration of the same kind and name is among those
  that the later one counts, so the later occurrence is greater (`pairwise_apart_elements`).
-/

namespace CodeModel.Foo

variable {f : Handle} {d e : Declaration} {t : Tally} {earlier ds : List Declaration}

/-! ## Counting -/

namespace Tally

variable {key k : String × String}

/-- Adding one to the entry of a key changes the entry of this key, if there is one, and no other. -/
theorem lookup_increment (t : Tally) (k key : String × String) :
    (t.increment k).lookup key = (t.lookup key).map fun n => if key = k then n + 1 else n := by
  induction t with
  | nil => rfl
  | cons p t ih =>
    obtain ⟨j, n⟩ := p
    -- the keys stay as they are, so the same entry is found
    have hcons : increment ((j, n) :: t) k = (j, if j == k then n + 1 else n) :: increment t k := by
      rw [increment, List.map_cons, ← increment]
      by_cases hj : (j == k) = true <;> simp [hj]
    rw [hcons, List.lookup_cons, List.lookup_cons]
    by_cases hkey : key = j
    · simp [hkey]
    · simp [beq_false_of_ne hkey, ih]

/-- An entry of zero says the same as no entry, so counts stay as they are. -/
theorem count_enter (t : Tally) (k key : String × String) : (t.enter k).count key = t.count key := by
  rw [enter]
  split
  · rfl
  · rw [count, count, List.lookup_append]
    cases t.lookup key with
    | some n => rfl
    | none =>
      by_cases hkey : key = k
      · simp [hkey]
      · simp [List.lookup_cons, beq_false_of_ne hkey]

/-- A key that was entered has an entry, to which one can be added. -/
theorem isSome_lookup_enter (t : Tally) (k : String × String) : ((t.enter k).lookup k).isSome = true := by
  rw [enter]
  split
  · assumption
  · simp [List.lookup_append]

/-- **Counting one more** raises one count by one and leaves the others alone. This is all that is needed of tallies
from here on. -/
theorem count_bump (t : Tally) (k key : String × String) :
    (t.bump k).2.count key = if key = k then t.count k + 1 else t.count key := by
  rw [bump, count, lookup_increment]
  have hcount : ((t.enter k).lookup key).getD 0 = t.count key := count_enter t k key
  by_cases hkey : key = k
  · subst hkey
    obtain ⟨n, hn⟩ := Option.isSome_iff_exists.mp (isSome_lookup_enter t key)
    rw [hn] at hcount ⊢
    simp [← hcount]
  · simp [hkey, hcount]

/-- The answer is the count with the one that was just counted. -/
theorem fst_bump (t : Tally) (k : String × String) : (t.bump k).1 = t.count k + 1 := by
  have hself := count_bump t k k
  rwa [if_pos rfl] at hself

/-- **The tally is in line** with the declarations that came before: each count is the number of those that are
counted under the key. A build starts with an empty tally and counts each declaration as it comes, so the tally is
in line whenever it is asked. -/
def Counts (t : Tally) (earlier : List Declaration) : Prop :=
  ∀ key, t.count key = earlier.countP fun c => c.key = key

/-- An empty tally is in line if nothing came before. -/
theorem counts_nil : Counts [] [] := fun _ => rfl

/-- A tally that is in line stays so when a declaration is counted: both the count and the number of earlier
declarations go up for its key, and for no other. -/
theorem Counts.bump (h : t.Counts earlier) (d : Declaration) : (t.bump d.key).2.Counts (earlier ++ [d]) := by
  intro key
  rw [count_bump, List.countP_append, h key, h d.key]
  by_cases hkey : key = d.key
  · subst hkey
    simp
  · have hne : ¬ d.key = key := fun heq => hkey heq.symm
    simp [hkey, hne]

end Tally

/-! ## Occurrences -/

namespace Declaration

/-- Behind the earlier ones, the declaration is this one of its kind and name. -/
def occurrence (d : Declaration) (earlier : List Declaration) : Nat :=
  (earlier.countP fun c => c.key = d.key) + 1

/-- The names of their kinds tell variables from functions. The tally is kept by names of kinds, so it does not mix
the two. -/
theorem elementKind_eq_of_name (h : d.elementKind.name = e.elementKind.name) :
    d.elementKind = e.elementKind := by
  rcases hd : d.kind with _ | _ <;> rcases he : e.kind with _ | _ <;>
    simp_all [elementKind, varKind, functionKind]

/-- Declarations are counted together if their elements have one kind and one name. -/
theorem key_eq_iff : d.key = e.key ↔ d.elementKind = e.elementKind ∧ d.elementName = e.elementName := by
  rw [key, key, Prod.mk.injEq]
  exact and_congr_left fun _ => ⟨elementKind_eq_of_name, congrArg Kind.name⟩

end Declaration

/-- The first element gets what the tally says for it, and the others go on with the tally after that. -/
theorem elements_cons (f : Handle) (t : Tally) (d : Declaration) (ds : List Declaration) :
    elements f t (d :: ds) = (d.element f (t.bump d.key).1, d) :: elements f (t.bump d.key).2 ds := rfl

/-- **A tally that is in line** gives a declaration its occurrence: what the running count says is the number of
earlier ones of the same kind and name, and one more. -/
theorem Tally.Counts.fst_bump (h : t.Counts earlier) (d : Declaration) :
    (t.bump d.key).1 = d.occurrence earlier := by
  rw [Tally.fst_bump, h d.key, Declaration.occurrence]

/-- **The elements of a text in closed form**: what the tally gives each declaration is its occurrence behind those
that come before it. The induction is on the declarations; the tally is in line at every step, and so the count it
keeps can be replaced by the number it stands for. -/
theorem getElem?_elements (h : t.Counts earlier) (f : Handle) (ds : List Declaration) (k : Nat) :
    (elements f t ds)[k]? = ds[k]?.map fun d => (d.element f (d.occurrence (earlier ++ ds.take k)), d) := by
  induction ds generalizing t earlier k with
  | nil => rfl
  | cons d ds ih =>
    rw [elements_cons]
    cases k with
    | zero => simp [h.fst_bump d]
    | succ k => simp [ih (h.bump d)]

/-- Every element of a text stands behind at least those that had been counted at the start. -/
theorem exists_of_mem_elements (h : t.Counts earlier) {q : Handle × Declaration} (hq : q ∈ elements f t ds) :
    ∃ others, q.1 = q.2.element f (q.2.occurrence (earlier ++ others)) := by
  obtain ⟨k, hk⟩ := List.mem_iff_getElem?.mp hq
  rw [getElem?_elements h] at hk
  obtain ⟨d, -, rfl⟩ := Option.map_eq_some_iff.mp hk
  exact ⟨_, rfl⟩

/-- **Occurrences** tell a declaration from a later one, whatever stands between them. If both have one kind and
name the later one counts the earlier one, and its occurrence is greater. -/
theorem apart_element (f : Handle) (d e : Declaration) (earlier others : List Declaration) :
    (d.element f (d.occurrence earlier)).Apart (e.element f (e.occurrence (earlier ++ d :: others))) := by
  refine Handle.apart_of_node (Bool.eq_false_iff.mpr fun hsame => ?_)
  obtain ⟨hkind, hoccurrence, hname⟩ := (Node.same_iff ..).mp hsame
  have hkey : d.key = e.key :=
    Declaration.key_eq_iff.mpr ⟨Declaration.elementKind_eq_of_name hkind, Option.some.inj hname⟩
  -- the later one counts the earlier one, too
  have hlater : e.occurrence (earlier ++ d :: others) =
      d.occurrence earlier + 1 + others.countP fun c => c.key = e.key := by
    simp only [Declaration.occurrence, List.countP_append, List.countP_cons, hkey, decide_true, if_true]
    omega
  have hpositive : 0 < d.occurrence earlier := Nat.succ_pos _
  simp only [Declaration.element, Handle.sub, Handle.node] at hoccurrence
  omega

/-- **The elements of a text stay apart**, so neither a table of bodies nor the list of children of the file loses
any of them. -/
theorem pairwise_apart_elements (h : t.Counts earlier) (f : Handle) (ds : List Declaration) :
    (elements f t ds).Pairwise fun q r => q.1.Apart r.1 := by
  induction ds generalizing t earlier with
  | nil => exact .nil
  | cons d ds ih =>
    rw [elements_cons]
    refine List.pairwise_cons.mpr ⟨fun q hq => ?_, ih (h.bump d)⟩
    obtain ⟨others, hothers⟩ := exists_of_mem_elements (h.bump d) hq
    rw [hothers, h.fst_bump d, List.append_assoc]
    exact apart_element f d q.2 earlier others

end CodeModel.Foo
