import CodeModel.Element.Body
import CodeModel.Proofs.Element.Distinct

/-!
# Handles that stay apart

A table keeps one value for handles that match, a body keeps one child of them, and neither says so when it
drops the other. So whoever makes a table or a body from a list has to know that no two handles of the list
match, **in either direction**: the comparison is relaxed, and it need not be symmetric for handles whose
kinds are at odds with each other.

* Handles are apart already if their lowest levels are (`Handle.apart_of_node`).
* A list of handles that stay apart is kept as it is, in a table, in a set and as children
  (`Table.ofList_eq_self`, `HandleSet.ofList_eq_self`, `Body.children_setChildren`).
-/

namespace CodeModel

variable {a b : Handle}

/-- Neither of the handles matches the other. -/
def Handle.Apart (a b : Handle) : Prop := a.same b = false ∧ b.same a = false

instance (a b : Handle) : Decidable (a.Apart b) := inferInstanceAs (Decidable (_ ∧ _))

theorem Handle.Apart.symm (h : a.Apart b) : b.Apart a := And.symm h

/-- Handles that match agree on their lowest level: the comparison starts there, and goes on upwards only if
ancestors matter. -/
theorem Handle.same_node (h : a.same b = true) : a.node.same b.node = true := by
  cases a <;> cases b <;> simp_all [Handle.same, Handle.node]

/-- **Different lowest levels** keep handles apart, whatever stands above them, since a match always compares the
lowest level, and goes on from there only if it has to. -/
theorem Handle.apart_of_node (h : a.node.same b.node = false) : a.Apart b := by
  constructor
  · exact Bool.eq_false_iff.mpr fun hab => Bool.eq_false_iff.mp h (same_node hab)
  · exact Bool.eq_false_iff.mpr fun hba => Bool.eq_false_iff.mp h (Node.same_comm .. ▸ same_node hba)

/-- **A table** keeps all entries of a list whose keys stay apart: at each insertion the key is a new one, so
the entry goes to the end. -/
theorem Table.ofList_eq_self {α : Type} {l : List (Handle × α)} (h : l.Pairwise fun q r => q.1.Apart r.1) :
    Table.ofList l = l := by
  induction l using List.reverseRecOn with
  | nil => rfl
  | append_singleton l p ih =>
    obtain ⟨hl, -, hp⟩ := List.pairwise_append.mp h
    have hnew : Table.get? l p.1 = none :=
      Table.get?_eq_none_iff.mpr fun q hq => (hp q hq p (List.mem_singleton_self p)).2
    rw [Table.ofList_concat, ih hl, Table.insert_of_not_contains _ (by rw [Table.contains, hnew]; rfl)]

/-- **A set** keeps all handles of a list that stay apart, for the same reason. -/
theorem HandleSet.ofList_eq_self {l : List Handle} (h : l.Pairwise Handle.Apart) : HandleSet.ofList l = l := by
  induction l using List.reverseRecOn with
  | nil => rfl
  | append_singleton l e ih =>
    obtain ⟨hl, -, he⟩ := List.pairwise_append.mp h
    have hnew : HandleSet.contains l e = false := by
      rw [HandleSet.contains, List.any_eq_false]
      intro k hk
      simp [(he k hk e (List.mem_singleton_self e)).2]
    rw [HandleSet.ofList_concat, ih hl, HandleSet.insert, hnew, if_neg Bool.false_ne_true]

/-- **A body** keeps all children of a list that stay apart, in the order of the list: children are set as a set of
handles, which drops those that match an earlier one. -/
theorem Body.children_setChildren {l : List Handle} (h : l.Pairwise Handle.Apart) (b : Body) :
    (b.setChildren l).children = l := by
  induction l using List.reverseRecOn with
  | nil => rfl
  | append_singleton l e ih =>
    obtain ⟨hl, -, he⟩ := List.pairwise_append.mp h
    have hnew : l.any (·.same e) = false := by
      rw [List.any_eq_false]
      intro c hc
      simp [(he c hc e (List.mem_singleton_self e)).1]
    have hset : b.setChildren (l ++ [e]) = (b.setChildren l).addChild e := by
      simp [Body.setChildren, List.foldl_append]
    rw [hset, Body.addChild, ih hl, hnew]
    rfl

end CodeModel
