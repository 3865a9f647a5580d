import CodeModel.Element.Handle

/-!
# Handles under a lexicon

Kinds are compared by name, and a program gives each kind name one meaning. A **lexicon** writes
these meanings down; handles that follow one lexicon are compared as one expects:

* the **strict** comparison is equality (`sameChain_iff`);
* the **relaxed** comparison is an equivalence (`same_symm`, `same_trans`), and among the children of
  one element it is equality too (`same_siblings_iff`).
-/

namespace CodeModel

/-- A **lexicon** gives each kind name the kind it stands for. The comparisons look at the names of kinds and at the
switches of the kinds that happen to be in a handle; only where a name has one meaning do the two go together. -/
abbrev Lexicon := String → Kind

namespace Node

/-- The kind of the node is the one that its name stands for. -/
def Follows (lex : Lexicon) (n : Node) : Prop := n.kind = lex n.kind.name

instance (lex : Lexicon) (n : Node) : Decidable (n.Follows lex) :=
  inferInstanceAs (Decidable (n.kind = lex n.kind.name))

variable {lex : Lexicon} {m n : Node}

/-- Nodes of one lexicon that agree by name are equal, switches included. -/
theorem eq_of_same (hm : m.Follows lex) (hn : n.Follows lex) (h : m.same n = true) : m = n := by
  obtain ⟨hkind, hocc, hname⟩ := (same_iff m n).mp h
  have hk : m.kind = n.kind := by rw [hm, hn, hkind]
  cases m; cases n
  simp_all

/-- Within one lexicon nodes match exactly if they are equal. Comparing looks at the name of a kind and not at its
switches, which the lexicon settles for the name. -/
theorem same_iff_eq (hm : m.Follows lex) (hn : n.Follows lex) : m.same n = true ↔ m = n :=
  ⟨eq_of_same hm hn, fun h => h ▸ same_refl m⟩

end Node

namespace Handle

variable {lex : Lexicon} {a b c p : Handle}

/-- Every kind along the chain is the one that its name stands for. -/
def Follows (lex : Lexicon) : Handle → Prop
  | .root n => n.Follows lex
  | .child p n => p.Follows lex ∧ n.Follows lex

instance decidableFollows (lex : Lexicon) : (e : Handle) → Decidable (e.Follows lex)
  | .root n => inferInstanceAs (Decidable (n.Follows lex))
  | .child p n =>
    have := decidableFollows lex p
    inferInstanceAs (Decidable (p.Follows lex ∧ n.Follows lex))

/-- A lexicon that is followed below is followed one level up. -/
theorem Follows.parent (h : a.Follows lex) (hp : a.parent? = some p) : p.Follows lex := by
  cases a with
  | root n => cases hp
  | child q n =>
    obtain rfl := Option.some.inj hp
    exact h.1

theorem Follows.ancestor (h : a.Follows lex) (hp : p ∈ a.ancestors) : p.Follows lex := by
  induction a with
  | root n => cases hp
  | child q n ih =>
    rcases List.mem_cons.mp hp with rfl | hp
    · exact h.1
    · exact ih h.1 hp

theorem Follows.owner (h : a.Follows lex) (ho : a.owner? = some p) : p.Follows lex := by
  induction a with
  | root n =>
    simp only [owner?] at ho
    split at ho
    · obtain rfl := Option.some.inj ho
      exact h
    · cases ho
  | child q n ih =>
    simp only [owner?] at ho
    split at ho
    · obtain rfl := Option.some.inj ho
      exact h
    · exact ih h.1 ho

/-! ## The strict comparison -/

/-- **Strictly equal handles are equal.** The comparison goes up level by level, and on each of them the names
settle the switches. -/
theorem eq_of_sameChain (ha : a.Follows lex) (hb : b.Follows lex) (h : a.sameChain b = true) :
    a = b := by
  induction a generalizing b with
  | root m => cases b with
    | root n => rw [Node.eq_of_same ha hb h]
    | child q n => simp [sameChain] at h
  | child p m ih => cases b with
    | root n => simp [sameChain] at h
    | child q n =>
      simp only [sameChain, Bool.and_eq_true] at h
      rw [Node.eq_of_same ha.2 hb.2 h.1, ih ha.1 hb.1 h.2]

/-- Within one lexicon the strict comparison is equality. -/
theorem sameChain_iff (ha : a.Follows lex) (hb : b.Follows lex) : a.sameChain b = true ↔ a = b :=
  ⟨eq_of_sameChain ha hb, fun h => h ▸ sameChain_refl a⟩

theorem isOwnedBy_iff (ha : a.Follows lex) (hb : b.Follows lex) :
    a.isOwnedBy b = true ↔ a.openable = false ∧ a.owner? = some b := by
  simp only [isOwnedBy, Bool.and_eq_true, Bool.not_eq_true']
  refine and_congr_right fun _ => ?_
  rcases ho : a.owner? with _ | o
  · simp
  · simp [sameChain_iff (ha.owner ho) hb]

/-! ## The relaxed comparison -/

/-- A top-level handle and one with a parent match if their kind does without parents. -/
theorem same_root_child_iff {m n : Node} (hm : m.Follows lex) (hn : n.Follows lex) :
    (Handle.root m).same (.child p n) = true ↔ m = n ∧ m.kind.parentIndependent = true := by
  simp only [same, Bool.and_eq_true, and_assoc, Node.same_iff_eq hm hn]
  constructor
  · rintro ⟨h, hi, -⟩
    exact ⟨h, hi⟩
  · rintro ⟨h, hi⟩
    exact ⟨h, hi, h ▸ hi⟩

theorem same_child_root_iff {m n : Node} (hm : m.Follows lex) (hn : n.Follows lex) :
    (Handle.child p m).same (.root n) = true ↔ m = n ∧ m.kind.parentIndependent = true := by
  simp only [same, Bool.and_eq_true, Node.same_iff_eq hm hn]

/-- The parents of two matching children match, unless the kind does without them. -/
theorem same_child_child_iff {m n : Node} (hm : m.Follows lex) (hn : n.Follows lex) :
    (Handle.child a m).same (.child b n) = true ↔
      m = n ∧ (m.kind.parentIndependent = true ∨ a.same b = true) := by
  simp only [same, Bool.and_eq_true, Node.same_iff_eq hm hn]
  refine and_congr_right fun h => ?_
  subst h
  by_cases hi : m.kind.parentIndependent = true <;> simp [hi]

/-- The relaxed comparison does not depend on the side. It would if a kind did without its parent in one handle and
not in the other, which a lexicon rules out. -/
theorem same_symm (ha : a.Follows lex) (hb : b.Follows lex) (h : a.same b = true) :
    b.same a = true := by
  induction a generalizing b with
  | root m => cases b with
    | root n => simpa [same, Node.same_comm] using h
    | child q n =>
      obtain ⟨rfl, hi⟩ := (same_root_child_iff ha hb.2).mp h
      exact (same_child_root_iff hb.2 ha).mpr ⟨rfl, hi⟩
  | child p m ih => cases b with
    | root n =>
      obtain ⟨rfl, hi⟩ := (same_child_root_iff ha.2 hb).mp h
      exact (same_root_child_iff hb ha.2).mpr ⟨rfl, hi⟩
    | child q n =>
      obtain ⟨rfl, hi⟩ := (same_child_child_iff ha.2 hb.2).mp h
      exact (same_child_child_iff hb.2 ha.2).mpr ⟨rfl, hi.imp_right (ih ha.1 hb.1)⟩

/-- Matches can be put together: both stop at the same level, the first one whose kind does without its parent. -/
theorem same_trans (ha : a.Follows lex) (hb : b.Follows lex) (hc : c.Follows lex)
    (h : a.same b = true) (k : b.same c = true) : a.same c = true := by
  -- a root matches a child only if their node does not depend on a parent, so shapes may be mixed
  induction a generalizing b c with
  | root m => cases b with
    | root n =>
      obtain rfl := Node.eq_of_same ha hb h
      exact k
    | child q n =>
      obtain ⟨rfl, hi⟩ := (same_root_child_iff ha hb.2).mp h
      cases c with
      | root o => exact (Node.same_iff_eq ha hc).mpr ((same_child_root_iff hb.2 hc).mp k).1
      | child r o =>
        obtain ⟨rfl, -⟩ := (same_child_child_iff hb.2 hc.2).mp k
        exact (same_root_child_iff ha hc.2).mpr ⟨rfl, hi⟩
  | child p m ih => cases b with
    | root n =>
      obtain ⟨rfl, hi⟩ := (same_child_root_iff ha.2 hb).mp h
      cases c with
      | root o => exact (same_child_root_iff ha.2 hc).mpr ⟨Node.eq_of_same hb hc k, hi⟩
      | child r o =>
        obtain ⟨rfl, -⟩ := (same_root_child_iff hb hc.2).mp k
        exact (same_child_child_iff ha.2 hc.2).mpr ⟨rfl, .inl hi⟩
    | child q n =>
      obtain ⟨rfl, hi⟩ := (same_child_child_iff ha.2 hb.2).mp h
      cases c with
      | root o => exact (same_child_root_iff ha.2 hc).mpr ((same_child_root_iff hb.2 hc).mp k)
      | child r o =>
        obtain ⟨rfl, hk⟩ := (same_child_child_iff hb.2 hc.2).mp k
        refine (same_child_child_iff ha.2 hc.2).mpr ⟨rfl, ?_⟩
        rcases hi with hi | hi
        · exact .inl hi
        · exact hk.imp_right (ih ha.1 hb.1 hc.1 hi)

/-- Handles that match the same handles: the comparison may be moved along a match. -/
theorem same_congr_left (ha : a.Follows lex) (hb : b.Follows lex) (hc : c.Follows lex)
    (h : a.same b = true) : a.same c = b.same c := by
  rw [Bool.eq_iff_iff]
  exact ⟨same_trans hb ha hc (same_symm ha hb h), same_trans ha hb hc h⟩

/-- Handles of one lexicon may be compared either way. In general they may not, since a root and a child are not
treated alike where their kinds are at odds. -/
theorem same_comm (ha : a.Follows lex) (hb : b.Follows lex) : a.same b = b.same a := by
  rw [Bool.eq_iff_iff]
  exact ⟨same_symm ha hb, same_symm hb ha⟩

/-- **Siblings** match only if they are equal, whatever their kinds: above them there is nothing that could be left
out of the comparison and differ. -/
theorem same_siblings_iff (ha : a.Follows lex) (hb : b.Follows lex) (hp : a.parent? = some p)
    (hq : b.parent? = some p) : a.same b = true ↔ a = b := by
  cases a with
  | root m => cases hp
  | child q m => cases b with
    | root n => cases hq
    | child r n =>
      obtain rfl := Option.some.inj hp
      obtain rfl := Option.some.inj hq
      simp [same_child_child_iff ha.2 hb.2]

/-- No kind along the chain is parent independent, so that ancestors always matter. -/
def ParentDependent : Handle → Prop
  | .root n => n.kind.parentIndependent = false
  | .child p n => p.ParentDependent ∧ n.kind.parentIndependent = false

/-- Where ancestors always matter the two comparisons are one: nothing in the chain lets the relaxed one stop early.
-/
theorem same_eq_sameChain (ha : a.ParentDependent) (hb : b.ParentDependent) :
    a.same b = a.sameChain b := by
  induction a generalizing b with
  | root m => cases b with
    | root n => rfl
    | child q n => simp [same, sameChain, show m.kind.parentIndependent = false from ha]
  | child p m ih => cases b with
    | root n => simp [same, sameChain, ha.2]
    | child q n => simp [same, sameChain, ha.2, hb.2, ih ha.1 hb.1]

/-- A **plain** handle follows the lexicon, and its ancestors always matter. Tables of plain handles are keyed by
equality. -/
structure Plain (lex : Lexicon) (e : Handle) : Prop where
  /-- every kind means what its name stands for -/
  follows : e.Follows lex
  /-- no kind does without its parent -/
  dependent : e.ParentDependent

theorem Plain.same_iff (ha : a.Plain lex) (hb : b.Plain lex) : a.same b = true ↔ a = b := by
  rw [same_eq_sameChain ha.dependent hb.dependent]
  exact sameChain_iff ha.follows hb.follows

end Handle

end CodeModel
