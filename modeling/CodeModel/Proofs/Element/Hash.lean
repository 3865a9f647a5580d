import CodeModel.Element.Hash
import CodeModel.Proofs.Element.Lexicon
import Mathlib.Logic.Function.Basic
import Mathlib.Tactic.Tauto

/-!
# Comparisons by hash

Tables are kept by hashes and comparisons, so a handle is found only if the two fit together, along chains of
any length on which some kinds do without their parents and others do not.

* Handles that match have **equal hashes** (`hash_eq_of_same`): a hash leaves out the parent just where the
  comparison does.
* So testing hashes first makes **no difference** among handles of one lexicon, whatever the hash function
  (`sameBy_eq_same`). Without a lexicon it does, and the comparison of the library takes it into account
  (`sameBy_eq_same_of_injective`).
* The relaxed comparison and the strict one are **equivalences**, the strict one is finer, and they are one
  where parents always matter (`comparisons_lawful`).
-/

namespace CodeModel

variable {H : Type} {lex : Lexicon} {m n : Node}

/-- The words for two levels tell the levels apart, whatever follows them. -/
theorem Node.words_append_inj {x y : List (Word H)} :
    m.words ++ x = n.words ++ y ↔ m.same n = true ∧ x = y := by
  rw [Node.same_iff]
  rcases hm : m.name with _ | s <;> rcases hn : n.name with _ | t <;>
    simp [words, hm, hn, and_assoc, and_left_comm]

/-- The words of a node tell all that the comparison looks at, and nothing else. -/
theorem Node.words_inj : (m.words : List (Word H)) = n.words ↔ m.same n = true := by
  simpa using words_append_inj (m := m) (n := n) (x := ([] : List (Word H))) (y := [])

namespace Handle

variable {f : Hasher H} {k : Shortcut} {a b p q : Handle}

/-! ## Hashes -/

/-- **Matching handles have equal hashes.** A hash goes up the chain just as far as the comparison does, and the
nodes on the way are equal. -/
theorem hash_eq_of_same (f : Hasher H) (ha : a.Follows lex) (hb : b.Follows lex) (h : a.same b = true) :
    a.hash f = b.hash f := by
  induction a generalizing b with
  | root m => cases b with
    | root n =>
      obtain rfl := Node.eq_of_same ha hb h
      rfl
    | child q n =>
      obtain ⟨rfl, hi⟩ := (same_root_child_iff ha hb.2).mp h
      simp [hash, hi]
  | child p m ih => cases b with
    | root n =>
      obtain ⟨rfl, hi⟩ := (same_child_root_iff ha.2 hb).mp h
      simp [hash, hi]
    | child q n =>
      obtain ⟨rfl, hi⟩ := (same_child_child_iff ha.2 hb.2).mp h
      by_cases hm : m.kind.parentIndependent = true
      · simp [hash, hm]
      · have hpq := ih ha.1 hb.1 (hi.resolve_left hm)
        rw [hash, hash, hpq]

theorem hash_root_child_iff (hf : Function.Injective f) :
    (root m).hash f = (child q n).hash f ↔ m.same n = true ∧ n.kind.parentIndependent = true := by
  have hwords := hf.eq_iff.trans (Node.words_append_inj (m := m) (n := n) (x := [])
    (y := if n.kind.parentIndependent then [] else [.hash (q.hash f)]))
  rw [List.append_nil] at hwords
  rw [hash, hash, hwords]
  by_cases hn : n.kind.parentIndependent = true <;> simp [hn]

theorem hash_child_child_iff (hf : Function.Injective f) :
    (child p m).hash f = (child q n).hash f ↔ m.same n = true ∧
      m.kind.parentIndependent = n.kind.parentIndependent ∧
      (m.kind.parentIndependent = false → p.hash f = q.hash f) := by
  rw [hash, hash, hf.eq_iff, Node.words_append_inj]
  by_cases hm : m.kind.parentIndependent = true <;> by_cases hn : n.kind.parentIndependent = true <;>
    simp [hm, hn]

/-! ## The comparisons as they are carried out -/

/-- Nodes that agree upwards are what the relaxed comparison is about. -/
theorem sameUpwards_eq_same (ha : a.Follows lex) (hb : b.Follows lex) : a.sameUpwards b = a.same b := by
  induction a generalizing b with
  | root m => cases b with
    | root n => simp [sameUpwards, same, node]
    | child q n =>
      rw [Bool.eq_iff_iff, same_root_child_iff ha hb.2]
      simp [sameUpwards, node, kind, Node.same_iff_eq ha hb.2]
  | child p m ih => cases b with
    | root n =>
      rw [Bool.eq_iff_iff, same_child_root_iff ha.2 hb]
      simp [sameUpwards, node, kind, Node.same_iff_eq ha.2 hb]
    | child q n =>
      rw [Bool.eq_iff_iff, same_child_child_iff ha.2 hb.2]
      simp [sameUpwards, node, kind, Node.same_iff_eq ha.2 hb.2, ih ha.1 hb.1]

/-- What is known beforehand makes no difference to the strict comparison. -/
theorem sameChainBy_eq_sameChain (k : Shortcut) (a b : Handle) : a.sameChainBy k b = a.sameChain b := by
  have hknown : ∀ a b : Handle, (k.knows a b || a.sameChain b) = a.sameChain b := by
    intro a b
    by_cases hk : k.knows a b = true
    · obtain rfl := k.eq_of_knows hk
      simp
    · simp [hk]
  induction a generalizing b with
  | root m =>
    have hroot := hknown (.root m) b
    cases b <;> simpa [sameChainBy, sameChain, node] using hroot
  | child p m ih =>
    have hchild := hknown (.child p m) b
    cases b <;> simpa [sameChainBy, sameChain, node, ih] using hchild

variable [DecidableEq H]

/-- What is looked at first says nothing that the nodes do not say: handles that are known to match do match, and
handles that match have one hash. So the two tests only save work. -/
theorem settled_eq (f : Hasher H) (k : Shortcut) (ha : a.Follows lex) (hb : b.Follows lex) :
    (k.knows a b || a.hash f == b.hash f && a.sameUpwards b) = a.sameUpwards b := by
  rw [sameUpwards_eq_same ha hb, Bool.eq_iff_iff, Bool.or_eq_true, Bool.and_eq_true, beq_iff_eq]
  constructor
  · rintro (hk | ⟨-, h⟩)
    · obtain rfl := k.eq_of_knows hk
      exact same_refl a
    · exact h
  · exact fun h => .inr ⟨hash_eq_of_same f ha hb h, h⟩

/-- **Testing hashes first** makes no difference among handles of one lexicon: it could only refuse a match, and
matching handles have equal hashes. -/
theorem sameBy_eq_same (f : Hasher H) (k : Shortcut) (ha : a.Follows lex) (hb : b.Follows lex) :
    a.sameBy f k b = a.same b := by
  have hsettled := settled_eq f k ha hb
  rw [← sameUpwards_eq_same ha hb]
  induction a generalizing b with
  | root m => cases b <;> simpa [sameBy, sameUpwards, Bool.and_assoc] using hsettled
  | child p m ih => cases b with
    | root n => simpa [sameBy, sameUpwards, Bool.and_assoc] using hsettled
    | child q n =>
      have hpq := ih ha.1 hb.1 (settled_eq f k ha.1 hb.1)
      simpa [sameBy, sameUpwards, Bool.and_assoc, hpq] using hsettled

/-! ## Hashes that never coincide -/

/-- What is known to match is not looked at any further, neither by hash nor level by level. -/
theorem sameBy_of_knows (f : Hasher H) (h : k.knows a b = true) : a.sameBy f k b = true := by
  cases a <;> cases b <;> simp [sameBy, h]

theorem hash_eq_of_sameBy (h : a.sameBy f k b = true) : a.hash f = b.hash f := by
  by_cases hk : k.knows a b = true
  · rw [k.eq_of_knows hk]
  · cases a <;> cases b <;> simp_all [sameBy]

/-- Where no two hashes coincide, the comparison of the library is the one that is **carried out**, whatever the
kinds of the handles. For equal hashes tell then that both handles do without their parents on the same levels,
which comparing the nodes upwards does not look at. -/
theorem sameBy_eq_same_of_injective (hf : Function.Injective f) (k : Shortcut) (a b : Handle) :
    a.sameBy f k b = a.same b := by
  have hknown : ∀ {a b : Handle}, k.knows a b = true → a.sameBy f k b = a.same b := by
    intro a b hk
    rw [sameBy_of_knows f hk, k.eq_of_knows hk, same_refl]
  induction a generalizing b with
  | root m =>
    by_cases hk : k.knows (.root m) b = true
    · exact hknown hk
    · rw [Bool.eq_iff_iff]
      cases b with
      | root n => simp [sameBy, hk, same, node, hash, hf.eq_iff, Node.words_inj]
      | child q n =>
        simp [sameBy, hk, same, node, kind, hash_root_child_iff hf]
        tauto
  | child p m ih =>
    by_cases hk : k.knows (.child p m) b = true
    · exact hknown hk
    · rw [Bool.eq_iff_iff]
      cases b with
      | root n =>
        have hhash : (child p m).hash f = (root n).hash f ↔
            m.same n = true ∧ m.kind.parentIndependent = true := by
          rw [eq_comm, hash_root_child_iff hf, Node.same_comm]
        simp [sameBy, hk, same, node, kind, hhash]
        tauto
      | child q n =>
        have hpq : p.same q = true → p.hash f = q.hash f := by
          rw [← ih q]
          exact hash_eq_of_sameBy
        by_cases hm : m.kind.parentIndependent = true <;>
          simp [sameBy, hk, same, node, kind, hash_child_child_iff hf, ih, hm]
        · tauto
        · tauto

/-! ## What tables rely on -/

/-- Elements can be found by the hashes of their handles and by comparing these: all that a table keyed by handles
relies on, for the relaxed comparison as well as for the strict one. -/
structure Lawful (lex : Lexicon) (f : Hasher H) (k : Shortcut) : Prop where
  /-- the relaxed comparison finds out whether nodes agree, upwards to a kind that does without parents -/
  upwards : ∀ {a b : Handle}, a.Follows lex → b.Follows lex → a.sameBy f k b = a.sameUpwards b
  /-- it is the comparison that the tables of the library are keyed by -/
  tables : ∀ {a b : Handle}, a.Follows lex → b.Follows lex → a.sameBy f k b = a.same b
  /-- it is an equivalence -/
  relaxed : Equivalence fun a b : { e : Handle // e.Follows lex } => a.1.sameBy f k b.1 = true
  /-- what matches has one hash -/
  hashes : ∀ {a b : Handle}, a.Follows lex → b.Follows lex → a.sameBy f k b = true → a.hash f = b.hash f
  /-- the strict comparison is an equivalence -/
  strict : Equivalence fun a b : Handle => a.sameChainBy k b = true
  /-- it tells apart what the relaxed one does -/
  finer : ∀ {a b : Handle}, a.Follows lex → b.Follows lex → a.sameChainBy k b = true → a.sameBy f k b = true
  /-- and nothing else where no kind does without parents -/
  dependent : ∀ {a b : Handle}, a.Follows lex → b.Follows lex → a.ParentDependent → b.ParentDependent →
    a.sameBy f k b = a.sameChainBy k b

/-- **The comparisons are lawful**, for whatever hash function and whatever is known beforehand. Nothing is asked of
the two but that equal words have equal hashes and that what is known is true; so neither collisions nor shortcuts
can make a lookup miss or mistake an element. -/
theorem comparisons_lawful (lex : Lexicon) (f : Hasher H) (k : Shortcut) : Lawful lex f k where
  upwards ha hb := by rw [sameBy_eq_same f k ha hb, sameUpwards_eq_same ha hb]
  tables ha hb := sameBy_eq_same f k ha hb
  relaxed := by
    refine ⟨fun a => ?_, fun {a b} => ?_, fun {a b c} => ?_⟩
    · rw [sameBy_eq_same f k a.2 a.2, same_refl]
    · rw [sameBy_eq_same f k a.2 b.2, sameBy_eq_same f k b.2 a.2]
      exact same_symm a.2 b.2
    · rw [sameBy_eq_same f k a.2 b.2, sameBy_eq_same f k b.2 c.2, sameBy_eq_same f k a.2 c.2]
      exact same_trans a.2 b.2 c.2
  hashes _ _ := hash_eq_of_sameBy
  strict := by
    simp only [sameChainBy_eq_sameChain]
    exact ⟨sameChain_refl, fun h => sameChain_comm _ _ ▸ h, sameChain_trans⟩
  finer ha hb h := by
    rw [sameChainBy_eq_sameChain] at h
    obtain rfl := eq_of_sameChain ha hb h
    rw [sameBy_eq_same f k ha ha, same_refl]
  dependent ha hb hda hdb := by
    rw [sameBy_eq_same f k ha hb, sameChainBy_eq_sameChain, same_eq_sameChain hda hdb]

/-- An archive that two projects share is one element, and so are its parts, but their chains differ. -/
example :
    let archive (project : String) := (top { name := "project" } (some project)).sub
      { name := "archive", parentIndependent := true } "lib"
    let part (project : String) := (archive project).sub { name := "part" } "a"
    (part "p").sameBy List.length ⟨fun _ _ => false, by simp⟩ (part "q") = true ∧
      (part "p").sameChainBy ⟨fun _ _ => false, by simp⟩ (part "q") = false := by
  decide

end Handle

end CodeModel
