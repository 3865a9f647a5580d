import CodeModel.Proofs.Recorder.Compare

/-!
# The copy that a recording begins with

A recording copies the bodies below its input before anything changes (`snapshot`), and compares later states
with the copy alone. Nothing is lost by that: the copy is **all that the comparison looks at**
(`compare_snapshot`), so what is known of comparisons of whole states is known of recordings
(`Recording.finish_begun`).

The reason is that both walks go the same way, from an element to the children that its earlier body lists.
What the copy has it has from the state, and with the body of an element it has those of its children
(`Copy`). So wherever the comparison stands the two give the same answer, and they give the same answer at the
children it goes on to.

States are **grounded** for that (`Grounded`): below the element there are parent-dependent handles only, each
of them listed by its parent. Such handles match exactly if they are the same when bare, and a child stands
lower than its parent, which bounds the number of levels by the number of bodies.
-/

namespace CodeModel

namespace Table

variable {α : Type} {t : Table α} {e x y : Handle} {v : α}

/-- Tables do not tell handles apart that are the same when bare. -/
theorem get?_of_bare_eq (h : x.bare = y.bare) (t : Table α) : get? t x = get? t y := by
  rw [get?_eq_find?, get?_eq_find?]
  simp only [← Handle.same_bare x, ← Handle.same_bare y, h]

theorem contains_of_bare_eq (h : x.bare = y.bare) (t : Table α) : contains t x = contains t y := by
  rw [contains, contains, get?_of_bare_eq h]

/-- Looking up after an insertion, where all handles are parent-dependent. -/
theorem get?_insert_of_dependent (ht : ∀ p ∈ t, p.1.ParentDependent) (he : e.ParentDependent)
    (hx : x.ParentDependent) : get? (insert t e v) x = if x.bare = e.bare then some v else get? t x := by
  induction t with
  | nil => simp only [insert, get?, Handle.same_iff_bare hx he]
  | cons p t ih =>
    obtain ⟨k, w⟩ := p
    have hk : k.ParentDependent := ht (k, w) (List.mem_cons_self ..)
    have hrest := ih fun q hq => ht q (List.mem_cons_of_mem _ hq)
    by_cases hek : e.bare = k.bare
    · rw [insert, if_pos ((Handle.same_iff_bare he hk).mpr hek), get?, get?, hek]
      simp only [Handle.same_iff_bare hx hk]
      split <;> rfl
    · rw [insert, if_neg (mt (Handle.same_iff_bare he hk).mp hek), get?, get?, hrest]
      simp only [Handle.same_iff_bare hx hk]
      split
      · rename_i hxk
        rw [if_neg fun hxe => hek (hxe.symm.trans hxk)]
      · rfl

end Table

namespace Recorder

open Handle

variable {dom : Handle → Prop} {t new copy : Bodies} {x y c : Handle} {o n b : Body} {fuel limit depth : Nat}

/-! ## Children on both sides -/

/-- A set of parent-dependent handles has those that are in the list when bare. -/
theorem contains_ofList_iff {l : List Handle} (hl : ∀ k ∈ l, k.ParentDependent) (hc : c.ParentDependent) :
    HandleSet.contains (HandleSet.ofList l) c = true ↔ c.bare ∈ l.map Handle.bare := by
  refine ⟨fun h => ?_, contains_ofList_of_bare_mem⟩
  obtain ⟨k, hk, hck⟩ := HandleSet.contains_iff.mp h
  have hkl : k ∈ l := HandleSet.mem_of_mem_ofList hk
  rw [(same_iff_bare hc (hl k hkl)).mp hck]
  exact List.mem_map_of_mem hkl

/-- Lists of children are the same if they are so handle by handle, when bare. -/
theorem sameChildren_iff {as bs : List Handle} (ha : ∀ k ∈ as, k.ParentDependent)
    (hb : ∀ k ∈ bs, k.ParentDependent) :
    sameChildren as bs = true ↔ bs.map Handle.bare = as.map Handle.bare := by
  induction as generalizing bs with
  | nil => cases bs <;> simp [sameChildren]
  | cons a as ih =>
    cases bs with
    | nil => simp [sameChildren]
    | cons b bs =>
      rw [sameChildren, Bool.and_eq_true, ih (fun k hk => ha k (List.mem_cons_of_mem _ hk))
        fun k hk => hb k (List.mem_cons_of_mem _ hk),
        same_iff_bare (ha a (List.mem_cons_self ..)) (hb b (List.mem_cons_self ..)), List.map_cons,
        List.map_cons, List.cons.injEq, eq_comm (a := a.bare)]

/-- The children that a comparison goes on to are listed on both sides. -/
theorem Pursued.bare_mem (h : Pursued o n c) (ho : ∀ k ∈ o.children, k.ParentDependent)
    (hn : ∀ k ∈ n.children, k.ParentDependent) : c.bare ∈ o.children.map Handle.bare := by
  obtain ⟨hc, hsame | hcommon⟩ := h
  · rw [← (sameChildren_iff ho hn).mp hsame]
    exact List.mem_map_of_mem hc
  · exact (contains_ofList_iff ho (hn c hc)).mp (List.mem_filter.mp hcommon).2

/-! ## Grounded states -/

/-- **A grounded state**: the elements in question are parent-dependent, and the children that their bodies list are
among them, one step down. So a walk from such an element meets such elements only, each time one level lower. -/
structure Grounded (dom : Handle → Prop) (t : Bodies) : Prop where
  /-- all bodies are those of parent-dependent handles -/
  keys : ∀ p ∈ t, p.1.ParentDependent
  /-- the elements are parent-dependent -/
  dependent : ∀ {x}, dom x → x.ParentDependent
  /-- children are elements, and their parent is the one that lists them -/
  child : ∀ {x b c}, dom x → Table.get? t x = some b → c ∈ b.children →
    dom c ∧ c.bare.parent? = some x.bare

/-- A state whose children stand where they belong is grounded, if ancestors matter throughout. -/
theorem Region.grounded {lex : Lexicon} (h : Region lex dom t) (hkeys : ∀ p ∈ t, p.1.ParentDependent)
    (hdom : ∀ {x}, dom x → x.ParentDependent) : Grounded dom t := by
  refine ⟨hkeys, hdom, fun hx hb hc => ?_⟩
  obtain ⟨hcdom, hparent⟩ := h.child hx hb hc
  refine ⟨hcdom, ?_⟩
  rw [parent?_bare, hparent, Option.map_some]

/-- The number of bodies that stand as low as the element or lower. It bounds the levels of a walk from there, and
is no more than the number of bodies, which is the fuel that walks are given. -/
def levels (t : Bodies) (x : Handle) : Nat := t.countP fun p => decide (x.depth ≤ p.1.depth)

/-- There are no more levels than bodies. -/
theorem levels_le (t : Bodies) (x : Handle) : levels t x ≤ t.length := List.countP_le_length

/-- A body is found under a handle of the same depth, which may differ from the one asked for in its switches only.
-/
theorem exists_key_of_get? (ht : ∀ p ∈ t, p.1.ParentDependent) (hx : x.ParentDependent)
    (hb : Table.get? t x = some b) : ∃ k, (k, b) ∈ t ∧ k.depth = x.depth := by
  obtain ⟨k, hk, hxk⟩ := Table.exists_of_get? hb
  refine ⟨k, hk, ?_⟩
  rw [← depth_bare k, ← depth_bare x, (same_iff_bare hx (ht _ hk)).mp hxk]

theorem levels_pos (ht : ∀ p ∈ t, p.1.ParentDependent) (hx : x.ParentDependent)
    (hb : Table.get? t x = some b) : 0 < levels t x := by
  obtain ⟨k, hk, hdepth⟩ := exists_key_of_get? ht hx hb
  exact List.countP_pos_iff.mpr ⟨_, hk, decide_eq_true (Nat.le_of_eq hdepth.symm)⟩

/-- **Below an element with a body there are fewer levels left**: its own body stands no longer low enough to
count. -/
theorem levels_lt (ht : ∀ p ∈ t, p.1.ParentDependent) (hx : x.ParentDependent)
    (hb : Table.get? t x = some b) (hc : c.bare.parent? = some x.bare) : levels t c < levels t x := by
  have hdepth : x.depth < c.depth := by
    rw [← depth_bare x, ← depth_bare c]
    exact parent?_depth_lt hc
  obtain ⟨k, hk, hkx⟩ := exists_key_of_get? ht hx hb
  obtain ⟨l, r, rfl⟩ := List.append_of_mem hk
  have hmono : ∀ u : Bodies, levels u c ≤ levels u x := fun u =>
    List.countP_mono_left fun p _ hp =>
      decide_eq_true (Nat.le_trans (Nat.le_of_lt hdepth) (of_decide_eq_true hp))
  have hl := hmono l
  have hr := hmono r
  simp only [levels, List.countP_append, List.countP_cons, hkx, Nat.le_refl, decide_true, if_true,
    Nat.not_le.mpr hdepth, decide_false, Bool.false_eq_true, if_false] at hl hr ⊢
  omega

/-! ## Copies -/

/-- **A copy** of part of a state: what it has it has from the state, and where it has the body of an element it is
as good as the state for the children. It may lack bodies that the state has, but none that a walk from an element
in it would look up next. This is the invariant of the walk that makes the copy. -/
structure Copy (dom : Handle → Prop) (t copy : Bodies) : Prop where
  /-- all bodies are those of parent-dependent handles -/
  keys : ∀ p ∈ copy, p.1.ParentDependent
  /-- the bodies are those of the state -/
  faithful : ∀ {x b}, x.ParentDependent → Table.get? copy x = some b → Table.get? t x = some b
  /-- with an element come its children -/
  closed : ∀ {x b c}, dom x → Table.get? copy x = some b → c ∈ b.children →
    Table.get? copy c = Table.get? t c

theorem copy_nil (dom : Handle → Prop) (t : Bodies) : Copy dom t [] :=
  ⟨by simp, fun _ h => (by cases h), fun _ h => (by cases h)⟩

/-- What the state does not have the copy does not have either, since all that the copy has it has from the state.
-/
theorem Copy.get?_of_none (h : Copy dom t copy) (hx : x.ParentDependent) (hnone : Table.get? t x = none) :
    Table.get? copy x = Table.get? t x := by
  rcases hb : Table.get? copy x with _ | b
  · exact hnone.symm
  · exact (h.faithful hx hb).symm

/-- Adding the body of one element spoils no other: where the copy was as good as the state it still is. -/
theorem Copy.get?_insert (h : Copy dom t copy) (hx : x.ParentDependent) (hb : Table.get? t x = some b)
    (hy : y.ParentDependent) (hagree : Table.get? copy y = Table.get? t y) :
    Table.get? (Table.insert copy x b) y = Table.get? t y := by
  rw [Table.get?_insert_of_dependent h.keys hx hy]
  split
  · rename_i hyx
    rw [Table.get?_of_bare_eq hyx, hb]
  · exact hagree

/-- **The body of an element** can be added as soon as its children are there. Before that the copy would have an
element from which a comparison goes on to a child that it has not. -/
theorem Copy.insert (hg : Grounded dom t) (h : Copy dom t copy) (hx : dom x) (hb : Table.get? t x = some b)
    (hchildren : ∀ c ∈ b.children, Table.get? copy c = Table.get? t c) :
    Copy dom t (Table.insert copy x b) := by
  have hxd := hg.dependent hx
  refine ⟨fun p hp => ?_, fun {y b'} hy hyb => ?_, fun {y b' c} hy hyb hc => ?_⟩
  · rcases Table.mem_keys_of_insert hp with hk | hk
    · obtain ⟨q, hq, hqp⟩ := List.mem_map.mp hk
      exact hqp ▸ h.keys q hq
    · exact hk ▸ hxd
  · rw [Table.get?_insert_of_dependent h.keys hxd hy] at hyb
    split at hyb
    · rename_i hyx
      rw [Table.get?_of_bare_eq hyx, hb, hyb]
    · exact h.faithful hy hyb
  · -- whichever body it is, it has its children from the state, and they are there
    have hyd := hg.dependent hy
    rw [Table.get?_insert_of_dependent h.keys hxd hyd] at hyb
    split at hyb
    · cases hyb
      exact h.get?_insert hxd hb (hg.dependent (hg.child hx hb hc).1) (hchildren c hc)
    · have hc' := (hg.child hy (h.faithful hyd hyb) hc).1
      exact h.get?_insert hxd hb (hg.dependent hc') (h.closed hy hyb hc)

/-- What the walk makes of a copy: it is one still, no less complete than before, and as good as the state for the
element. That it is no less complete lets the walk go on to the next child without losing the ones before. -/
structure Walked (dom : Handle → Prop) (t : Bodies) (x : Handle) (copy copy' : Bodies) : Prop where
  /-- it is a copy -/
  isCopy : Copy dom t copy'
  /-- it is as good as the state wherever it was before -/
  kept : ∀ {y}, y.ParentDependent → Table.get? copy y = Table.get? t y → Table.get? copy' y = Table.get? t y
  /-- it is as good as the state for the element -/
  reached : Table.get? copy' x = Table.get? t x

/-- Walking from child to child reaches all of them: each walk makes the copy as good as the state for its child,
and keeps what those before have reached. -/
theorem copy_foldl {l : List Handle} (walk : Handle → Bodies → Bodies) (hl : ∀ c ∈ l, c.ParentDependent)
    (hwalk : ∀ c ∈ l, ∀ copy, Copy dom t copy → Walked dom t c copy (walk c copy)) (h : Copy dom t copy) :
    Copy dom t (l.foldl (fun copy c => walk c copy) copy) ∧
      (∀ {y}, y.ParentDependent → Table.get? copy y = Table.get? t y →
        Table.get? (l.foldl (fun copy c => walk c copy) copy) y = Table.get? t y) ∧
      ∀ c ∈ l, Table.get? (l.foldl (fun copy c => walk c copy) copy) c = Table.get? t c := by
  induction l generalizing copy with
  | nil => exact ⟨h, fun _ hy => hy, by simp⟩
  | cons d l ih =>
    have hd := hwalk d (List.mem_cons_self ..) copy h
    obtain ⟨hcopy, hkept, hreached⟩ := ih (fun c hc => hl c (List.mem_cons_of_mem _ hc))
      (fun c hc => hwalk c (List.mem_cons_of_mem _ hc)) hd.isCopy
    refine ⟨hcopy, fun hy hagree => hkept hy (hd.kept hy hagree), fun c hc => ?_⟩
    rcases List.mem_cons.mp hc with rfl | hc
    · exact hkept (hl c (List.mem_cons_self ..)) hd.reached
    · exact hreached c hc

/-- **The walk copies** the element and all that is below it, if there is fuel for the levels: each level uses up
a body that stands higher than those to come. -/
theorem walked_snapshot (hg : Grounded dom t) (hx : dom x) (hfuel : levels t x ≤ fuel) (h : Copy dom t copy) :
    Walked dom t x copy (snapshot t fuel x copy) := by
  induction fuel generalizing x copy with
  | zero =>
    rcases hb : Table.get? t x with _ | b
    · exact ⟨h, fun _ hy => hy, h.get?_of_none (hg.dependent hx) hb⟩
    · exact absurd (levels_pos hg.keys (hg.dependent hx) hb) (by omega)
  | succ fuel ih =>
    rw [snapshot]
    rcases hb : Table.get? t x with _ | b
    · exact ⟨h, fun _ hy => hy, h.get?_of_none (hg.dependent hx) hb⟩
    · obtain ⟨hcopy, hkept, hreached⟩ := copy_foldl (snapshot t fuel)
        (fun c hc => hg.dependent (hg.child hx hb hc).1) (fun c hc copy hcopy => by
          obtain ⟨hdom, hparent⟩ := hg.child hx hb hc
          have hlt := levels_lt hg.keys (hg.dependent hx) hb hparent
          exact ih hdom (by omega) hcopy) h
      refine ⟨hcopy.insert hg hx hb hreached, fun hy hagree => ?_, ?_⟩
      · exact hcopy.get?_insert (hg.dependent hx) hb hy (hkept hy hagree)
      · rw [Table.get?_insert_self, hb]

/-! ## Comparing with a copy -/

/-- **All look-ups of a comparison stay within the copy**: it makes no difference whether later states are compared
with the copy below an element or with the whole earlier state. The comparison goes on only to children that the
earlier body lists, and those are where the copy is closed. -/
theorem compare_snapshot (hg : Grounded dom t) (hn : Grounded dom new) (hx : dom x) {b : Builder} :
    compare (snapshot t t.length x []) new limit ((snapshot t t.length x []).length + 1) depth x b =
      compare t new limit (t.length + 1) depth x b := by
  have hwalked := walked_snapshot hg hx (levels_le t x) (copy_nil dom t)
  generalize snapshot t t.length x [] = copy at hwalked
  -- the two states are alike at the elements where the copy is as good as the state
  have hmatching : Matching (levels t) (levels copy)
      (fun y => dom y ∧ Table.get? copy y = Table.get? t y) id id t new copy new := by
    refine ⟨fun {y} hy => ?_, fun {y} _ => ?_, fun b => ⟨rfl, rfl⟩, fun _ _ _ => rfl,
      fun {y o n c} hy ho hn' hc => ?_, fun {y} _ => ⟨levels_le .., levels_le ..⟩⟩
    · rw [hy.2, Option.map_id, id]
    · rw [Option.map_id, id]
    · obtain ⟨hdom, hagree⟩ := hy
      have hyd := hg.dependent hdom
      obtain ⟨hcdom, hparent⟩ := hn.child hdom hn' hc.1
      obtain ⟨k, hk, hkc⟩ := List.mem_map.mp (hc.bare_mem
        (fun k hk => hg.dependent (hg.child hdom ho hk).1) fun k hk => hn.dependent (hn.child hdom hn' hk).1)
      have hcopy : Table.get? copy y = some o := hagree.trans ho
      refine ⟨⟨hcdom, ?_⟩, levels_lt hg.keys hyd ho hparent, levels_lt hwalked.isCopy.keys hyd hcopy hparent⟩
      rw [← Table.get?_of_bare_eq hkc, ← Table.get?_of_bare_eq hkc]
      exact hwalked.isCopy.closed hdom hcopy hk
  exact compare_congr hmatching ⟨hx, hwalked.reached⟩ (Nat.lt_succ_of_le (levels_le ..))
    (Nat.lt_succ_of_le (levels_le ..))

/-- **A recording** finds what a comparison of the whole states finds, though all that it kept of the earlier one is
the copy. What is shown of comparisons is shown of recordings by this. -/
theorem Recording.finish_begun (hg : Grounded dom t) (hn : Grounded dom new) (hx : dom x) (b : Builder)
    (limit : Nat) :
    (Recording.begun t x b limit).finish new = (compare t new limit (t.length + 1) 0 x b).map Prod.fst := by
  rw [Recording.finish, Recording.begun]
  simp only
  rw [compare_snapshot hg hn hx]

end Recorder

end CodeModel
