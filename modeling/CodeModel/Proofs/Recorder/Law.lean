import CodeModel.Proofs.Recorder.Confined
import CodeModel.Proofs.Recorder.Differs

/-!
# The law of recorded changes

What a comparison puts on record for every element that it comes to.

* An element is **reached** by steps to known children that are there on both sides (`Trail`).
* The **law** of an element says what is on record for it and for those of its children that are not
  reached from it (`Law`): it depends on the two states and on the depth limit only.

The law holds of every element reached by a comparison (`comparable`), by induction on the fuel. The comparison
of one element is a report of its content, a loop over children that came, went or changed places, a loop over
the common children, and a last report about the element itself. What carries the induction is that each of
these leaves alone what does not concern it: the reports of one level reach no further than the children
(`levelReports_law`), the comparison of a child is confined to the child (`Compared`), and children stand beside
each other (`commonChildren_swept`). So what one part has put on record is still there at the end
(`law_level`).
-/

namespace CodeModel.Recorder

open Builder Delta Note Handle

variable {old new : Bodies} {x y c : Handle} {o n : Body} {b b' : Builder} {limit depth fuel k : Nat}
  {moved m m' : Bool}

/-! ## The law -/

/-- The note of a child that changed its place, or did not. It is what the comparison of the parent leaves behind
for the comparison of the child. -/
def shifted (moved : Bool) : Note := if moved then some (.changed, Flags.reorder) else none

/-- A change of place is a change, and nothing that would swallow later reports about the child. -/
theorem modest_shifted (moved : Bool) : Modest (shifted moved) := by
  cases moved
  · exact modest_none
  · exact modest_gained none Flags.reorder

/-- From `x` one comes to `y` in so many steps, each of them to a known child that is there on both sides: the way
that a comparison takes down the two trees. The marks tell whether an element changed its place among its siblings,
which is decided when its parent is compared. -/
inductive Trail (old new : Bodies) : Nat → Handle → Bool → Handle → Bool → Prop where
  /-- one is there -/
  | here (x : Handle) (moved : Bool) : Trail old new 0 x moved x moved
  /-- one step down, and on -/
  | down {k : Nat} {x c y : Handle} {moved m : Bool} {o n : Body} (ho : Table.get? old x = some o)
      (hn : Table.get? new x = some n) (hc : c ∈ commonChildren o n)
      (hopened : isUnopened old new c = false)
      (rest : Trail old new k c (decide (c ∈ reordered o n)) y m) : Trail old new (k + 1) x moved y m

/-- **The law** of an element that is so many steps below the input: what is on record for it and for its children,
told from the two states alone. It is complete: the last part says that nothing else is on record one step below the
element. It holds of an element as soon as its comparison is over, and remains true from then on, since it speaks of
the element and its children only (`Law.congr`) and whatever is compared later stands beside them. -/
structure Law (old new : Bodies) (limit depth : Nat) (moved : Bool) (y : Handle) (b : Builder) : Prop where
  /-- where the trees do not differ there is at most a change of place -/
  agreeing : ¬ Differs old new y → b.noted y.bare = shifted moved
  /-- an element that came -/
  appeared : Table.get? old y = none → ∀ {n}, Table.get? new y = some n →
    b.noted y.bare = some (.added, ∅)
  /-- an element that went -/
  vanished : ∀ {o}, Table.get? old y = some o → Table.get? new y = none →
    b.noted y.bare = some (.removed, ∅)
  /-- at the limit any difference is one of content -/
  coarse : ∀ {o n}, Table.get? old y = some o → Table.get? new y = some n → limit ≤ depth →
    Differs old new y → b.noted y.bare = (shifted moved).gained Flags.content
  /-- above the limit differences are told apart -/
  fine : ∀ {o n}, Table.get? old y = some o → Table.get? new y = some n → depth < limit →
    Differs old new y → ∃ kids : Bool, (kids = true ↔ ChildrenDiffer old new o n) ∧
      b.noted y.bare = (shifted moved).gained ((if n.contentDiffers o then Flags.content else ∅) ∪
        (if kids then Flags.children else ∅) ∪ Flags.fineGrained)
  /-- children that went -/
  gone : ∀ {o n c}, Table.get? old y = some o → Table.get? new y = some n → depth < limit →
    c ∈ o.children → c.bare ∉ n.children.map Handle.bare → b.noted c.bare = some (.removed, ∅)
  /-- children that came -/
  come : ∀ {o n c}, Table.get? old y = some o → Table.get? new y = some n → depth < limit →
    c ∈ n.children → c.bare ∉ o.children.map Handle.bare → b.noted c.bare = some (.added, ∅)
  /-- children that were not opened -/
  unopened : ∀ {o n c}, Table.get? old y = some o → Table.get? new y = some n → depth < limit →
    c ∈ commonChildren o n → isUnopened old new c = true →
    b.noted c.bare = shifted (decide (c ∈ reordered o n))
  /-- there is nothing else -/
  other : ∀ {c}, c.Follows simple → c.parent? = some y.bare →
    (∀ {o n}, Table.get? old y = some o → Table.get? new y = some n → depth < limit →
      c ∉ o.children.map Handle.bare ∧ c ∉ n.children.map Handle.bare) → b.noted c = none

/-- Common children are the later ones that have a match among the earlier ones; where ancestors matter, a match is
a handle that is the same when bare. -/
theorem mem_commonChildren_iff (ho : Arranged old) (hn : Arranged new) (hx : x.ParentDependent)
    (hxo : Table.get? old x = some o) (hxn : Table.get? new x = some n) :
    c ∈ commonChildren o n ↔ c ∈ n.children ∧ c.bare ∈ o.children.map Handle.bare := by
  rw [commonChildren, List.mem_filter]
  exact and_congr_right fun hc =>
    contains_ofList_iff (fun k hk => (ho.child hx hxo hk).1) (hn.child hx hxn hc).1

/-- A trail goes down: where it ends is the element itself or something below it. -/
theorem Trail.under (h : Trail old new k x m y m') (hn : Arranged new) (hx : x.ParentDependent) :
    y.ParentDependent ∧ y.bare.Under x.bare := by
  induction h with
  | here x m => exact ⟨hx, under_refl _⟩
  | down _ hxn hc _ _ ih =>
    obtain ⟨hcd, hcp⟩ := hn.child hx hxn (mem_commonChildren hc)
    obtain ⟨hyd, hyc⟩ := ih hcd
    exact ⟨hyd, under_of_mem (hyc.mem_ancestors hcp)⟩

/-- The law of an element speaks of the element and its children only: it still holds when the record has changed
elsewhere, as it does while the siblings of the element are compared. -/
theorem Law.congr (h : Law old new limit depth moved y b) (ho : Arranged old) (hn : Arranged new)
    (hy : y.ParentDependent)
    (hsame : ∀ {z}, z.Follows simple → z.Under y.bare → b'.noted z = b.noted z) :
    Law old new limit depth moved y b' := by
  have hself : b'.noted y.bare = b.noted y.bare := hsame hy.follows_bare (under_refl _)
  have hchild : ∀ {c : Handle}, c.Follows simple → c.parent? = some y.bare → b'.noted c = b.noted c :=
    fun hc hp => hsame hc (under_of_mem ((under_refl _).mem_ancestors hp))
  have hold : ∀ {o c}, Table.get? old y = some o → c ∈ o.children → b'.noted c.bare = b.noted c.bare :=
    fun hyo hc => hchild (ho.child hy hyo hc).1.follows_bare (ho.child hy hyo hc).2
  have hnew : ∀ {n c}, Table.get? new y = some n → c ∈ n.children → b'.noted c.bare = b.noted c.bare :=
    fun hyn hc => hchild (hn.child hy hyn hc).1.follows_bare (hn.child hy hyn hc).2
  refine ⟨?_, ?_, ?_, ?_, ?_, fun hyo hyn hd hc => ?_, fun hyo hyn hd hc => ?_, fun hyo hyn hd hc => ?_,
    fun hc hp => ?_⟩
  · exact hself ▸ h.agreeing
  · exact hself ▸ h.appeared
  · exact hself ▸ h.vanished
  · exact hself ▸ h.coarse
  · exact hself ▸ h.fine
  · exact hold hyo hc ▸ h.gone hyo hyn hd hc
  · exact hnew hyn hc ▸ h.come hyo hyn hd hc
  · exact hnew hyn (mem_commonChildren hc) ▸ h.unopened hyo hyn hd hc
  · exact hchild hc hp ▸ h.other hc hp

/-! ## The reports of one level -/

/-- What is reordered is some of the common children, in the same order. -/
theorem reordered_sublist (o n : Body) : (reordered o n).Sublist (commonChildren o n) := by
  refine List.Sublist.trans ((List.filter_sublist).map Prod.fst) ?_
  simp

/-- The handles of a list that are not in another one. The program asks a set of handles by the relaxed comparison;
for handles that differ in names only this is membership among the bare ones. -/
theorem mem_filter_not_contains {l l' : List Handle} (hl : ∀ k ∈ l, k.ParentDependent)
    (hl' : ∀ k ∈ l', k.ParentDependent) :
    c ∈ (l.filter fun c => !HandleSet.contains (HandleSet.ofList l') c) ↔
      c ∈ l ∧ c.bare ∉ l'.map Handle.bare := by
  rw [List.mem_filter]
  refine and_congr_right fun hc => ?_
  rw [Bool.not_eq_true', ← Bool.not_eq_true, contains_ofList_iff hl' (hl c hc)]

section Level

variable (ho : Arranged old) (hn : Arranged new) (hx : x.ParentDependent)
  (hxo : Table.get? old x = some o) (hxn : Table.get? new x = some n)

include ho hn hx hxo hxn

/-- The reports about children, told one by one: children without a match went or came, and of the others some
changed places. -/
theorem mem_childReports {r : Report} :
    r ∈ childReports o n ↔
      (∃ c, (c ∈ o.children ∧ c.bare ∉ n.children.map Handle.bare) ∧ .removed c = r) ∨
      (∃ c, (c ∈ n.children ∧ c.bare ∉ o.children.map Handle.bare) ∧ .added c = r) ∨
      ∃ c, c ∈ reordered o n ∧ .changed c Flags.reorder = r := by
  have hod : ∀ k ∈ o.children, k.ParentDependent := fun k hk => (ho.child hx hxo hk).1
  have hnd : ∀ k ∈ n.children, k.ParentDependent := fun k hk => (hn.child hx hxn hk).1
  rw [childReports, List.mem_append, List.mem_append, List.mem_map, List.mem_map, List.mem_map]
  simp only [mem_filter_not_contains hod hnd, mem_filter_not_contains hnd hod]

/-- Reports about children are about elements one step down, as both bodies list only children of the element that
they belong to. -/
theorem child_of_mem_childReports {r : Report} (hr : r ∈ childReports o n) :
    r.element.ParentDependent ∧ r.element.bare.parent? = some x.bare := by
  rcases (mem_childReports ho hn hx hxo hxn).mp hr with ⟨c, hc, rfl⟩ | ⟨c, hc, rfl⟩ | ⟨c, hc, rfl⟩
  · exact ho.child hx hxo hc.1
  · exact hn.child hx hxn hc.1
  · exact hn.child hx hxn (mem_reordered hc)

/-- A child that changed its place has a match on both sides, which tells it from those that came or went. -/
theorem bare_mem_of_reordered (hc : c ∈ reordered o n) :
    c.bare ∈ o.children.map Handle.bare ∧ c.bare ∈ n.children.map Handle.bare := by
  obtain ⟨hcn, hco⟩ := (mem_commonChildren_iff ho hn hx hxo hxn).mp ((reordered_sublist o n).subset hc)
  exact ⟨hco, List.mem_map_of_mem hcn⟩

/-- No child is reported twice: those that went are not in the later list, those that came are not in the earlier
one, those that changed places are in both, and neither list has a child twice. -/
theorem childReports_apart :
    (childReports o n).Pairwise fun r s => r.element.bare ≠ s.element.bare := by
  have hod : ∀ k ∈ o.children, k.ParentDependent := fun k hk => (ho.child hx hxo hk).1
  have hnd : ∀ k ∈ n.children, k.ParentDependent := fun k hk => (hn.child hx hxn hk).1
  have hnew := hn.apart_bare hxn
  have hcommon : (commonChildren o n).Pairwise fun c k => c.bare ≠ k.bare :=
    hnew.sublist List.filter_sublist
  simp only [childReports, List.pairwise_append, List.pairwise_map]
  refine ⟨(ho.apart_bare hxo).sublist List.filter_sublist, ⟨hnew.sublist List.filter_sublist,
    hcommon.sublist (reordered_sublist o n), fun r hr s hs heq => ?_⟩, fun r hr s hs heq => ?_⟩
  · -- what came was not there before, and what changed its place was
    obtain ⟨c, hc, rfl⟩ := List.mem_map.mp hr
    obtain ⟨k, hk, rfl⟩ := List.mem_map.mp hs
    have hcome := ((mem_filter_not_contains hnd hod).mp hc).2
    exact hcome (heq ▸ (bare_mem_of_reordered ho hn hx hxo hxn hk).1)
  · -- what went is not there any more, and the others are
    obtain ⟨c, hc, rfl⟩ := List.mem_map.mp hr
    have hgone := ((mem_filter_not_contains hod hnd).mp hc).2
    rcases List.mem_append.mp hs with hs | hs
    · obtain ⟨k, hk, rfl⟩ := List.mem_map.mp hs
      exact hgone (heq ▸ List.mem_map_of_mem (List.mem_filter.mp hk).1)
    · obtain ⟨k, hk, rfl⟩ := List.mem_map.mp hs
      exact hgone (heq ▸ (bare_mem_of_reordered ho hn hx hxo hxn hk).2)

/-- **The reports about children** are all taken in, each of them where it belongs. They are about different
children (`childReports_apart`), so each of them finds nothing on record for its child and leaves the notes of the
others alone. -/
theorem childReports_swept (hb : Ready b x.bare) (hown : Modest (b.noted x.bare))
    (hfresh : ∀ {y}, y.Follows simple → x.bare ∈ y.ancestors → b.noted y = none) :
    ∃ b', (childReports o n).foldlM Builder.report b = .ok b' ∧
      Swept id (fun _ => true) (fun r : Report => r.element.bare) (fun _ => True)
        (fun r b => b.noted r.element.bare = r.call? ∧
          ∀ {y}, y.Follows simple → r.element.bare ∈ y.ancestors → b.noted y = none)
        x.bare (childReports o n) b b' := by
  refine loop_confined id hb hown (fun r hr => ?_) (childReports_apart ho hn hx hxo hxn)
    (fun r hr b b' hdone hsame => ?_) fun r hr q hq hsame => ?_
  · obtain ⟨hd, hp⟩ := child_of_mem_childReports ho hn hx hxo hxn hr
    exact ⟨hd.follows_bare, hp⟩
  · have hd := (child_of_mem_childReports ho hn hx hxo hxn hr).1
    refine ⟨(hsame hd.follows_bare (under_refl _)).trans hdone.1, fun hy hry => ?_⟩
    exact (hsame hy (under_of_mem hry)).trans (hdone.2 hy hry)
  · -- nothing is on record at the child nor below it, so the report stands alone
    obtain ⟨hd, hp⟩ := child_of_mem_childReports ho hn hx hxo hxn hr
    have hnone : q.noted r.element.bare = none := by
      rw [show q.noted _ = b.noted _ from hsame hd.follows_bare (under_refl _)]
      exact hfresh hd.follows_bare ((under_refl _).mem_ancestors hp)
    have hmodest : Modest (q.noted r.element.bare) := hnone ▸ modest_none
    have hwhole : ∀ s : Status, s.isWhole = true → r.call? = some (s, ∅) → Unattached r.toDelta →
        ∃ b', q.report r = .ok b' ∧ Confined q b' r.element.bare True ∧
          b'.noted r.element.bare = r.call? ∧
          ∀ {y}, y.Follows simple → r.element.bare ∈ y.ancestors → b'.noted y = none := by
      intro s hs hcall hplain
      obtain ⟨b', hreport, hconfined, hentry, hbelow⟩ := report_whole hd hcall hplain hs hq hmodest
      exact ⟨b', hreport, hconfined, hentry.trans hcall.symm, hbelow⟩
    suffices h : ∃ b', q.report r = .ok b' ∧ Confined q b' r.element.bare True ∧
        b'.noted r.element.bare = r.call? ∧
        ∀ {y}, y.Follows simple → r.element.bare ∈ y.ancestors → b'.noted y = none by
      obtain ⟨b', hreport, hconfined, hpost⟩ := h
      exact ⟨b', hreport, by simp, hconfined, hpost⟩
    rcases (mem_childReports ho hn hx hxo hxn).mp hr with ⟨c, hc, rfl⟩ | ⟨c, hc, rfl⟩ | ⟨c, hc, rfl⟩
    · exact hwhole .removed rfl rfl ⟨rfl, rfl, rfl, rfl⟩
    · exact hwhole .added rfl rfl ⟨rfl, rfl, rfl, rfl⟩
    · obtain ⟨b', hreport, hconfined, hentry, hbelow⟩ := report_changed hd hq hmodest Flags.reorder
      refine ⟨b', hreport, hconfined, ?_, fun {y} hy hcy => ?_⟩
      · exact hentry.trans (congrArg (fun o : Note => o.gained Flags.reorder) hnone)
      · rw [hbelow hy hcy, hsame hy (under_of_mem hcy)]
        exact hfresh hy ((under_of_mem hcy).mem_ancestors hp)

/-- After the reports about children nothing is on record for a child that none of them is about, nor below it: each
report is confined to its own child. -/
theorem noted_of_childReports_swept {b b' : Builder} {post : Report → Builder → Prop}
    (h : Swept id (fun _ => true) (fun r : Report => r.element.bare) (fun _ => True) post x.bare
      (childReports o n) b b')
    (hfresh : ∀ {y}, y.Follows simple → x.bare ∈ y.ancestors → b.noted y = none) {y : Handle}
    (hy : y.Follows simple) (hc : c.parent? = some x.bare) (hyc : y.Under c)
    (hnot : ∀ r ∈ childReports o n, r.element.bare ≠ c) : b'.noted y = none := by
  have hplace : ∀ r ∈ childReports o n, r.element.bare.parent? = some x.bare :=
    fun r hr => (child_of_mem_childReports ho hn hx hxo hxn hr).2
  exact (h.beside_child hplace hy hc hyc hnot).trans (hfresh hy (hyc.mem_ancestors hc))

/-- **After the reports of one level**: the element has its content and its children on record, each reported child
has its own note and nothing below it, and there is nothing for the other children. This is where the comparison of
the common children starts. -/
theorem levelReports_law (hb : Ready b x.bare) (hown : b.noted x.bare = shifted m)
    (hfresh : ∀ {y}, y.Follows simple → x.bare ∈ y.ancestors → b.noted y = none) :
    ∃ b', (levelReports x o n).foldlM Builder.report b = .ok b' ∧
      Confined b b' x.bare (n.contentDiffers o = true ∨ childReports o n ≠ []) ∧
      b'.noted x.bare = ((shifted m).gainedIf (n.contentDiffers o) Flags.content).gainedIf
        (!(childReports o n).isEmpty) Flags.children ∧
      (∀ r ∈ childReports o n, b'.noted r.element.bare = r.call? ∧
        ∀ {y}, y.Follows simple → r.element.bare ∈ y.ancestors → b'.noted y = none) ∧
      ∀ {c y}, y.Follows simple → c.parent? = some x.bare → y.Under c →
        (∀ r ∈ childReports o n, r.element.bare ≠ c) → b'.noted y = none := by
  -- first the content of the element itself
  obtain ⟨b₁, hcontent, hconfined, hentry, hbelow⟩ : ∃ b₁,
      (if n.contentDiffers o then [Report.changed x (n.contentChange o)] else []).foldlM
        Builder.report b = .ok b₁ ∧ Confined b b₁ x.bare (n.contentDiffers o = true) ∧
      b₁.noted x.bare = (shifted m).gainedIf (n.contentDiffers o) Flags.content ∧
      ∀ {y}, y.Follows simple → x.bare ∈ y.ancestors → b₁.noted y = none := by
    rcases hdiffers : n.contentDiffers o with _ | _
    · exact ⟨b, rfl, .refl hb.regular (by simp), hown, hfresh⟩
    · obtain ⟨b₁, hreport, hconfined, hentry, hbelow⟩ := report_changed hx hb
        (hown ▸ modest_shifted m) (n.contentChange o)
      refine ⟨b₁, ?_, hconfined.congr (by simp), ?_, fun hy hxy => (hbelow hy hxy).trans (hfresh hy hxy)⟩
      · rw [if_pos rfl, List.foldlM_cons, hreport]
        rfl
      · rw [hentry, hown, Body.contentChange, if_pos hdiffers]
        rfl
  -- then the children
  have hmodest : Modest (b₁.noted x.bare) := hentry ▸ modest_gainedIf (modest_shifted m) _ _
  obtain ⟨b₂, hfold, hswept⟩ := childReports_swept ho hn hx hxo hxn
    (hconfined.ready hx.follows_bare hb) hmodest hbelow
  have htold : (∃ r ∈ childReports o n, True) ↔ childReports o n ≠ [] := by
    simp [List.eq_nil_iff_forall_not_mem]
  refine ⟨b₂, ?_, hconfined.trans (hswept.confined.congr htold), ?_, hswept.done, ?_⟩
  · rw [levelReports_eq, List.foldlM_append, hcontent]
    exact hfold
  · rcases hnil : childReports o n with _ | ⟨r, rs⟩
    · exact (hswept.quiet (by simp [hnil])).trans hentry
    · refine (hswept.shown ⟨r, by simp [hnil], trivial⟩).trans ?_
      rw [show (id b₁).noted x.bare = b₁.noted x.bare from rfl, hentry]
      rfl
  · exact fun hy hc hyc hnot => noted_of_childReports_swept ho hn hx hxo hxn hswept hbelow hy hc hyc hnot

end Level

/-! ## Comparing -/

/-- The last report about an element adds to the flags of the reports before: in whatever order content, children
and differences further down were found, the note is the union of their flags. -/
theorem gained_fineGrained (e : Note) (content kids below : Bool) :
    (((e.gainedIf content Flags.content).gainedIf kids Flags.children).gainedIf below Flags.children).gained
        Flags.fineGrained =
      e.gained ((if content then Flags.content else ∅) ∪ (if kids || below then Flags.children else ∅) ∪
        Flags.fineGrained) := by
  cases content <;> cases kids <;> cases below <;> 
    simp only [gainedIf, if_true, Bool.false_eq_true, if_false, gained_gained] <;> rfl

/-- The outcome of comparing `x`, so many steps below the input: it tells whether the trees differ, what it reports
is confined to the element, and the law holds of every element that it comes to. The three belong together in the
induction: the answer decides about the last report of the parent, and being confined keeps the law of one child
true while the next ones are compared. -/
structure Compared (old new : Bodies) (limit depth : Nat) (x : Handle) (moved : Bool) (b b' : Builder)
    (differs : Bool) : Prop where
  /-- it tells whether the trees differ -/
  differs : differs = true ↔ Differs old new x
  /-- it is confined to the element -/
  confined : Confined b b' x.bare (Differs old new x)
  /-- the law holds -/
  law : ∀ {k y m}, Trail old new k x moved y m → depth + k ≤ limit →
    Law old new limit (depth + k) m y b'

/-- Comparing `x` comes to its outcome, if nothing is on record below it and at most a change of place for itself.
It is the induction hypothesis for the children of an element. -/
def Comparable (old new : Bodies) (limit fuel depth : Nat) (x : Handle) : Prop :=
  ∀ b m, Ready b x.bare → b.noted x.bare = shifted m →
    (∀ {y}, y.Follows simple → x.bare ∈ y.ancestors → b.noted y = none) →
    ∃ b' differs, compare old new limit fuel depth x b = .ok (b', differs) ∧
      Compared old new limit depth x m b b' differs

section Level

variable (ho : Arranged old) (hn : Arranged new) (hx : x.ParentDependent)
  (hxo : Table.get? old x = some o) (hxn : Table.get? new x = some n)

include ho hn hx hxo hxn

omit hxo in
/-- **The loop over common children** brings each of them under the law. A child that has not been opened is passed
over and keeps its note; any other is compared, and what its comparison leaves is untouched by those of its
siblings. -/
theorem commonChildren_swept (hb : Ready b x.bare) (hown : Modest (b.noted x.bare))
    (hcommon : ∀ c ∈ commonChildren o n, b.noted c.bare = shifted (decide (c ∈ reordered o n)) ∧
      ∀ {y}, y.Follows simple → c.bare ∈ y.ancestors → b.noted y = none)
    (hcomparable : ∀ c ∈ commonChildren o n, Comparable old new limit fuel (depth + 1) c) :
    ∃ q, (commonChildren o n).foldlM (compareChild old new limit fuel (depth + 1)) (b, false) = .ok q ∧
      Swept Prod.fst Prod.snd Handle.bare (fun c => isUnopened old new c = false ∧ Differs old new c)
        (fun c b => (isUnopened old new c = true → b.noted c.bare = shifted (decide (c ∈ reordered o n))) ∧
          (isUnopened old new c = false → ∀ {k y m}, Trail old new k c (decide (c ∈ reordered o n)) y m →
            depth + 1 + k ≤ limit → Law old new limit (depth + 1 + k) m y b))
        x.bare (commonChildren o n) (b, false) q := by
  have hchild : ∀ c ∈ commonChildren o n, c.ParentDependent ∧ c.bare.parent? = some x.bare :=
    fun c hc => hn.child hx hxn (mem_commonChildren hc)
  refine loop_confined Prod.fst hb hown (fun c hc => ?_) ?_ (fun c hc b₁ b₂ hdone hsame => ?_)
    fun c hc q hq hsame => ?_
  · exact ⟨(hchild c hc).1.follows_bare, (hchild c hc).2⟩
  · exact (hn.apart_bare hxn).sublist List.filter_sublist
  · -- all that the law of an element below the child speaks of is below the child
    obtain ⟨hcd, -⟩ := hchild c hc
    refine ⟨fun hun => (hsame hcd.follows_bare (under_refl _)).trans (hdone.1 hun),
      fun hopened {k y m} htrail hle => (hdone.2 hopened htrail hle).congr ho hn (htrail.under hn hcd).1
        fun hz hzy => hsame hz (hzy.trans (htrail.under hn hcd).2)⟩
  · obtain ⟨hcd, hcp⟩ := hchild c hc
    have hentry := (hsame hcd.follows_bare (under_refl _)).trans (hcommon c hc).1
    rw [compareChild]
    rcases hopened : isUnopened old new c with _ | _
    · obtain ⟨b', differs, hcompare, hcompared⟩ := hcomparable c hc q.1 _ hq hentry
        fun hy hcy => (hsame hy (under_of_mem hcy)).trans ((hcommon c hc).2 hy hcy)
      refine ⟨(b', q.2 || differs), ?_, ?_, hcompared.confined.congr (by simp), by simp,
        fun _ => hcompared.law⟩
      · rw [hcompare]
        rfl
      · rw [Bool.or_eq_true, hcompared.differs]
        simp
    · exact ⟨q, rfl, by simp, .refl hq.regular (by simp), fun _ => hentry, by simp⟩

/-- The children that are there on both sides, and those that are not, make up all: children differ if there is
something to report about them, or if the trees below a common child that was opened differ. -/
theorem childrenDiffer_iff :
    ChildrenDiffer old new o n ↔
      childReports o n ≠ [] ∨ ∃ c ∈ commonChildren o n, isUnopened old new c = false ∧ Differs old new c := by
  have hsame := childReports_eq_nil_iff ho hn hx hxo hxn
  by_cases hnil : childReports o n = []
  · have hod : ∀ k ∈ o.children, k.ParentDependent := fun k hk => (ho.child hx hxo hk).1
    have hnd : ∀ k ∈ n.children, k.ParentDependent := fun k hk => (hn.child hx hxn hk).1
    have heq := (sameChildren_iff hod hnd).mp (hsame.mp hnil)
    rw [ChildrenDiffer, commonChildren_of_eq heq, hsame.mp hnil]
    simp [hnil]
  · have hdiffer : sameChildren o.children n.children = false := by
      rwa [hsame, Bool.not_eq_true] at hnil
    simp [ChildrenDiffer, hdiffer, hnil]

/-- After the reports of one level a common child has at most a change of place on record, and nothing below it:
just what its own comparison asks for. -/
theorem noted_common (hdone : ∀ r ∈ childReports o n, b.noted r.element.bare = r.call? ∧
      ∀ {y}, y.Follows simple → r.element.bare ∈ y.ancestors → b.noted y = none)
    (hrest : ∀ {c y}, y.Follows simple → c.parent? = some x.bare → y.Under c →
      (∀ r ∈ childReports o n, r.element.bare ≠ c) → b.noted y = none) (hc : c ∈ commonChildren o n) :
    b.noted c.bare = shifted (decide (c ∈ reordered o n)) ∧
      ∀ {y}, y.Follows simple → c.bare ∈ y.ancestors → b.noted y = none := by
  obtain ⟨hcn, hco⟩ := (mem_commonChildren_iff ho hn hx hxo hxn).mp hc
  obtain ⟨hcd, hcp⟩ := hn.child hx hxn hcn
  by_cases hmoved : c ∈ reordered o n
  · have hr : Report.changed c Flags.reorder ∈ childReports o n :=
      (mem_childReports ho hn hx hxo hxn).mpr (.inr (.inr ⟨c, hmoved, rfl⟩))
    rw [decide_eq_true hmoved]
    exact hdone _ hr
  · -- the child is not among those reported about
    have hnot : ∀ r ∈ childReports o n, r.element.bare ≠ c.bare := by
      intro r hr heq
      rcases (mem_childReports ho hn hx hxo hxn).mp hr with ⟨k, hk, rfl⟩ | ⟨k, hk, rfl⟩ | ⟨k, hk, rfl⟩
      · exact hk.2 (heq.symm ▸ List.mem_map_of_mem hcn)
      · exact hk.2 (heq.symm ▸ hco)
      · have hkc : k = c := List.inj_on_of_nodup_map (hn.nodup hxn) (mem_reordered hk) hcn heq
        exact hmoved (hkc ▸ hk)
    rw [decide_eq_false hmoved]
    exact ⟨hrest hcd.follows_bare hcp (under_refl _) hnot,
      fun hy hcy => hrest hy hcp (under_of_mem hcy) hnot⟩

/-- **The law of an element above the limit**, from what its own note is and what the loops left below. The builder
is followed through three stages: after the reports of the level, after the loop over common children, and after the
last report. Each child is settled at one stage and left alone by the later ones. -/
theorem law_level (hlimit : depth < limit) {b₁ b₂ b₃ : Builder}
    (hagreeing : ¬ Differs old new x → b₃.noted x.bare = shifted m)
    (hfine : Differs old new x → ∃ kids : Bool, (kids = true ↔ ChildrenDiffer old new o n) ∧
      b₃.noted x.bare = (shifted m).gained ((if n.contentDiffers o then Flags.content else ∅) ∪
        (if kids then Flags.children else ∅) ∪ Flags.fineGrained))
    (hdone : ∀ r ∈ childReports o n, b₁.noted r.element.bare = r.call?)
    (hrest : ∀ {c}, c.Follows simple → c.parent? = some x.bare →
      (∀ r ∈ childReports o n, r.element.bare ≠ c) → b₁.noted c = none)
    (hbeside : ∀ {c}, c.Follows simple → c.parent? = some x.bare →
      (∀ k ∈ commonChildren o n, k.bare ≠ c) → b₂.noted c = b₁.noted c)
    (hunopened : ∀ c ∈ commonChildren o n, isUnopened old new c = true →
      b₂.noted c.bare = shifted (decide (c ∈ reordered o n)))
    (hbelow : ∀ {c}, c.Follows simple → c.parent? = some x.bare → b₃.noted c = b₂.noted c) :
    Law old new limit depth m x b₃ := by
  have hcommon := @mem_commonChildren_iff old new x
  have hboth : ∀ {o' n'}, Table.get? old x = some o' → Table.get? new x = some n' → o' = o ∧ n' = n :=
    fun ho' hn' => ⟨Option.some.inj (ho'.symm.trans hxo), Option.some.inj (hn'.symm.trans hxn)⟩
  refine ⟨hagreeing, fun hnone => ?_, fun _ hnone => ?_, fun _ _ hle => absurd hle (by omega),
    fun ho' hn' _ hdiffers => ?_, fun ho' hn' _ hc hgone => ?_, fun ho' hn' _ hc hcome => ?_,
    fun ho' hn' _ hc hun => ?_, fun {c} hc hp hother => ?_⟩
  · cases hxo.symm.trans hnone
  · cases hxn.symm.trans hnone
  all_goals try obtain ⟨rfl, rfl⟩ := hboth ho' hn'
  · exact hfine hdiffers
  · obtain ⟨hcd, hcp⟩ := ho.child hx hxo hc
    rw [hbelow hcd.follows_bare hcp, hbeside hcd.follows_bare hcp fun k hk heq => ?_]
    · exact hdone _ ((mem_childReports ho hn hx hxo hxn).mpr (.inl ⟨_, ⟨hc, hgone⟩, rfl⟩))
    · exact hgone (heq ▸ List.mem_map_of_mem (mem_commonChildren hk))
  · obtain ⟨hcd, hcp⟩ := hn.child hx hxn hc
    rw [hbelow hcd.follows_bare hcp, hbeside hcd.follows_bare hcp fun k hk heq => ?_]
    · exact hdone _ ((mem_childReports ho hn hx hxo hxn).mpr (.inr (.inl ⟨_, ⟨hc, hcome⟩, rfl⟩)))
    · exact hcome (heq ▸ (hcommon ho hn hx hxo hxn |>.mp hk).2)
  · obtain ⟨hcd, hcp⟩ := hn.child hx hxn (mem_commonChildren hc)
    rw [hbelow hcd.follows_bare hcp]
    exact hunopened _ hc hun
  · obtain ⟨hno, hnn⟩ := hother hxo hxn hlimit
    rw [hbelow hc hp, hbeside hc hp fun k hk heq => hnn (heq ▸ List.mem_map_of_mem (mem_commonChildren hk))]
    refine hrest hc hp fun r hr heq => ?_
    rcases (mem_childReports ho hn hx hxo hxn).mp hr with ⟨k, hk, rfl⟩ | ⟨k, hk, rfl⟩ | ⟨k, hk, rfl⟩
    · exact hno (heq ▸ List.mem_map_of_mem hk.1)
    · exact hnn (heq ▸ List.mem_map_of_mem hk.1)
    · exact hnn (heq ▸ List.mem_map_of_mem (mem_reordered hk))

/-- The law holds along every trail from an element if it holds of the element itself and along the trails from its
children, and if nothing below the element has changed since its children were settled. -/
theorem law_trail {b₂ b₃ : Builder} (hlaw : Law old new limit depth m x b₃)
    (hkids : ∀ c ∈ commonChildren o n, isUnopened old new c = false →
      ∀ {k y m'}, Trail old new k c (decide (c ∈ reordered o n)) y m' → depth + 1 + k ≤ limit →
        Law old new limit (depth + 1 + k) m' y b₂)
    (hsame : ∀ {y}, y.Follows simple → x.bare ∈ y.ancestors → b₃.noted y = b₂.noted y)
    (htrail : Trail old new k x m y m') (hle : depth + k ≤ limit) :
    Law old new limit (depth + k) m' y b₃ := by
  cases htrail with
  | here => exact hlaw
  | @down k _ c _ _ _ o' n' ho' hn' hc hopened rest =>
    obtain rfl : o' = o := Option.some.inj (ho'.symm.trans hxo)
    obtain rfl : n' = n := Option.some.inj (hn'.symm.trans hxn)
    obtain ⟨hcd, hcp⟩ := hn.child hx hxn (mem_commonChildren hc)
    obtain ⟨hyd, hyc⟩ := rest.under hn hcd
    have hstep : depth + (k + 1) = depth + 1 + k := by omega
    rw [hstep] at hle ⊢
    apply (hkids c hc hopened rest hle).congr ho hn hyd
    exact fun hz hzy => hsame hz ((hzy.trans hyc).mem_ancestors hcp)

/-- What a comparison has found once both loops are over, if the second one tells whether it found something: there
are reports about children or differences below them exactly if children differ, and with the content of the element
exactly if the trees differ. -/
theorem found_iff {below : Bool} (hbelow : below = true ↔
      ∃ c ∈ commonChildren o n, isUnopened old new c = false ∧ Differs old new c) :
    ((!(childReports o n).isEmpty || below) = true ↔ ChildrenDiffer old new o n) ∧
      ((n.contentDiffers o = true ∨ childReports o n ≠ []) ∨ below = true ↔ Differs old new x) ∧
      ((!(levelReports x o n).isEmpty || below) = true ↔ Differs old new x) := by
  have hdiffers : (n.contentDiffers o = true ∨ childReports o n ≠ []) ∨ below = true ↔ Differs old new x := by
    rw [differs_iff hxo hxn, childrenDiffer_iff ho hn hx hxo hxn, hbelow, or_assoc]
  refine ⟨?_, hdiffers, ?_⟩
  · rw [childrenDiffer_iff ho hn hx hxo hxn, Bool.or_eq_true, hbelow]
    simp
  · rw [← hdiffers, levelReports_eq, Bool.or_eq_true]
    cases n.contentDiffers o <;> simp

/-- **Above the limit**, the comparison of an element with bodies on both sides comes to its outcome if those of its
children do. This is the induction step. -/
theorem comparable_level (hlimit : depth < limit)
    (hcomparable : ∀ c ∈ commonChildren o n, Comparable old new limit fuel (depth + 1) c) :
    Comparable old new limit (fuel + 1) depth x := by
  intro b m hb hown hfresh
  have hxf := hx.follows_bare
  obtain ⟨b₁, hfold₁, hconfined₁, hentry₁, hdone₁, hrest₁⟩ := levelReports_law ho hn hx hxo hxn hb hown hfresh
  have hmodest₁ : Modest (b₁.noted x.bare) :=
    hentry₁ ▸ modest_gainedIf (modest_gainedIf (modest_shifted m) _ _) _ _
  obtain ⟨⟨b₂, below⟩, hfold₂, hswept⟩ := commonChildren_swept ho hn hx hxn (hconfined₁.ready hxf hb) hmodest₁
    (fun c hc => noted_common ho hn hx hxo hxn hdone₁ hrest₁ hc) hcomparable
  -- whether anything was found, and what is on record for the element then
  have hbelow : below = true ↔
      ∃ c ∈ commonChildren o n, isUnopened old new c = false ∧ Differs old new c := by
    simpa using hswept.noticed
  obtain ⟨hkids, hdiffers, hfound⟩ := found_iff ho hn hx hxo hxn hbelow
  have hconfined₂ : Confined b b₂ x.bare (Differs old new x) :=
    (hconfined₁.trans hswept.confined).congr (by rw [← hbelow]; exact hdiffers)
  have hentry₂ : b₂.noted x.bare = (b₁.noted x.bare).gainedIf below Flags.children := by
    rcases hb₂ : below with _ | _
    · exact hswept.quiet fun h => by simp [hbelow.mpr h] at hb₂
    · exact hswept.shown (hbelow.mp hb₂)
  -- in what the two loops left, the last report only touches the element itself
  have hlaw : ∀ {b₃ : Builder}, (¬ Differs old new x → b₃.noted x.bare = shifted m) →
      (Differs old new x → b₃.noted x.bare = (b₂.noted x.bare).gained Flags.fineGrained) →
      (∀ {y}, y.Follows simple → x.bare ∈ y.ancestors → b₃.noted y = b₂.noted y) →
      ∀ {k y m'}, Trail old new k x m y m' → depth + k ≤ limit →
        Law old new limit (depth + k) m' y b₃ := by
    intro b₃ hagreeing hfine hsame k y m' htrail hle
    refine law_trail ho hn hx hxo hxn ?_ (fun c hc => (hswept.done c hc).2) hsame htrail hle
    refine law_level ho hn hx hxo hxn hlimit hagreeing (fun hd => ⟨_, hkids, ?_⟩)
      (fun r hr => (hdone₁ r hr).1) (fun hc hp => hrest₁ hc hp (under_refl _))
      (fun hc hp => hswept.beside_child (fun k hk => (hn.child hx hxn (mem_commonChildren hk)).2) hc hp
        (under_refl _)) (fun c hc => (hswept.done c hc).1) fun hc hp => hsame hc ((under_refl _).mem_ancestors hp)
    rw [hfine hd, hentry₂, hentry₁]
    exact gained_fineGrained (shifted m) _ _ below
  rw [compare_level hxo hxn (by omega), hfold₁]
  simp only [bind, Except.bind, hfold₂, conclude]
  by_cases hd : Differs old new x
  · obtain ⟨b₃, hreport, hconfined₃, hentry₃, hsame₃⟩ := report_changed hx (hconfined₂.ready hxf hb)
      (hentry₂ ▸ modest_gainedIf hmodest₁ _ _) Flags.fineGrained
    rw [if_pos (hfound.mpr hd), hreport]
    refine ⟨b₃, true, rfl, by simp [hd], (hconfined₂.trans hconfined₃).congr (by simp [hd]), ?_⟩
    exact hlaw (fun h => absurd hd h) (fun _ => hentry₃) hsame₃
  · rw [if_neg (mt hfound.mp hd)]
    refine ⟨b₂, false, rfl, by simp [hd], hconfined₂,
      hlaw (fun _ => ?_) (fun h => absurd h hd) fun _ _ => rfl⟩
    have hnone := mt hdiffers.mp hd
    simp only [not_or, Bool.not_eq_true, not_not] at hnone
    rw [hentry₂, hentry₁, hnone.1.1, hnone.1.2, hnone.2]
    rfl

end Level

/-- **The law of an element whose children are not looked at**: it stands at the limit, or has a body on one side
only. All there is on record is its own note, and nothing below it. -/
theorem law_alone (hnot : ∀ {o n}, Table.get? old x = some o → Table.get? new x = some n → ¬ depth < limit)
    (hagreeing : ¬ Differs old new x → b.noted x.bare = shifted m)
    (happeared : Table.get? old x = none → ∀ {n}, Table.get? new x = some n →
      b.noted x.bare = some (.added, ∅))
    (hvanished : ∀ {o}, Table.get? old x = some o → Table.get? new x = none →
      b.noted x.bare = some (.removed, ∅))
    (hcoarse : ∀ {o n}, Table.get? old x = some o → Table.get? new x = some n → Differs old new x →
      b.noted x.bare = (shifted m).gained Flags.content)
    (hbelow : ∀ {y}, y.Follows simple → x.bare ∈ y.ancestors → b.noted y = none) :
    Law old new limit depth m x b :=
  ⟨hagreeing, happeared, hvanished, fun ho hn _ => hcoarse ho hn,
    fun ho hn hlt => absurd hlt (hnot ho hn), fun ho hn hlt => absurd hlt (hnot ho hn),
    fun ho hn hlt => absurd hlt (hnot ho hn), fun ho hn hlt => absurd hlt (hnot ho hn),
    fun hc hp _ => hbelow hc ((under_refl _).mem_ancestors hp)⟩

/-- Where one does not get any further, the law of the element itself is all there is to it: a trail from there has
no steps. -/
theorem forall_trail (hnot : ∀ {o n}, Table.get? old x = some o → Table.get? new x = some n → ¬ depth < limit)
    (hlaw : Law old new limit depth m x b) (htrail : Trail old new k x m y m') (hle : depth + k ≤ limit) :
    Law old new limit (depth + k) m' y b := by
  cases htrail with
  | here => exact hlaw
  | down ho hn => exact absurd (by omega) (hnot ho hn)

/-- The outcome of a comparison that made one report, about the element itself, and did not go further. -/
theorem compared_alone (hnot : ∀ {o n}, Table.get? old x = some o → Table.get? new x = some n → ¬ depth < limit)
    (hd : Differs old new x) (hconfined : Confined b b' x.bare True)
    (happeared : Table.get? old x = none → ∀ {n}, Table.get? new x = some n →
      b'.noted x.bare = some (.added, ∅))
    (hvanished : ∀ {o}, Table.get? old x = some o → Table.get? new x = none →
      b'.noted x.bare = some (.removed, ∅))
    (hcoarse : ∀ {o n}, Table.get? old x = some o → Table.get? new x = some n → Differs old new x →
      b'.noted x.bare = (shifted m).gained Flags.content)
    (hbelow : ∀ {y}, y.Follows simple → x.bare ∈ y.ancestors → b'.noted y = none) :
    Compared old new limit depth x m b b' true where
  differs := by simp [hd]
  confined := hconfined.congr (by simp [hd])
  law := forall_trail hnot (law_alone hnot (absurd hd) happeared hvanished hcoarse hbelow)

/-- **Where one does not get any further**, a comparison comes to its outcome with one report at most: the element
came or went, or it stands at the limit and the trees differ. -/
theorem comparable_alone (ho : Arranged old) (hn : Arranged new) (hx : x.ParentDependent)
    (hnot : ∀ {o n}, Table.get? old x = some o → Table.get? new x = some n → ¬ depth < limit) :
    Comparable old new limit (fuel + 1) depth x := by
  intro b m hb hown hfresh
  have hmodest : Modest (b.noted x.bare) := hown ▸ modest_shifted m
  have hquiet : ¬ Differs old new x → Compared old new limit depth x m b b false := fun hsame => by
    refine ⟨by simp [hsame], .refl hb.regular hsame, forall_trail hnot (law_alone hnot (fun _ => hown)
      (fun ho _ hn => ?_) (fun ho hn => ?_) (fun _ _ hd => absurd hd hsame) hfresh)⟩
    · exact absurd (.appeared ho hn) hsame
    · exact absurd (.vanished ho hn) hsame
  rcases hxo : Table.get? old x with _ | o <;> rcases hxn : Table.get? new x with _ | n
  · exact ⟨b, false, by rw [compare, hxo, hxn], hquiet (not_differs_of_none hxo hxn)⟩
  · obtain ⟨b', hreport, hconfined, hentry, hbelow⟩ := report_whole (r := .added x) hx rfl
      ⟨rfl, rfl, rfl, rfl⟩ rfl hb hmodest
    refine ⟨b', true, by rw [compare, hxo, hxn]; simp only [hreport]; rfl, compared_alone hnot
      (.appeared hxo hxn) hconfined (fun _ _ _ => hentry) (fun ho _ => ?_) (fun ho _ => ?_) hbelow⟩
    all_goals cases hxo.symm.trans ho
  · obtain ⟨b', hreport, hconfined, hentry, hbelow⟩ := report_whole (r := .removed x) hx rfl
      ⟨rfl, rfl, rfl, rfl⟩ rfl hb hmodest
    refine ⟨b', true, by rw [compare, hxo, hxn]; simp only [hreport]; rfl, compared_alone hnot
      (.vanished hxo hxn) hconfined (fun _ _ hn => ?_) (fun _ _ => hentry) (fun _ hn => ?_) hbelow⟩
    all_goals cases hxn.symm.trans hn
  · rw [compare_limit hxo hxn (Nat.not_lt.mp (hnot hxo hxn))]
    have htree := treeDiffers_iff ho hn hx hxo hxn (Nat.le_succ_of_le (levels_le old x))
    by_cases hd : Differs old new x
    · obtain ⟨b', hreport, hconfined, hentry, hbelow⟩ := report_changed hx hb hmodest Flags.content
      rw [if_pos (htree.mpr hd), hreport]
      refine ⟨b', true, rfl, compared_alone hnot hd hconfined (fun ho => ?_) (fun _ hn => ?_)
        (fun _ _ _ => hown ▸ hentry) fun hy hxy => (hbelow hy hxy).trans (hfresh hy hxy)⟩
      · cases hxo.symm.trans ho
      · cases hxn.symm.trans hn
    · rw [if_neg (mt htree.mp hd)]
      exact ⟨b, false, rfl, hquiet hd⟩

/-- **Every comparison** comes to its outcome, if there is fuel for all levels. By induction on the fuel: each step
down leaves fewer levels below, so the fuel lasts wherever there is still a body to compare. -/
theorem comparable (ho : Arranged old) (hn : Arranged new) (hx : x.ParentDependent)
    (hfuel : levels old x < fuel) : Comparable old new limit fuel depth x := by
  induction fuel generalizing x depth with
  | zero => omega
  | succ fuel ih =>
    by_cases hdeep : ∃ o n, Table.get? old x = some o ∧ Table.get? new x = some n ∧ depth < limit
    · obtain ⟨o, n, hxo, hxn, hlimit⟩ := hdeep
      apply comparable_level ho hn hx hxo hxn hlimit
      intro c hc
      obtain ⟨hcd, hcp⟩ := hn.child hx hxn (mem_commonChildren hc)
      have := ho.levels_lt hx hxo hcp
      exact ih hcd (by omega)
    · exact comparable_alone ho hn hx fun hxo hxn hlt => hdeep ⟨_, _, hxo, hxn, hlt⟩

end CodeModel.Recorder
