import CodeModel.Proofs.Delta.Alike
import CodeModel.Proofs.Delta.StepLaw

/-!
# Reports that commute

An observer that walks a model in some order reports what it meets in that order. Two reports that have
nothing to do with each other may come either way.

* Reports about elements **beside** each other commute: each of them is taken in or refused as if it had
  come first, and the trees are the same up to the order of siblings (`reports_commute`). The paths of the
  two may share nodes; below the last one that they share they end in different children.
* Two **changes** of one element commute as well, since flags are joined.

The step is to register two children (`alike_addChild_addChild`); the run goes down the shared nodes.
-/

namespace CodeModel

open Handle

namespace Delta

variable {lex : Lexicon} {e : Handle} {c d i j s t : Delta} {path other : List Handle}

/-! ## Two children -/

/-- **Two children registered** in either order leave alike trees behind, if two reports about one child do.
Different children do not disturb each other, so all that the order decides is where they are listed. -/
theorem alike_addChild_addChild (hd : Sound lex d) (hs : Fits lex d.element s) (ht : Fits lex d.element t)
    (hsame : s.element = t.element → ∀ o : Option Delta,
      (∀ k ∈ o, Sound lex k ∧ k.element = s.element) →
        Option.Rel Alike (settled t (settled s o)) (settled s (settled t o))) :
    Alike ((d.addChild s).addChild t) ((d.addChild t).addChild s) := by
  rcases hw : d.isWhole with _ | _
  · have hws : (d.addChild s).isWhole = false := by rw [isWhole, status_addChild hw]; rfl
    have hwt : (d.addChild t).isWhole = false := by rw [isWhole, status_addChild hw]; rfl
    have hds := hd.addChild hs
    have hdt := hd.addChild ht
    refine (alike_iff (hds.addChild ((element_addChild d s).symm ▸ ht))
      (hdt.addChild ((element_addChild d t).symm ▸ hs))).mpr ⟨?_, fun x hx => ?_⟩
    · rw [node_addChild hws, node_addChild hwt, addChild_of_not_whole hw, addChild_of_not_whole hw]
      rfl
    · rw [element_addChild, element_addChild] at hx
      have hsib := hd.tidy.siblings
      rw [about?_addChild hws (siblings_addChild hw hsib hs.belongs) ht.belongs hx,
        about?_addChild hwt (siblings_addChild hw hsib ht.belongs) hs.belongs hx,
        about?_addChild hw hsib hs.belongs hx, about?_addChild hw hsib ht.belongs hx]
      by_cases hxs : x = s.element <;> by_cases hxt : x = t.element
      · rw [if_pos hxt, if_pos hxs, if_pos hxs, if_pos hxt]
        exact hsame (hxs.symm.trans hxt) _ fun k hk =>
          ⟨hd.child (mem_of_about? hk), (hsib.element_of_about? hx hk).trans hxs⟩
      · simpa only [if_neg hxt, if_pos hxs] using optionRel_refl _
      · simpa only [if_pos hxt, if_neg hxs] using optionRel_refl _
      · simpa only [if_neg hxt, if_neg hxs] using optionRel_refl _
  · -- an element that came or went as a whole takes neither
    rw [addChild_of_whole hw, addChild_of_whole hw, addChild_of_whole hw]
    exact .refl d

/-! ## Two paths -/

/-- Changes of one child leave alike reports behind in either order, if they do so when something was
reported before. -/
theorem settled_changes (he : e.Follows lex) (hs : s.status = .changed) (ht : t.status = .changed)
    (h : ∀ k, Sound lex k → k.element = e →
      Alike ((k.composeOrReset s).composeOrReset t) ((k.composeOrReset t).composeOrReset s))
    {o : Option Delta} (ho : ∀ k ∈ o, Sound lex k ∧ k.element = e) :
    Option.Rel Alike (settled t (settled s o)) (settled s (settled t o)) := by
  have hprior := sound_getD he ho
  rw [settled_of_changed he hs, settled_of_changed he ht, settled_of_changed he ht,
    settled_of_changed he hs, Option.getD_some, Option.getD_some]
  exact .some (h _ hprior.1 hprior.2)

/-- **One step down two paths**: reports that go on through different children commute, and so do changes that go on
through one child if they do below it. -/
theorem alike_spines_cons {x : Handle} {rest : List Handle} (hd : Sound lex d) (hi : Leaf i) (hj : Leaf j)
    (hif : i.element.Follows lex) (hjf : j.element.Follows lex)
    (hpath : Leads d.element (e :: rest) i.element) (hother : Leads d.element (x :: other) j.element)
    (hsame : e = x → (spine i e rest).status = .changed ∧ (spine j x other).status = .changed ∧
      ∀ k, Sound lex k → k.element = e →
        Alike ((k.composeOrReset (spine i e rest)).composeOrReset (spine j x other))
          ((k.composeOrReset (spine j x other)).composeOrReset (spine i e rest))) :
    Alike
      ((d.composeOrReset (spine i d.element (e :: rest))).composeOrReset (spine j d.element (x :: other)))
      ((d.composeOrReset (spine j d.element (x :: other))).composeOrReset
        (spine i d.element (e :: rest))) := by
  have hs : Fits lex d.element (spine i e rest) := .spine hi hif hpath
  have ht : Fits lex d.element (spine j x other) := .spine hj hjf hother
  obtain ⟨-, hrest⟩ := hpath.of_cons
  obtain ⟨-, hother⟩ := hother.of_cons
  -- composing the two spines in registers two children
  have hsecond := composeOrReset_spine_cons (i := j) (e := x) (r := other) (hd.addChild hs).tidy
  have hsecond' := composeOrReset_spine_cons (i := i) (e := e) (r := rest) (hd.addChild ht).tidy
  rw [element_addChild] at hsecond hsecond'
  rw [composeOrReset_spine_cons hd.tidy, composeOrReset_spine_cons hd.tidy, hsecond, hsecond']
  refine alike_addChild_addChild hd hs ht fun heq o ho => ?_
  rw [element_spine hrest, element_spine hother] at heq
  rw [element_spine hrest] at ho
  obtain ⟨hstatus, hstatus', hbelow⟩ := hsame heq
  exact settled_changes (hrest.follows hif) hstatus hstatus' hbelow ho

/-- **Reports whose paths diverge** commute. By induction on the paths: as long as they share a node both reports
make it a change with other children, and where they part they go through different children. -/
theorem alike_spines (hd : Sound lex d) (hi : Leaf i) (hj : Leaf j) (hif : i.element.Follows lex)
    (hjf : j.element.Follows lex) (hpath : Leads d.element path i.element)
    (hother : Leads d.element other j.element) (hdiverge : Diverge path other) :
    Alike ((d.composeOrReset (spine i d.element path)).composeOrReset (spine j d.element other))
      ((d.composeOrReset (spine j d.element other)).composeOrReset (spine i d.element path)) := by
  induction path generalizing d other with
  | nil => exact absurd List.nil_prefix hdiverge.1
  | cons e rest ih =>
    cases other with
    | nil => exact absurd List.nil_prefix hdiverge.2
    | cons x other =>
      refine alike_spines_cons hd hi hj hif hjf hpath hother fun heq => ?_
      subst heq
      -- the paths diverge further down, so neither of them ends here
      have hbelow := hdiverge.of_cons
      obtain ⟨⟨a, as, rfl⟩, b, bs, rfl⟩ := hbelow.exists_cons
      refine ⟨rfl, rfl, fun k hk hke => ?_⟩
      subst hke
      exact ih hk hpath.of_cons.2 hother.of_cons.2 hbelow

/-- Two changes of a node itself come to one, which has the flags of both. -/
theorem composeOrReset_changes (hd : Tidy lex d) (f g : Flags) :
    (d.composeOrReset { element := d.element, status := .changed, flags := f }).composeOrReset
        { element := d.element, status := .changed, flags := g } =
      d.composeOrReset { element := d.element, status := .changed, flags := f ∪ g } := by
  rcases hs : d.status with _ | _ | _ | _
  · rw [hd.blank hs]
    simp [composeOrReset, compose_eq, composeNode, joinNode]
  all_goals simp [composeOrReset, compose_eq, composeNode, joinNode, hs, Flags.union_assoc]

/-- **Two changes** of one element commute. Along the whole path both make changes, and at its end flags are joined,
which can be done in either order. -/
theorem alike_changes (f g : Flags) (hd : Sound lex d) (he : e.Follows lex)
    (hpath : Leads d.element path e) :
    let i := (Report.changed e f).toDelta
    let j := (Report.changed e g).toDelta
    Alike ((d.composeOrReset (spine i d.element path)).composeOrReset (spine j d.element path))
      ((d.composeOrReset (spine j d.element path)).composeOrReset (spine i d.element path)) := by
  intro i j
  induction path generalizing d with
  | nil =>
    obtain rfl := hpath.eq_of_nil
    simp only [spine, i, j, Report.toDelta]
    rw [composeOrReset_changes hd.tidy, composeOrReset_changes hd.tidy, Flags.union_comm]
    exact .refl _
  | cons x rest ih =>
    have hstatus : ∀ h : Flags, (spine (Report.changed e h).toDelta x rest).status = .changed := fun h => by
      cases rest <;> rfl
    refine alike_spines_cons hd (leaf_toDelta _) (leaf_toDelta _) he he hpath hpath fun _ =>
      ⟨hstatus f, hstatus g, fun k hk hke => ?_⟩
    subst hke
    exact ih hk hpath.of_cons.2

end Delta

/-! ## Two reports -/

namespace Builder

open Delta

variable {lex : Lexicon} {root : Handle} {b b' : Builder} {r s : Report} {rs : List Report}

/-- What comes of a report: it is taken in, or refused for some reason. -/
def outcome (b : Builder) (r : Report) : Except Error Unit := (b.report r).map fun _ => ()

/-- **Two reports commute**: neither makes a difference to what comes of the other one, and the trees left behind
are the same up to the order of siblings. The order of siblings is all that may differ, as a child is listed when
something is first reported about it. -/
structure Commute (b : Builder) (r s : Report) : Prop where
  /-- the one comes out the same before and after the other -/
  first : (b.reportAll [s]).outcome r = b.outcome r
  /-- so does the other -/
  second : (b.reportAll [r]).outcome s = b.outcome s
  /-- both orders leave alike trees behind -/
  delta : Alike (b.reportAll [r, s]).delta (b.reportAll [s, r]).delta

/-- It is the root alone that says whether a report is taken in, as long as it attaches no markers. So two builders
with one root refuse the same reports, whatever was reported before. -/
theorem outcome_of_root (hm : r.attachesMarkers = false) (h : b.delta.element = b'.delta.element) :
    b.outcome r = b'.outcome r := by
  rw [outcome, outcome, report_eq_insert hm, report_eq_insert hm, insert, insert, h]
  cases pathBelow? b'.delta.element r.toDelta.element <;> rfl

/-- A report from outside the tree has no effect: it is refused, and a refused call leaves the builder as it was. -/
theorem reportAll_of_outside (hb : Sound lex b.delta) (hr : r.element.Follows lex)
    (hm : r.attachesMarkers = false) (hout : r.element.isWithin b.delta.element = false) :
    b.reportAll [r] = b := by
  rw [reportAll, List.foldl_cons, report_of_outside hb hr hm hout]
  rfl

/-- A report from within the tree is composed in as the end of a spine. -/
theorem delta_reportAll {path : List Handle} (hb : Sound lex b.delta) (hr : r.element.Follows lex)
    (hm : r.attachesMarkers = false) (h : Leads b.delta.element path r.element) :
    (b.reportAll [r]).delta = b.delta.composeOrReset (spine r.toDelta b.delta.element path) := by
  rw [reportAll, List.foldl_cons, report_of_leads hb hr hm h,
    ← composeAlong_eq_compose hb (leaf_toDelta r).telling hr h]
  rfl

/-- Two reports from within the tree commute if their spines do. A report is the composition with its spine, so this
is a question about three trees, and no longer about builders. -/
theorem commute_of_spines {path other : List Handle} (hb : Sound lex b.delta)
    (hr : r.element.Follows lex) (hs : s.element.Follows lex) (hrm : r.attachesMarkers = false)
    (hsm : s.attachesMarkers = false) (hpath : Leads b.delta.element path r.element)
    (hother : Leads b.delta.element other s.element)
    (h : Alike
      ((b.delta.composeOrReset (spine r.toDelta b.delta.element path)).composeOrReset
        (spine s.toDelta b.delta.element other))
      ((b.delta.composeOrReset (spine s.toDelta b.delta.element other)).composeOrReset
        (spine r.toDelta b.delta.element path))) :
    b.Commute r s := by
  have hafter : ∀ q : Report, q.element.Follows lex →
      Sound lex (b.reportAll [q]).delta ∧ (b.reportAll [q]).delta.element = b.delta.element :=
    fun q hq => sound_reportAll hb (by simpa using hq)
  obtain ⟨hrb, hrel⟩ := hafter r hr
  obtain ⟨hsb, hsel⟩ := hafter s hs
  refine ⟨outcome_of_root hrm hsel, outcome_of_root hsm hrel, ?_⟩
  have hrs : (b.reportAll [r, s]).delta = ((b.reportAll [r]).reportAll [s]).delta := rfl
  have hsr : (b.reportAll [s, r]).delta = ((b.reportAll [s]).reportAll [r]).delta := rfl
  rw [hrs, hsr, delta_reportAll hrb hs hsm (hrel ▸ hother), delta_reportAll hsb hr hrm (hsel ▸ hpath),
    hrel, hsel, delta_reportAll hb hr hrm hpath, delta_reportAll hb hs hsm hother]
  exact h

/-- A report from outside the tree commutes with every other one, for it is refused before the other one as well as
after it, and leaves nothing behind. -/
theorem commute_of_outside (hb : Sound lex b.delta) (hr : r.element.Follows lex)
    (hs : s.element.Follows lex) (hrm : r.attachesMarkers = false)
    (hout : r.element.isWithin b.delta.element = false) : b.Commute r s ∧ b.Commute s r := by
  have hone : ∀ q ∈ [s], q.element.Follows lex := by simpa using hs
  obtain ⟨hsb, hsel⟩ := sound_reportAll hb hone
  have hnone := reportAll_of_outside hb hr hrm hout
  have hrs : b.reportAll [r, s] = b.reportAll [s] := by
    rw [show b.reportAll [r, s] = (b.reportAll [r]).reportAll [s] from rfl, hnone]
  have hsr : b.reportAll [s, r] = b.reportAll [s] := by
    rw [show b.reportAll [s, r] = (b.reportAll [s]).reportAll [r] from rfl,
      reportAll_of_outside hsb hr hrm (hsel ▸ hout)]
  refine ⟨⟨outcome_of_root hrm hsel, ?_, ?_⟩, ⟨?_, outcome_of_root hrm hsel, ?_⟩⟩
  · rw [hnone]
  · rw [hrs, hsr]
    exact .refl _
  · rw [hnone]
  · rw [hrs, hsr]
    exact .refl _

/-- **Independent reports commute**, whatever was reported before, and so do two changes of one element. Reports
from outside the tree are refused in either order; the paths of the others diverge, since neither element is above
the other. -/
theorem reports_commute (hroot : root.Follows lex) (hrs : ∀ r ∈ rs, r.element.Follows lex) :
    (∀ r s : Report, r.attachesMarkers = false → s.attachesMarkers = false → r.element.Follows lex →
      s.element.Follows lex → r.element.isBeside s.element = true →
        ((new root).reportAll rs).Commute r s) ∧
    ∀ (e : Handle) (f g : Flags), e.Follows lex →
      ((new root).reportAll rs).Commute (.changed e f) (.changed e g) := by
  have hnew : Sound lex (new root).delta := sound_new hroot
  obtain ⟨hb, -⟩ := sound_reportAll hnew hrs
  have hfollows := hb.tidy.follows
  refine ⟨fun r s hrm hsm hr hs hbeside => ?_, fun e f g he => ?_⟩
  · rcases hrw : r.element.isWithin ((new root).reportAll rs).delta.element with _ | _
    · exact (commute_of_outside hb hr hs hrm hrw).1
    · rcases hsw : s.element.isWithin ((new root).reportAll rs).delta.element with _ | _
      · exact (commute_of_outside hb hs hr hsm hsw).2
      · obtain ⟨path, hpath⟩ := (isWithin_iff hfollows hr).mp hrw
        obtain ⟨other, hother⟩ := (isWithin_iff hfollows hs).mp hsw
        exact commute_of_spines hb hr hs hrm hsm hpath hother
          (alike_spines hb (leaf_toDelta r) (leaf_toDelta s) hr hs hpath hother
            (diverge_of_isBeside hr hs hbeside hpath hother))
  · rcases hew : e.isWithin ((new root).reportAll rs).delta.element with _ | _
    · exact (commute_of_outside (r := .changed e f) (s := .changed e g) hb he he rfl hew).1
    · obtain ⟨path, hpath⟩ := (isWithin_iff hfollows he).mp hew
      exact commute_of_spines hb he he rfl rfl hpath hpath (alike_changes f g hb he hpath)

/-- Reports about declarations of one file: their order shows in the order of the siblings, and one of them
takes an addition back. -/
theorem reports_commute_in_one_file :
    let root := Handle.top { name := "Tree" } (some "t")
    let file := root.sub { name := "File", openable := true, parentIndependent := true } "f"
    let a := file.sub { name := "Leaf" } "a"
    let b := file.sub { name := "Leaf" } "b"
    let c := file.sub { name := "Leaf" } "c"
    let builder := (new root).reportAll [.added a]
    let resource : Report := .resource b ⟨"r", .added⟩
    let siblings (rs : List Report) :=
      (((builder.reportAll rs).delta.find? file).map (·.children.map (·.element))).getD []
    builder.Commute (.movedFrom c root) resource ∧ builder.Commute (.removed a) resource ∧
      builder.Commute (.changed file Flags.content) (.changed file Flags.reorder) ∧
      siblings [.movedFrom c root, resource] = [a, c, b] ∧
      siblings [resource, .movedFrom c root] = [a, b, c] ∧ siblings [resource, .removed a] = [b] := by
  intro root file a b c builder resource siblings
  let lex : Lexicon := fun name =>
    { name, openable := name == "File", parentIndependent := name == "File" }
  have hroot : root.Follows lex := by decide
  have hreports : ∀ r ∈ [Report.added a], r.element.Follows lex := by decide
  obtain ⟨hbeside, hsame⟩ := reports_commute hroot hreports
  exact ⟨hbeside _ _ rfl rfl (by decide) (by decide) (by decide),
    hbeside _ _ rfl rfl (by decide) (by decide) (by decide), hsame file _ _ (by decide),
    by decide, by decide, by decide⟩

end Builder

end CodeModel
