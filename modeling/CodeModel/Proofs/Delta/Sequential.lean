import CodeModel.Proofs.Delta.Bench
import CodeModel.Proofs.Delta.Commute

/-!
# Merging and reporting

A delta can be built for itself and merged into an earlier one, or its reports can be told to a builder
that holds the earlier one. For reports about elements beside each other this comes to the same
(`merge_alike_reports`).

* A report about an element beside all those reported so far finds nothing of its own in the tree: the nodes
  on the way are there for other elements below them (`Skirts`). Reports beside it leave it so
  (`skirts_composeOrReset`).
* So composing with the report at the end is **associative** there (`alike_compose_assoc`), whatever the
  earlier tree says: its nodes swallow the report in both ways, or in none.

The two builders go in step (`Aligned`): each report keeps the tree of the one a merge of the other's.
-/

namespace CodeModel

open Handle

namespace Delta

variable {lex : Lexicon} {e : Handle} {c d i j k s t : Delta} {path other rest : List Handle}

/-- What tells something, and did not come or go as a whole, changed. -/
theorem status_of_not_whole (hw : d.isWhole = false) (h : d.status ≠ .unchanged) : d.status = .changed := by
  rw [isWhole] at hw
  rcases hs : d.status with _ | _ | _ | _
  · exact absurd hs h
  · simp [hs, Status.isWhole] at hw
  · simp [hs, Status.isWhole] at hw
  · rfl

/-! ## Paths with nothing on them -/

/-- The path leads **past** all that the tree tells: no node strictly above its end came or went as a whole, and
nothing is told at the end. Reports beside an element leave its path so, even where they share nodes with it. -/
def Skirts : List Handle → Delta → Prop
  | [], d => d.status = .unchanged
  | next :: rest, d => d.isWhole = false ∧ ∀ c ∈ d.children, c.element = next → Skirts rest c

/-- Where nothing is told every path leads past it, as there are no nodes on the way that could be whole. -/
theorem skirts_of_unchanged (hd : Sound lex d) (hs : d.status = .unchanged) (path : List Handle) :
    Skirts path d := by
  cases path with
  | nil => exact hs
  | cons next rest =>
    rw [Skirts, hd.regular.children_eq_nil (by simp [hs]), isWhole, hs]
    exact ⟨rfl, by simp⟩

/-- Past what a child tells one gets on only where there is more of the path. -/
theorem Skirts.below (h : Skirts (e :: rest) d) (hd : Sound lex d) (hc : c ∈ d.children)
    (hce : c.element = e) : ∃ next more, rest = next :: more ∧ c.status = .changed ∧ Skirts rest c := by
  have hskirts := h.2 c hc hce
  have htelling := hd.tidy.telling c hc
  cases rest with
  | nil => exact absurd hskirts htelling
  | cons next more => exact ⟨next, more, rfl, status_of_not_whole hskirts.1 htelling, hskirts⟩

/-- **A report beside the path** leaves it with nothing on it. By induction on the path: where the report shares a
node, the node has changed and is not whole, and from where the two part on, nothing on the path is touched. -/
theorem skirts_composeOrReset (hd : Sound lex d) (hj : Leaf j) (hjf : j.element.Follows lex)
    (hother : Leads d.element other j.element) (hdiverge : Diverge path other) (h : Skirts path d) :
    Skirts path (d.composeOrReset (spine j d.element other)) := by
  induction path generalizing d other with
  | nil => exact absurd List.nil_prefix hdiverge.1
  | cons e rest ih =>
    cases other with
    | nil => exact absurd List.nil_prefix hdiverge.2
    | cons x other =>
      have ht : Fits lex d.element (spine j x other) := .spine hj hjf hother
      obtain ⟨-, hother⟩ := hother.of_cons
      have hsib := hd.tidy.siblings
      have hadded := siblings_addChild h.1 hsib ht.belongs
      rw [composeOrReset_spine_cons hd.tidy]
      refine ⟨by rw [isWhole, status_addChild h.1]; rfl, fun c hc hce => ?_⟩
      have heb : BelongsTo lex d.element e := hce ▸ ⟨hadded.follows c hc, hadded.parent c hc⟩
      have hfound := about?_of_mem hadded heb hc hce
      rw [about?_addChild h.1 hsib ht.belongs heb, element_spine hother] at hfound
      split at hfound
      · -- the other path goes on through the same child, and the two diverge below it
        rename_i heq
        subst heq
        have hbelow := hdiverge.of_cons
        obtain ⟨-, b, bs, rfl⟩ := hbelow.exists_cons
        obtain ⟨hprior, hel⟩ := sound_getD heb.follows fun k (hk : about? d.children e = some k) =>
          ⟨hd.child (mem_of_about? hk), hsib.element_of_about? heb hk⟩
        have hskirts : Skirts rest ((about? d.children e).getD { element := e }) := by
          rcases hk : about? d.children e with _ | k
          · exact skirts_of_unchanged (sound_new heb.follows) rfl rest
          · exact h.2 k (mem_of_about? hk) (hsib.element_of_about? heb hk)
        have hkept := ih hprior (hel.symm ▸ hother) hbelow hskirts
        rw [settled_of_changed heb.follows rfl] at hfound
        rw [hel, Option.some.inj hfound] at hkept
        exact hkept
      · exact h.2 c (mem_of_about? hfound) hce

/-! ## Associativity -/

/-- **A child registered** with the later of two changes is registered with the two joined, if it comes to the same
for an earlier report about the child. -/
theorem alike_joined_addChild (hd : Sound lex d) (ht : Sound lex t) (hel : t.element = d.element)
    (hs : d.status = .changed) (hts : t.status = .changed) (hc : Fits lex d.element c)
    (hsame : ∀ k ∈ t.children, k.element = c.element → ∃ k', k.compose c = some k' ∧
      ∀ o : Option Delta, (∀ n ∈ o, Sound lex n ∧ n.element = c.element) →
        Option.Rel Alike (settled k' o) (settled c (settled k o))) :
    Alike (d.composeOrReset (t.addChild c)) ((d.composeOrReset t).addChild c) := by
  have hw : t.isWhole = false := by rw [isWhole, hts]; rfl
  have hadded : Sound lex (t.addChild c) := ht.addChild (hel ▸ hc)
  have hadd := compose_changed hs (status_addChild hw c)
  have hjoin := compose_changed hs hts
  have hleft : Sound lex (d.composeOrReset (t.addChild c)) :=
    hd.composeOrReset hadded ((element_addChild t c).trans hel)
  have hright : Sound lex (d.composeOrReset t) := hd.composeOrReset ht hel
  rw [composeOrReset, hadd, Option.getD_some] at hleft ⊢
  rw [composeOrReset, hjoin, Option.getD_some] at hright ⊢
  have hjel : ((joinNode d t).joinChildren t.children).element = d.element := element_joinChildren _ _
  have hnode := node_joined hs ht.tidy
  have hjw : ((joinNode d t).joinChildren t.children).isWhole = false := by
    rw [isWhole, status_eq_of_node hnode, joinNode, hs]
    rfl
  refine (alike_iff hleft (hright.addChild (hjel.symm ▸ hc))).mpr ⟨?_, fun x hx => ?_⟩
  · rw [node_joined hs hadded.tidy, node_addChild hjw]
    calc (joinNode d (t.addChild c)).node
        = (joinNode d t).node.withChildren [] := by
          rw [addChild_of_not_whole hw]
          simp [node, joinNode, withChildren, hs, Flags.union_assoc]
      _ = ((joinNode d t).joinChildren t.children).node.withChildren [] := by rw [hnode]
  · rw [element_joinChildren] at hx
    have hx : BelongsTo lex d.element x := hx
    have htsib : Siblings lex d.element t.children := hel ▸ ht.tidy.siblings
    rw [about?_joined hd.tidy hs hadded.tidy ((element_addChild t c).trans hel) hx,
      about?_addChild hw htsib hc.belongs hx,
      about?_addChild hjw (hjel ▸ hright.tidy.siblings) hc.belongs hx,
      about?_joined hd.tidy hs ht.tidy hel hx]
    by_cases hxc : x = c.element
    · rw [if_pos hxc, if_pos hxc]
      rcases hk : about? t.children x with _ | k
      · exact optionRel_refl _
      · obtain ⟨k', hk', hrel⟩ := hsame k (mem_of_about? hk) ((htsib.element_of_about? hx hk).trans hxc)
        simp only [settled] at hrel ⊢
        rw [hk']
        exact hrel _ fun n hn => ⟨hd.child (mem_of_about? hn),
          (hd.tidy.siblings.element_of_about? hx hn).trans hxc⟩
    · rw [if_neg hxc, if_neg hxc]
      exact optionRel_refl _

/-- An element that came or went as a whole swallows a change: the table keeps the whole status, and drops the flags
and the children of the change. -/
theorem composeOrReset_of_whole (hw : d.isWhole = true) (hi : i.status = .changed) :
    d.composeOrReset i = d := by
  rw [composeOrReset, compose_eq, composeNode, hi]
  rcases hs : d.status with _ | _ | _ | _ <;> simp [isWhole, hs, Status.isWhole] at hw ⊢

theorem composeOrReset_into_unchanged (hd : Tidy lex d) (hs : d.status = .unchanged)
    (hi : i.status ≠ .unchanged) : d.composeOrReset i = i := by
  rw [composeOrReset, compose_into_blank hd hs hi, Option.getD_some]

theorem composeOrReset_of_unchanged (hi : Sound lex i) (h : i.status = .unchanged) (d : Delta) :
    d.composeOrReset i = d := by
  rw [composeOrReset, compose_of_unchanged hi h, Option.getD_some]

/-- **Composing is associative** where the later tree has nothing on the path of the last report. By induction on
the path. A whole node of the earlier tree swallows what comes in either way; where changes meet, what is on the
path is one child, and the claim is about this child again. -/
theorem alike_compose_assoc (hd : Sound lex d) (ht : Sound lex t) (hel : t.element = d.element)
    (hi : Leaf i) (hif : i.element.Follows lex) (hpath : Leads d.element path i.element)
    (hskirts : Skirts path t) :
    Alike (d.composeOrReset (t.composeOrReset (spine i d.element path)))
      ((d.composeOrReset t).composeOrReset (spine i d.element path)) := by
  induction path generalizing d t with
  | nil =>
    rw [composeOrReset_into_unchanged ht.tidy hskirts (telling_spine hi.telling _ _),
      composeOrReset_of_unchanged ht hskirts]
    exact .refl _
  | cons e rest ih =>
    have hc : Fits lex d.element (spine i e rest) := .spine hi hif hpath
    obtain ⟨-, hrest⟩ := hpath.of_cons
    have hspine := composeOrReset_spine_cons (i := i) (e := e) (r := rest) ht.tidy
    have hw := hskirts.1
    rw [hel] at hspine
    by_cases hts : t.status = .unchanged
    · -- the later tree is empty
      rw [composeOrReset_into_unchanged ht.tidy hts (telling_spine hi.telling _ _),
        composeOrReset_of_unchanged ht hts]
      exact .refl _
    have hts : t.status = .changed := status_of_not_whole hw hts
    have hadded := status_addChild hw (spine i e rest)
    rw [hspine]
    by_cases hdw : d.isWhole = true
    · rw [composeOrReset_of_whole hdw hadded, composeOrReset_of_whole hdw hts,
        composeOrReset_of_whole hdw rfl]
      exact .refl _
    by_cases hs : d.status = .unchanged
    · rw [composeOrReset_into_unchanged hd.tidy hs (by simp [hadded]),
        composeOrReset_into_unchanged hd.tidy hs (by simp [hts]), hspine]
      exact .refl _
    have hs : d.status = .changed := status_of_not_whole (Bool.eq_false_iff.mpr hdw) hs
    have hlast := composeOrReset_spine_cons (i := i) (e := e) (r := rest) (hd.composeOrReset ht hel).tidy
    have hkept : (d.composeOrReset t).element = d.element := by
      rw [composeOrReset, compose_changed hs hts]
      exact element_joinChildren _ _
    rw [hkept] at hlast
    rw [hlast]
    refine alike_joined_addChild hd ht hel hs hts hc fun k hk hke => ?_
    -- the later tree tells of the next node: then the path goes on below it
    rw [element_spine hrest] at hke ⊢
    subst hke
    obtain ⟨next, more, rfl, hks, hbelow⟩ := hskirts.below ht hk rfl
    have hkw : k.isWhole = false := hbelow.1
    refine ⟨_, compose_spine_cons (ht.child hk).tidy, fun o ho => ?_⟩
    have hf := (ht.child hk).tidy.follows
    obtain ⟨hprior, hpel⟩ := sound_getD hf ho
    rw [settled_of_changed hf (status_addChild hkw _), settled_of_changed hf hks,
      settled_of_changed hf rfl, Option.getD_some, ← composeOrReset_spine_cons (ht.child hk).tidy]
    have hassoc := ih hprior (ht.child hk) hpel.symm (hpel.symm ▸ hrest) hbelow
    rw [hpel] at hassoc
    exact .some hassoc

end Delta

/-! ## Two builders in step -/

namespace Builder

open Delta

variable {lex : Lexicon} {d : Delta} {b c : Builder} {r : Report} {rs : List Report}

/-- Two builders **in step**: what the one builds alone, merged into `d`, is what the other one has. This is the
invariant under reporting to both of them. -/
structure Aligned (lex : Lexicon) (d : Delta) (b c : Builder) : Prop where
  /-- the one builds for the element of `d` -/
  root : b.delta.element = d.element
  /-- its tree is sound -/
  alone : Sound lex b.delta
  /-- so is that of the other one -/
  held : Sound lex c.delta
  /-- the other one has what comes of a merge -/
  alike : Alike (d.composeOrReset b.delta) c.delta

/-- **One report** keeps the builders in step, if it leads past all that the one was told. Merging what the one
builds after the report is, by associativity, reporting to the merge of what it built before. -/
theorem Aligned.report {path : List Handle} (h : Aligned lex d b c) (hd : Sound lex d)
    (hr : r.element.Follows lex) (hm : r.attachesMarkers = false) (hpath : Leads d.element path r.element)
    (hskirts : Skirts path b.delta) :
    ∃ b' c', b.report r = .ok b' ∧ c.report r = .ok c' ∧ Aligned lex d b' c' ∧
      b'.delta = b.delta.composeOrReset (spine r.toDelta d.element path) := by
  have hleaf := leaf_toDelta r
  have hmerged : Sound lex (d.composeOrReset b.delta) := hd.composeOrReset h.alone h.root
  have hmel : (d.composeOrReset b.delta).element = d.element :=
    (hd.regular.composeOrReset lasting_true h.alone.regular h.root).2
  have hcel : c.delta.element = d.element := h.alike.element.symm.trans hmel
  have hspine : Sound lex (spine r.toDelta d.element path) :=
    (sound_leaf hleaf hr).spine hleaf.telling hpath
  have hsel : (spine r.toDelta d.element path).element = d.element := element_spine hpath
  have hb := composeAlong_eq_compose h.alone hleaf.telling hr (h.root.symm ▸ hpath)
  have hc := composeAlong_eq_compose h.held hleaf.telling hr (hcel.symm ▸ hpath)
  rw [h.root] at hb
  rw [hcel] at hc
  have hbs := h.alone.composeOrReset hspine (hsel.trans h.root.symm)
  have hcs := h.held.composeOrReset hspine (hsel.trans hcel.symm)
  have hbel : (b.delta.composeOrReset (spine r.toDelta d.element path)).element = d.element :=
    (h.alone.regular.composeOrReset lasting_true hspine.regular (hsel.trans h.root.symm)).2.trans h.root
  refine ⟨_, _, report_of_leads h.alone hr hm (h.root.symm ▸ hpath),
    report_of_leads h.held hr hm (hcel.symm ▸ hpath), ?_, hb⟩
  refine ⟨hb ▸ hbel, hb ▸ hbs, hc ▸ hcs, ?_⟩
  -- the merge of the longer tree is the merge before with the report in it
  simp only [hb, hc]
  exact (alike_compose_assoc hd h.alone h.root hleaf hr hpath hskirts).trans
    (h.alike.composeOrReset hmerged h.held hspine (hsel.trans hmel.symm))
    (hd.composeOrReset hbs hbel) (hmerged.composeOrReset hspine (hsel.trans hmel.symm)) hcs

/-- **Reports beside each other** keep the builders in step, one after the other: each report leaves the paths of
those to come with nothing on them. -/
theorem Aligned.run (h : Aligned lex d b c) (hd : Sound lex d)
    (hrs : ∀ r ∈ rs, r.attachesMarkers = false ∧ r.element.Follows lex ∧
      r.element.isWithin d.element = true)
    (hbeside : rs.Pairwise fun r s => r.element.isBeside s.element = true)
    (hskirts : ∀ r ∈ rs, ∀ path, Leads d.element path r.element → Skirts path b.delta) :
    ∃ b' c', rs.foldlM Builder.report b = .ok b' ∧ rs.foldlM Builder.report c = .ok c' ∧
      Aligned lex d b' c' := by
  induction rs generalizing b c with
  | nil => exact ⟨b, c, rfl, rfl, h⟩
  | cons r rs ih =>
    obtain ⟨hm, hr, hwithin⟩ := hrs r (List.mem_cons_self ..)
    obtain ⟨hfirst, hrest⟩ := List.pairwise_cons.mp hbeside
    obtain ⟨path, hpath⟩ := (isWithin_iff hd.tidy.follows hr).mp hwithin
    obtain ⟨b', c', hb, hc, halike, hdelta⟩ :=
      h.report hd hr hm hpath (hskirts r (List.mem_cons_self ..) path hpath)
    obtain ⟨b'', c'', hb', hc', hlast⟩ := ih halike (fun s hs => hrs s (List.mem_cons_of_mem _ hs)) hrest
      fun s hs other hother => by
        obtain ⟨-, hsf, -⟩ := hrs s (List.mem_cons_of_mem _ hs)
        have hdiverge := diverge_of_isBeside hr hsf (hfirst s hs) hpath hother
        rw [hdelta, ← h.root]
        exact skirts_composeOrReset h.alone (leaf_toDelta r) hr (h.root.symm ▸ hpath) hdiverge.symm
          (hskirts s (List.mem_cons_of_mem _ hs) other hother)
    refine ⟨b'', c'', ?_, ?_, hlast⟩
    · rw [List.foldlM_cons, hb]
      exact hb'
    · rw [List.foldlM_cons, hc]
      exact hc'

end Builder

namespace Bench

open Delta

variable {lex : Lexicon} {tasks : List Task} {d n : Delta}

/-- Deltas about strictly the same element go together. -/
theorem merge_eq_ok (h : d.element = n.element) : d.merge n = .ok (d.composeOrReset n) := by
  rw [merge, h, if_pos (sameChain_refl _)]

/-- **Merging is sequential reporting.** Whatever a delta on the bench tells, to merge in what some reports build
alone comes to the same tree, up to the order of siblings, as to tell the reports one by one to a builder that holds
the delta, if the reports are about elements beside each other. An empty delta makes no difference on either side.
Two reports about one element are left out, for the first of them could be taken back before it meets what the delta
tells. -/
theorem merge_alike_reports (ht : ∀ t ∈ tasks, t.Follows lex) (hd : d ∈ (run {} tasks).trees) :
    (∀ (rs : List Report) (marked : HandleSet),
      (∀ r ∈ rs, r.attachesMarkers = false ∧ r.element.Follows lex ∧
        r.element.isWithin d.element = true) →
      rs.Pairwise (fun r s => r.element.isBeside s.element = true) →
        ∃ built after merged, rs.foldlM Builder.report (Builder.new d.element) = .ok built ∧
          rs.foldlM Builder.report ⟨d, marked⟩ = .ok after ∧ d.merge built.delta = .ok merged ∧
          Alike merged after.delta) ∧
    ∀ n ∈ (run {} tasks).trees, n.isEmpty = true → n.element.sameChain d.element = true →
      d.merge n = .ok d ∧ n.merge d = .ok d := by
  have hregular : (run {} tasks).IsRegular lex := isRegular_run ⟨by simp, by simp⟩ ht
  have hd : Sound lex d := (hregular.tree hd).sound
  refine ⟨fun rs marked hrs hbeside => ?_, fun n hn hempty hsame => ?_⟩
  · have hnew : Sound lex (Builder.new d.element).delta := sound_new hd.tidy.follows
    -- with nothing reported the two are in step
    have hstart : Builder.Aligned lex d (Builder.new d.element) ⟨d, marked⟩ := by
      refine ⟨rfl, hnew, hd, ?_⟩
      rw [composeOrReset_of_unchanged hnew rfl]
      exact .refl d
    obtain ⟨built, after, hbuilt, hafter, h⟩ := hstart.run hd hrs hbeside fun _ _ path _ =>
      skirts_of_unchanged hnew rfl path
    exact ⟨built, after, _, hbuilt, hafter, merge_eq_ok h.root.symm, h.alike⟩
  · have hn : Sound lex n := (hregular.tree hn).sound
    have hel := eq_of_sameChain hn.tidy.follows hd.tidy.follows hsame
    have hns := hn.tidy.isEmpty_iff.mp hempty
    rw [merge_eq_ok hel.symm, merge_eq_ok hel, composeOrReset_of_unchanged hn hns]
    refine ⟨rfl, ?_⟩
    by_cases hds : d.status = .unchanged
    · rw [composeOrReset_of_unchanged hd hds, hn.tidy.blank hns, hd.tidy.blank hds, hel]
    · rw [composeOrReset_into_unchanged hn.tidy hns hds]

/-- Reports that meet an addition, a removal and a change: the first is cancelled, the second swallows one
of them, and the third takes another child in. -/
theorem merge_alike_reports_below_library :
    let root := Handle.top { name := "Tree" } (some "t")
    let library := root.sub { name := "Library", parentIndependent := true } "l"
    let leaf (name : String) := library.sub { name := "Leaf" } name
    let d := ((Builder.new root).reportAll [.added (leaf "a"), .removed (leaf "b")]).delta
    let rs : List Report := [.resource (leaf "c") ⟨"r", .added⟩, .removed (leaf "a"),
      .movedFrom ((leaf "b").sub { name := "Leaf" } "x") root]
    d.merge { element := root } = .ok d ∧
      (∃ built after merged, rs.foldlM Builder.report (Builder.new root) = .ok built ∧
        rs.foldlM Builder.report ⟨d, []⟩ = .ok after ∧ d.merge built.delta = .ok merged ∧
        Alike merged after.delta) ∧
      ((rs.foldlM Builder.report ⟨d, []⟩).toOption.bind (·.delta.find? library)).map
        (·.children.map (·.element)) = some [leaf "b", leaf "c"] := by
  intro root library leaf d rs
  let lex : Lexicon := fun name => { name, parentIndependent := name == "Library" }
  let tasks : List Task := [.builder root, .report 0 (.added (leaf "a")), .report 0 (.removed (leaf "b")),
    .delta root]
  have htasks : ∀ t ∈ tasks, t.Follows lex := by decide
  have hd : d ∈ (run {} tasks).trees := .tail _ (.head _)
  have hempty : ({ element := root } : Delta) ∈ (run {} tasks).trees := .head _
  obtain ⟨hmerge, hnothing⟩ := merge_alike_reports htasks hd
  exact ⟨(hnothing _ hempty rfl (by decide)).1, hmerge rs [] (by decide) (by decide), by decide⟩

end Bench

end CodeModel
