import CodeModel.Proofs.Delta.Insertion

/-!
# The step law of delta builders

What one more call does to a builder, whatever was called before.

* The **table of compositions** says what is recorded for an element after a call, given what was
  recorded before (`Status.composed`).
* A call is **refused** if its element is outside the tree of the root, **swallowed** if an ancestor of
  the element came or went as a whole, and else it is **recorded** (`Builder.Records`).

Every builder has a sound tree (`sound_reportAll`), which is all that the law needs to know of its
history.
-/

namespace CodeModel

open Handle

/-- **The table of compositions**: what is recorded after a call, given what was recorded before. It stands here for
itself, apart from trees and paths; the step law says that the trees go by it. -/
def Status.composed : Option (Status × Flags) → Status × Flags → Option (Status × Flags)
  | none, call | some (.unchanged, _), call => some call
  | some (.added, _), (.removed, _) => none
  | some (.added, flags), _ => some (.added, flags)
  | some (.removed, _), (.added, flags) => some (.changed, flags ∪ Flags.content)
  | some (.removed, flags), _ => some (.removed, flags)
  | some (.changed, flags), (.changed, more) => some (.changed, flags ∪ more)
  | some (.changed, _), call => some call

/-- The status and the flags that a call reports; attachments are no such calls. -/
def Report.call? : Report → Option (Status × Flags)
  | .added _ flags => some (.added, flags)
  | .removed _ flags => some (.removed, flags)
  | .changed _ flags => some (.changed, flags)
  | .movedFrom _ _ => some (.added, Flags.movedFrom)
  | .movedTo _ _ => some (.removed, Flags.movedTo)
  | .markers _ _ | .resource _ _ => none

namespace Delta

variable {lex : Lexicon} {e x : Handle} {c d n incoming : Delta} {path rest : List Handle}

/-- What a node tells of its element; one about which nothing was reported tells nothing. -/
def told? (d : Delta) : Option (Status × Flags) :=
  if d.status = .unchanged then none else some (d.status, d.flags)

/-- What a tree has recorded for an element. -/
def recorded? (d : Delta) (e : Handle) : Option (Status × Flags) := (d.find? e).bind told?

/-- A node about which something was reported tells its status and its flags. -/
theorem told?_of_ne (h : d.status ≠ .unchanged) : d.told? = some (d.status, d.flags) := if_neg h

/-- An element is looked for along the path that leads to it. There is one such path, and the tree is followed from
its root, so the search for an element is a walk down named steps. -/
theorem find?_of_leads (hd : d.element.Follows lex) (he : e.Follows lex)
    (h : Leads d.element path e) : d.find? e = descend path d := by
  rw [find?, (pathBelow?_eq_some_iff hd he).mpr h, Option.bind_some]

/-- Elements below another one are found by way of it: the path to them passes it, and where the one above has no
node those below have none either. -/
theorem find?_below (hd : d.element.Follows lex) (he : Leads d.element path e) (hx : x.Follows lex)
    (h : Leads e rest x) : d.find? x = (d.find? e).bind (descend rest) := by
  rw [find?_of_leads hd hx (he.append h), find?_of_leads hd (h.follows hx) he, descend_append]

theorem find?_self (d : Delta) : d.find? d.element = some d := by
  have hpath : pathBelow? d.element d.element = some [] := by
    cases h : d.element <;> simp [pathBelow?]
  rw [find?, hpath]
  rfl

/-- Only elements to which a path leads are found. A look-up first asks for the way from the root to the element,
and gives up if there is none. -/
theorem exists_leads_of_find? (hd : d.element.Follows lex) (he : e.Follows lex)
    (h : d.find? e = some n) : ∃ path, Leads d.element path e := by
  obtain ⟨path, hpath, -⟩ := Option.bind_eq_some_iff.mp h
  exact ⟨path, (pathBelow?_eq_some_iff hd he).mp hpath⟩

/-! ## Composition and the table -/

variable {o : Option Delta}

theorem telling_of_settled (ho : ∀ c ∈ o, Sound lex c ∧ incoming.element = c.element)
    (hi : Leaf incoming) (h : settled incoming o = some n) : n.status ≠ .unchanged := by
  rcases o with _ | c
  · obtain rfl := Option.some.inj h
    exact hi.telling
  · obtain ⟨hc, he⟩ := ho c rfl
    exact (sound_compose hc hi he h).2.2

/-- Composition goes **by the table**: of two reports about one element, what is left tells what the table says. The
cases are those of the two statuses; where nothing was told before, the later report stands. -/
theorem told?_settled (ho : ∀ c ∈ o, Sound lex c) (hi : Leaf incoming) :
    (settled incoming o).bind told? =
      Status.composed (o.bind told?) (incoming.status, incoming.flags) := by
  have htelling := hi.telling
  rcases o with _ | c
  · simp [settled, told?_of_ne htelling, Status.composed]
  · rw [settled, Option.bind_some]
    rcases hs : c.status with _ | _ | _ | _
    · rw [compose_blank (ho c rfl).tidy hi hs]
      simp [told?, hs, htelling, Status.composed]
    all_goals
      rw [compose_leaf hi, composeNode, told?_of_ne (by simp [hs])]
      rcases ht : incoming.status with _ | _ | _ | _
      · exact absurd ht htelling
      all_goals simp [Status.composed, told?, joinNode, hs, ht]

/-- What tells nothing has **cancelled**: no empty node is left behind. -/
theorem settled_eq_none (ho : ∀ c ∈ o, Sound lex c ∧ incoming.element = c.element)
    (hi : Leaf incoming) (h : (settled incoming o).bind told? = none) : settled incoming o = none := by
  rcases hs : settled incoming o with _ | n
  · rfl
  · rw [hs, Option.bind_some, told?_of_ne (telling_of_settled ho hi hs)] at h
    cases h

/-- Two changes never cancel. -/
theorem not_changed_of_settled_eq_none (ho : ∀ c ∈ o, Sound lex c) (hi : Leaf incoming)
    (h : settled incoming o = none) :
    ¬ ((o.bind told?).map Prod.fst = some .changed ∧ incoming.status = .changed) := by
  rintro ⟨hfst, hchanged⟩
  obtain ⟨⟨status, flags⟩, htold, rfl⟩ := Option.map_eq_some_iff.mp hfst
  have htable := told?_settled ho hi
  rw [h, htold, hchanged] at htable
  cases htable

/-- **Children stay** only where a change follows a change. In every other case the later report is about all that
is below the element, or there was nothing before. -/
theorem children_settled (ho : ∀ c ∈ o, Sound lex c) (hi : Leaf incoming)
    (h : settled incoming o = some n) :
    n.children =
      if (o.bind told?).map Prod.fst = some .changed ∧ incoming.status = .changed then
        (o.map Delta.children).getD []
      else [] := by
  have htelling := hi.telling
  rcases o with _ | c
  · obtain rfl := Option.some.inj h
    simp [hi.children]
  · have hnone : c.status ≠ .changed → c.children = [] := fun hs =>
      Classical.byContradiction fun hne => hs ((ho c rfl).tidy.changed hne).1
    rw [settled] at h
    rcases hs : c.status with _ | _ | _ | _
    · rw [compose_blank (ho c rfl).tidy hi hs] at h
      obtain rfl := Option.some.inj h
      simp [hi.children, told?, hs]
    all_goals
      rw [compose_leaf hi, composeNode, hs] at h
      rcases ht : incoming.status with _ | _ | _ | _
      · exact absurd ht htelling
      all_goals
        rw [ht] at h
        cases h <;> simp [hi.children, hnone, hs, told?, joinNode]

end Delta

namespace Builder

open Delta

variable {lex : Lexicon} {root : Handle} {b b' : Builder} {r : Report} {rs : List Report}
  {call : Status × Flags}

/-! ## Histories -/

/-- One report keeps the tree of a builder sound, and its root. So whatever was reported, and in whatever order, the
tree is sound in the end. -/
theorem sound_report (hb : Sound lex b.delta) (hr : r.element.Follows lex) (h : b.report r = .ok b') :
    Sound lex b'.delta ∧ b'.delta.element = b.delta.element := by
  obtain ⟨path, hleads, hdelta⟩ := delta_report hb.tidy.follows hr h
  obtain ⟨hs, he, -⟩ := sound_composeAlong hb (leaf_toDelta r) hr hleads
  rw [hdelta]
  exact ⟨hs, he⟩

/-- **Every builder** has a sound tree, whatever it was told. Reports that it refuses change nothing, and those it
takes in keep the tree sound. -/
theorem sound_reportAll (hb : Sound lex b.delta) (hrs : ∀ r ∈ rs, r.element.Follows lex) :
    Sound lex (b.reportAll rs).delta ∧ (b.reportAll rs).delta.element = b.delta.element := by
  induction rs generalizing b with
  | nil => exact ⟨hb, rfl⟩
  | cons r rs ih =>
    have hrest : ∀ r ∈ rs, r.element.Follows lex := fun r hr => hrs r (List.mem_cons_of_mem _ hr)
    rcases h : b.report r with _ | b'
    · have hstep : b.reportAll (r :: rs) = b.reportAll rs := by simp [reportAll, h, Except.toOption]
      rw [hstep]
      exact ih hb hrest
    · have hstep : b.reportAll (r :: rs) = b'.reportAll rs := by simp [reportAll, h, Except.toOption]
      obtain ⟨hs, he⟩ := sound_report hb (hrs r (List.mem_cons_self ..)) h
      rw [hstep, ← he]
      exact ih hs hrest

/-! ## The law -/

/-- What it means that a call for `e` is **recorded** by a builder. The parts go through all elements: the one the
call is about, those above, those below and those beside, so nothing about the tree afterwards is left open. -/
structure Records (lex : Lexicon) (b : Builder) (e : Handle) (call : Status × Flags) (b' : Builder) :
    Prop where
  /-- the entry of the element is the one that the table gives -/
  entry : b'.delta.recorded? e = Status.composed (b.delta.recorded? e) call
  /-- what cancels leaves no entry, or an empty root -/
  cancelled : b'.delta.recorded? e = none →
    if e = b.delta.element then b'.delta = { element := e } else b'.delta.find? e = none
  /-- affected children stay only where a change follows a change -/
  children : ∀ {n}, b'.delta.find? e = some n →
    n.children =
      if (b.delta.recorded? e).map Prod.fst = some .changed ∧ call.1 = .changed then
        ((b.delta.find? e).map Delta.children).getD []
      else []
  /-- every ancestor in the tree is there, is changed and gains the flag of those with children -/
  above : ∀ {a}, a ∈ e.ancestors → a.isWithin b.delta.element = true →
    ∃ children, b'.delta.find? a =
      some (((b.delta.find? a).getD { element := a }).withChildren children)
  /-- all nodes beside the chain of the element stay as they are -/
  beside : ∀ {x}, x.Follows lex → x ≠ e → x ∉ e.ancestors → e ∉ x.ancestors →
    b'.delta.find? x = b.delta.find? x
  /-- the root stays -/
  root : b'.delta.element = b.delta.element

/-- A report that attaches no markers is inserted without further checks. -/
theorem report_eq_insert (h : r.attachesMarkers = false) : b.report r = b.insert r.toDelta := by
  rw [report, if_neg (by simp [h])]

/-- A call comes with its status and its flags, and attaches no markers. -/
theorem report_of_call (h : r.call? = some call) :
    r.attachesMarkers = false ∧ (r.toDelta.status, r.toDelta.flags) = call := by
  cases r <;> cases h <;> exact ⟨rfl, rfl⟩

/-- The node of the element after the call: nothing may be left of it, but a root stays. -/
theorem find?_composeAlong {path : List Handle} {incoming : Delta} (hb : Sound lex b.delta)
    (hi : Leaf incoming) (hf : incoming.element.Follows lex)
    (h : Leads b.delta.element path incoming.element) (hclear : Clear path b.delta) :
    (composeAlong incoming path b.delta).find? incoming.element =
      if incoming.element = b.delta.element then
        some ((settled incoming (b.delta.find? incoming.element)).getD { element := b.delta.element })
      else settled incoming (b.delta.find? incoming.element) := by
  obtain ⟨hs, he, -⟩ := sound_composeAlong hb hi hf h
  rw [find?_of_leads hs.tidy.follows hf (he ▸ h), find?_of_leads hb.tidy.follows hf h]
  by_cases hp : path = []
  · subst hp
    rw [if_pos h.eq_of_nil]
    rfl
  · have hne : incoming.element ≠ b.delta.element := by
      intro heq
      have := h.depth_eq
      rw [heq] at this
      exact hp (List.length_eq_zero_iff.mp (by omega))
    rw [if_neg hne, descend_composeAlong hb hi hf h hp hclear]

/-- What is found in a sound tree is sound and about the element. -/
theorem sound_of_find? {d n : Delta} {e : Handle} (hd : Sound lex d) (he : e.Follows lex)
    (h : d.find? e = some n) : Sound lex n ∧ n.element = e := by
  obtain ⟨path, hpath⟩ := exists_leads_of_find? hd.tidy.follows he h
  rw [find?_of_leads hd.tidy.follows he hpath] at h
  exact sound_descend hd hpath he h

/-- **A call that nothing swallows is recorded.** Each part is what is seen at the end of the path, on the way,
below or beside it. -/
theorem records_composeAlong {path : List Handle} {incoming : Delta} (hb : Sound lex b.delta)
    (hi : Leaf incoming) (hf : incoming.element.Follows lex)
    (h : Leads b.delta.element path incoming.element) (hclear : Clear path b.delta) :
    Records lex b incoming.element (incoming.status, incoming.flags)
      { b with delta := composeAlong incoming path b.delta } := by
  have hroot := hb.tidy.follows
  have hfind := find?_composeAlong hb hi hf h hclear
  obtain ⟨hs, he, -⟩ := sound_composeAlong hb hi hf h
  have hprior : ∀ c ∈ b.delta.find? incoming.element,
      Sound lex c ∧ incoming.element = c.element := by
    intro c hc
    obtain ⟨hsound, hel⟩ := sound_of_find? hb hf hc
    exact ⟨hsound, hel.symm⟩
  have hsound : ∀ c ∈ b.delta.find? incoming.element, Sound lex c := fun c hc => (hprior c hc).1
  refine ⟨?_, fun hnone => ?_, fun {n} hn => ?_, fun {a} ha hwithin => ?_,
    fun {x} hx hne hxe hex => ?_, he⟩
  · -- the entry is the one that the table gives for the earlier one and the call
    rw [recorded?, hfind, recorded?, ← told?_settled hsound hi]
    split
    · rcases settled incoming (b.delta.find? incoming.element) with _ | n <;> rfl
    · rfl
  · -- without an entry nothing is left, or an empty root
    rw [recorded?, hfind] at hnone
    split at hnone
    · rename_i hr
      have hgone : settled incoming (b.delta.find? incoming.element) = none := by
        refine settled_eq_none hprior hi ?_
        rcases hsettled : settled incoming (b.delta.find? incoming.element) with _ | n
        · rfl
        · rwa [hsettled] at hnone
      rw [if_pos hr]
      rw [hgone, if_pos hr, hr, ← he, find?_self] at hfind
      exact (Option.some.inj hfind).trans (by rw [hr, ← he]; rfl)
    · rename_i hr
      rw [if_neg hr, hfind, if_neg hr]
      exact settled_eq_none hprior hi hnone
  · -- children stay only under a change of what was changed before
    rw [hfind] at hn
    rcases hsettled : settled incoming (b.delta.find? incoming.element) with _ | k
    · rw [hsettled] at hn
      split at hn
      · obtain rfl := Option.some.inj hn
        exact (if_neg (not_changed_of_settled_eq_none hsound hi hsettled)).symm
      · cases hn
    · obtain rfl : k = n := by
        rw [hsettled] at hn
        split at hn <;> exact Option.some.inj hn
      exact children_settled hsound hi hsettled
  · -- an ancestor stands on the path
    have haf := hf.ancestor ha
    obtain ⟨q, hq⟩ := (isWithin_iff hroot haf).mp hwithin
    obtain ⟨r, hr, har⟩ := exists_leads_of_mem_ancestors ha
    obtain rfl : path = q ++ r := path_unique hf h (hq.append har)
    rw [find?_of_leads hs.tidy.follows haf (he ▸ hq), find?_of_leads hroot haf hq]
    exact descend_composeAlong_above hb hi hf h hr hq hclear
  · -- anything else stands beside the path, or outside the tree
    rcases hw : x.isWithin b.delta.element with _ | _
    · rw [find?, find?, he, (pathBelow?_eq_none_iff hroot hx).mpr hw]
      rfl
    · obtain ⟨other, hother⟩ := (isWithin_iff hroot hx).mp hw
      rw [find?_of_leads hs.tidy.follows hx (he ▸ hother), find?_of_leads hroot hx hother]
      exact descend_composeAlong_beside hb hi hf h hother hx hclear
        (not_prefix_of_leads h hother (Ne.symm hne) hex) (not_prefix_of_leads hother h hne hxe)

/-- Outside the tree a call is **refused**, and the error names the element and the root. Apart from markers, which an
element takes only once, this is all that a call can be refused for. -/
theorem report_of_outside (hb : Sound lex b.delta) (hr : r.element.Follows lex)
    (hm : r.attachesMarkers = false) (hout : r.element.isWithin b.delta.element = false) :
    b.report r = .error (.illegalArgument (.outsideRoot r.element b.delta.element)) := by
  have hpath : pathBelow? b.delta.element r.toDelta.element = none :=
    (pathBelow?_eq_none_iff hb.tidy.follows hr).mpr hout
  rw [report_eq_insert hm, insert, hpath]
  rfl

/-- Within the tree a call is taken in along the path to its element. -/
theorem report_of_leads {path : List Handle} (hb : Sound lex b.delta) (hr : r.element.Follows lex)
    (hm : r.attachesMarkers = false) (h : Leads b.delta.element path r.element) :
    b.report r = .ok { b with delta := composeAlong r.toDelta path b.delta } := by
  have hpath : pathBelow? b.delta.element r.toDelta.element = some path :=
    (pathBelow?_eq_some_iff hb.tidy.follows hr).mpr h
  rw [report_eq_insert hm, insert, hpath]

/-- Below an element that came or went as a whole a call is **swallowed**: it is taken in without an error and
changes nothing. -/
theorem report_of_whole {a : Handle} {n : Delta} (hb : Sound lex b.delta)
    (hr : r.element.Follows lex) (hm : r.attachesMarkers = false) (ha : a ∈ r.element.ancestors)
    (hn : b.delta.find? a = some n) (hw : n.isWhole = true) : b.report r = .ok b := by
  have haf := hr.ancestor ha
  obtain ⟨q, hq⟩ := exists_leads_of_find? hb.tidy.follows haf hn
  obtain ⟨rest, hrest, har⟩ := exists_leads_of_mem_ancestors ha
  rw [find?_of_leads hb.tidy.follows haf hq] at hn
  rw [report_of_leads hb hr hm (hq.append har),
    composeAlong_eq_self hb hr (hq.append har) hrest hn hw]

/-- Where no ancestor came or went as a whole the path is clear. Each node on the way is what is found for one of
the ancestors. -/
theorem clear_of_find? {d : Delta} {e : Handle} {path : List Handle} (hd : d.element.Follows lex)
    (he : e.Follows lex) (h : Leads d.element path e)
    (hall : ∀ a ∈ e.ancestors, (d.find? a).any Delta.isWhole = false) : Clear path d := by
  rintro q rest n rfl hrest hn
  obtain ⟨m, hq, hm⟩ := h.split
  have hme := hm.mem_ancestors hrest
  have hnone := hall m hme
  rw [find?_of_leads hd (he.ancestor hme) hq, hn] at hnone
  exact hnone

/-- **The step law.** After any calls, a further one is refused outside the tree, swallowed below an element that
came or went as a whole, and else recorded by the table. The three cases cover all calls. Of the calls before it
needs to know only that they left a sound tree, so it speaks of every moment in the life of a builder. -/
theorem report_stepLaw (hroot : root.Follows lex) (hrs : ∀ r ∈ rs, r.element.Follows lex)
    (hr : r.element.Follows lex) (hcall : r.call? = some call) :
    (r.element.isWithin root = false →
      ((new root).reportAll rs).report r =
          .error (.illegalArgument (.outsideRoot r.element root)) ∧
        (new root).reportAll (rs ++ [r]) = (new root).reportAll rs) ∧
    ((∃ a ∈ r.element.ancestors,
        (((new root).reportAll rs).delta.find? a).any Delta.isWhole = true) →
      ((new root).reportAll rs).report r = .ok ((new root).reportAll rs)) ∧
    (r.element.isWithin root = true →
      (∀ a ∈ r.element.ancestors,
        (((new root).reportAll rs).delta.find? a).any Delta.isWhole = false) →
      ∃ b', ((new root).reportAll rs).report r = .ok b' ∧
        Records lex ((new root).reportAll rs) r.element call b') := by
  have hnew : Sound lex (new root).delta := sound_new hroot
  obtain ⟨hm, hcalled⟩ := report_of_call hcall
  obtain ⟨hs, he⟩ := sound_reportAll hnew hrs
  replace he : ((new root).reportAll rs).delta.element = root := he
  refine ⟨fun hout => ?_, ?_, fun hin hall => ?_⟩
  · rw [← he] at hout
    have hrefused := report_of_outside hs hr hm hout
    rw [he] at hrefused
    refine ⟨hrefused, ?_⟩
    rw [reportAll, List.foldl_append, List.foldl_cons, List.foldl_nil, ← reportAll, hrefused]
    rfl
  · rintro ⟨a, ha, hwhole⟩
    obtain ⟨n, hn, hw⟩ := (Option.any_eq_true _ _).mp hwhole
    exact report_of_whole hs hr hm ha hn hw
  · rw [← he] at hin
    obtain ⟨path, hpath⟩ := (isWithin_iff hs.tidy.follows hr).mp hin
    refine ⟨_, report_of_leads hs hr hm hpath, ?_⟩
    rw [← hcalled]
    exact records_composeAlong hs (leaf_toDelta r) hr hpath
      (clear_of_find? hs.tidy.follows hr hpath hall)

/-- The law at work below a parent-independent element: a removal and an addition make a change. -/
theorem report_stepLaw_below_library :
    let root := Handle.top { name := "Tree" } (some "t")
    let library := root.sub { name := "Library", parentIndependent := true } "l"
    let leaf := library.sub { name := "Leaf" } "x"
    ∃ b', ((new root).reportAll [.removed leaf]).report (.added leaf Flags.reorder) = .ok b' ∧
      b'.delta.recorded? leaf = some (.changed, Flags.reorder ∪ Flags.content) := by
  intro root library leaf
  let lex : Lexicon := fun name => { name, parentIndependent := name == "Library" }
  have hcalls : ∀ r ∈ [Report.removed leaf], r.element.Follows lex := by decide
  have hcall : (Report.added leaf Flags.reorder).call? = some (.added, Flags.reorder) := rfl
  have hlaw := report_stepLaw (show root.Follows lex by decide) hcalls
    (show (Report.added leaf Flags.reorder).element.Follows lex by decide) hcall
  obtain ⟨b', hb', hrecords⟩ := hlaw.2.2 (by decide) (by decide)
  exact ⟨b', hb', hrecords.entry.trans (by decide)⟩

end Builder

end CodeModel
