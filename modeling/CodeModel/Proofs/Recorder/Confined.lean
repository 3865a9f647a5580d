import CodeModel.Proofs.Delta.Bare

/-!
# Reports and the places they reach

What a builder has on record is seen element by element, bare handle by bare handle. A report about an
element is **confined** to it: beside it nothing changes, and the elements above learn only that there is
something below them (`Confined`).

* A report of a **change** joins its flags to what is on record and leaves the rest alone
  (`report_changed`); one that an element **came or went** clears what is below it (`report_whole`).
* Reports at different children of one element do **not disturb** each other (`loop_confined`), so a loop
  over the children leaves each of them as its own turn left it.

Being confined is closed under doing one thing after the other at the same place (`Confined.trans`) and under
passing from a child to its parent (`Confined.parent`). With these two rules a proof about a comparison never looks
at the tree of the builder: it follows the notes.
-/

namespace CodeModel

namespace Handle

variable {a b c e p x y : Handle}

/-- The element is `e`, or below it. -/
def Under (y e : Handle) : Prop := e ∈ y :: y.ancestors

theorem under_refl (e : Handle) : e.Under e := List.mem_cons_self ..

theorem under_of_mem (h : e ∈ y.ancestors) : y.Under e := List.mem_cons_of_mem _ h

/-- Above a child there are its parent and what is above that. -/
theorem mem_ancestors_of_parent (h : c.parent? = some p) : a ∈ c.ancestors ↔ a = p ∨ a ∈ p.ancestors := by
  cases c with
  | root n => cases h
  | child q n =>
    obtain rfl := Option.some.inj h
    exact List.mem_cons

theorem depth_of_parent (h : c.parent? = some p) : c.depth = p.depth + 1 := by
  cases c with
  | root n => cases h
  | child q n =>
    obtain rfl := Option.some.inj h
    rfl

theorem depth_lt_of_mem_ancestors (h : a ∈ e.ancestors) : a.depth < e.depth := by
  induction e with
  | root n => cases h
  | child p n ih =>
    rcases List.mem_cons.mp h with rfl | h
    · exact Nat.lt_succ_self _
    · exact Nat.lt_succ_of_lt (ih h)

/-- What is below an element does not stand higher. With this, an element below a child can be told from the parent
of the child and from all that is above it. -/
theorem Under.depth_le (h : y.Under e) : e.depth ≤ y.depth := by
  rcases List.mem_cons.mp h with rfl | h
  · exact Nat.le_refl _
  · exact Nat.le_of_lt (depth_lt_of_mem_ancestors h)

/-- A chain has one element on each level, so two elements of one depth above the same one are the same. -/
theorem Under.eq_of_depth (ha : y.Under a) (hb : y.Under b) (h : a.depth = b.depth) : a = b := by
  induction y with
  | root n => exact (List.mem_singleton.mp ha).trans (List.mem_singleton.mp hb).symm
  | child p n ih =>
    rcases List.mem_cons.mp ha with rfl | ha <;> rcases List.mem_cons.mp hb with rfl | hb
    · rfl
    · exact absurd h (Nat.ne_of_gt (depth_lt_of_mem_ancestors (List.mem_cons.mpr (List.mem_cons.mp hb))))
    · exact absurd h (Nat.ne_of_lt (depth_lt_of_mem_ancestors (List.mem_cons.mpr (List.mem_cons.mp ha))))
    · exact ih ha hb

theorem Under.mem_ancestors (h : y.Under c) (hc : c.parent? = some p) : p ∈ y.ancestors := by
  induction y with
  | root n =>
    obtain rfl := List.mem_singleton.mp h
    cases hc
  | child q n ih =>
    rcases List.mem_cons.mp h with rfl | h
    · exact (mem_ancestors_of_parent hc).mpr (.inl rfl)
    · exact List.mem_cons_of_mem _ (ih h)

theorem Under.trans (h : y.Under a) (k : a.Under b) : y.Under b := by
  induction y with
  | root n => exact List.mem_singleton.mp h ▸ k
  | child p n ih =>
    rcases List.mem_cons.mp h with rfl | h
    · exact k
    · exact List.mem_cons_of_mem _ (ih h)

/-- Siblings have nothing below them in common: whatever is below both would have two different ancestors on one
level. -/
theorem Under.not_under (h : y.Under a) (ha : a.parent? = some p) (hb : b.parent? = some p) (hne : a ≠ b) :
    ¬ y.Under b := fun hyb =>
  hne (h.eq_of_depth hyb ((depth_of_parent ha).trans (depth_of_parent hb).symm))

theorem Under.not_mem_ancestors (h : y.Under a) (ha : a.parent? = some p) (hb : b.parent? = some p) :
    y ∉ b.ancestors := by
  intro hyb
  have := h.depth_le
  have := depth_lt_of_mem_ancestors hyb
  rw [depth_of_parent hb] at this
  rw [depth_of_parent ha] at *
  omega

end Handle

namespace Delta

open Handle

variable {lex : Lexicon} {d n : Delta} {e y : Handle} {path q r : List Handle}

/-- A node with no moves and no attachments, as a recording reports it: of the four things that a node can carry
besides its status, flags and children it has none. -/
structure Unattached (d : Delta) : Prop where
  /-- it came from nowhere else -/
  movedFrom : d.movedFrom = none
  /-- it went nowhere else -/
  movedTo : d.movedTo = none
  /-- it has no markers -/
  markers : d.markers = []
  /-- it has no resources -/
  resources : d.resources = []

/-- Building a tree keeps its nodes free of attachments, if the nodes that are reported are. -/
theorem lasting_unattached : Lasting Unattached where
  blank e := ⟨rfl, rfl, rfl, rfl⟩
  field _ _ _ h := ⟨h.movedFrom, h.movedTo, h.markers, h.resources⟩
  grow _ h := ⟨h.movedFrom, h.movedTo, h.markers, h.resources⟩
  join hd hk := ⟨by simp [joinNode, hd.movedFrom, hk.movedFrom], by simp [joinNode, hd.movedTo, hk.movedTo],
    by simp [joinNode, hd.markers, hk.markers], by simp [joinNode, hd.resources, hk.resources]⟩

end Delta

/-! ## What is on record -/

/-- What is on record for an element: a status with flags, if anything. -/
abbrev Note := Option (Status × Flags)

namespace Note

/-- The note after a change with further flags. -/
def gained (o : Note) (f : Flags) : Note := some (.changed, (o.map Prod.snd).getD ∅ ∪ f)

/-- The note is that of a change, if there is one. Only above such notes does a report get through: an element that
came or went as a whole swallows what is reported below it. -/
def Modest (o : Note) : Prop := ∀ p ∈ o, p.1 = .changed

/-- Nothing on record is modest. -/
theorem modest_none : Modest none := fun _ h => nomatch h

theorem modest_gained (o : Note) (f : Flags) : Modest (o.gained f) := by
  intro p hp
  obtain rfl := Option.some.inj hp
  rfl

theorem gained_gained (o : Note) (f g : Flags) : (o.gained f).gained g = o.gained (f ∪ g) := by
  simp [gained, Flags.union_assoc]

/-- The note after a change with further flags, if there was one. -/
def gainedIf (o : Note) (told : Bool) (f : Flags) : Note := if told then o.gained f else o

theorem modest_gainedIf {o : Note} (h : Modest o) (told : Bool) (f : Flags) : Modest (o.gainedIf told f) := by
  cases told
  · exact h
  · exact modest_gained o f

/-- That children are affected is told once, however many of them are. -/
theorem gained_children_twice (o : Note) :
    (o.gained Flags.children).gained Flags.children = o.gained Flags.children := by
  rw [gained_gained]
  rfl

/-- For a modest note the table joins the flags of a change, for there is nothing or a change on record already. -/
theorem Modest.composed_changed {o : Note} (h : Modest o) (f : Flags) :
    Status.composed o (.changed, f) = o.gained f := by
  rcases o with _ | ⟨s, g⟩
  · simp [Status.composed, gained]
  · obtain rfl : s = .changed := h (s, g) rfl
    rfl

/-- For a modest note the table lets a whole change stand: a change that was told before is superseded by the news
that the element came or went. -/
theorem Modest.composed_whole {o : Note} (h : Modest o) {s : Status} (hs : s.isWhole = true) (f : Flags) :
    Status.composed o (s, f) = some (s, f) := by
  rcases o with _ | ⟨t, g⟩
  · rfl
  · obtain rfl : t = .changed := h (t, g) rfl
    cases s <;> first | rfl | cases hs

end Note

namespace Builder

open Delta Handle Note

/-! ## Records, entry by entry -/

section Records

variable {lex : Lexicon} {b b' : Builder} {a e y : Handle} {call : Status × Flags}

/-- The note above a recorded call **gains** the flag for children. Nothing above is whole, or the call would have
been swallowed, so what was on record there was a change or nothing. -/
theorem Records.gained_above (h : Records lex b e call b') (hb : Sound lex b.delta) (he : e.Follows lex)
    (ha : a ∈ e.ancestors) (hwithin : a.isWithin b.delta.element = true) :
    b'.delta.recorded? a = Note.gained (b.delta.recorded? a) Flags.children := by
  obtain ⟨children, habove⟩ := h.above ha hwithin
  rw [recorded?, habove, recorded?]
  rcases hn : b.delta.find? a with _ | n
  · rfl
  · by_cases hs : n.status = .unchanged
    · rw [(sound_of_find? hb (he.ancestor ha) hn).1.tidy.blank hs]
      rfl
    · rw [Option.bind_some, Option.bind_some, told?_of_ne hs]
      rfl

/-- What is **below** a recorded call stays if a change follows a change, and is gone otherwise: everything but a
change stands for all that is below the element. -/
theorem Records.recorded_below (h : Records lex b e call b') (hb : Sound lex b.delta)
    (hb' : Sound lex b'.delta) (hy : y.Follows lex) (hey : e ∈ y.ancestors) {path : List Handle}
    (hpath : Leads b.delta.element path e) :
    b'.delta.recorded? y =
      if (b.delta.recorded? e).map Prod.fst = some .changed ∧ call.1 = .changed then b.delta.recorded? y
      else none := by
  obtain ⟨rest, hrest, hleads⟩ := exists_leads_of_mem_ancestors hey
  have he := hleads.follows hy
  have hfind := find?_below hb.tidy.follows hpath hy hleads
  have hfind' := find?_below hb'.tidy.follows (h.root.symm ▸ hpath) hy hleads
  have hrecorded : b.delta.recorded? y = ((b.delta.find? e).bind (descend rest)).bind told? :=
    congrArg (·.bind told?) hfind
  rw [recorded?, hfind', hrecorded]
  rcases hn : b'.delta.find? e with _ | n
  · -- nothing is left, so it was not a change after a change
    rw [if_neg]
    · rfl
    · rintro ⟨hfst, hchanged⟩
      have hentry := h.entry
      obtain ⟨⟨s, f⟩, hs, rfl⟩ := Option.map_eq_some_iff.mp hfst
      obtain ⟨t, g⟩ := call
      obtain rfl : t = .changed := hchanged
      rw [recorded?, hn, hs] at hentry
      cases hentry
  · obtain ⟨hsound, hel⟩ := sound_of_find? hb' he hn
    have hchildren := h.children hn
    split at hchildren
    · rename_i hchanged
      rw [if_pos hchanged, Option.bind_some]
      rcases hm : b.delta.find? e with _ | m
      · rw [hm] at hchildren
        rw [descend_childless hsound hchildren hy hrest (hel.symm ▸ hleads)]
        rfl
      · obtain ⟨hsound', hel'⟩ := sound_of_find? hb he hm
        rw [hm] at hchildren
        rw [descend_congr hsound hsound' (hel.trans hel'.symm) hchildren hy hrest (hel.symm ▸ hleads)]
        rfl
    · rename_i hchanged
      rw [if_neg hchanged, Option.bind_some,
        descend_childless hsound hchildren hy hrest (hel.symm ▸ hleads)]
      rfl

end Records

variable {b b' b'' : Builder} {a c e x y : Handle} {told told' : Prop} {flags : Flags}

/-- What the builder has on record for a bare handle: what the node says, not how it came to say so. -/
def noted (b : Builder) (y : Handle) : Note := b.bare.delta.recorded? y

/-- The builder has a regular tree without attachments, and takes in what is reported about `e`: the element is
below the root, and nothing above it swallows the report. -/
structure Ready (b : Builder) (e : Handle) : Prop where
  /-- the tree is regular -/
  regular : Regular simple Unattached b.bare.delta
  /-- the element is in the tree -/
  leads : ∃ path, Leads b.bare.delta.element path e
  /-- nothing above it came or went as a whole -/
  clear : ∀ a ∈ e.ancestors, Modest (b.noted a)

/-- What happened to the builder happened at `e` or below; the elements above know of it. Beside the element nothing
changes at all, and above it the only change is the flag for children, once anything was told. -/
structure Confined (b b' : Builder) (e : Handle) (told : Prop) : Prop where
  /-- the tree stays regular -/
  regular : Regular simple Unattached b'.bare.delta
  /-- the root stays -/
  root : b'.bare.delta.element = b.bare.delta.element
  /-- beside the element everything stays -/
  beside : ∀ {y}, y.Follows simple → ¬ y.Under e → y ∉ e.ancestors → b'.noted y = b.noted y
  /-- what is told shows above the element -/
  above : told → ∀ {a p}, a ∈ e.ancestors → Leads b.bare.delta.element p a →
    b'.noted a = (b.noted a).gained Flags.children
  /-- what is not told does not -/
  quiet : ¬ told → ∀ {a}, a ∈ e.ancestors → b'.noted a = b.noted a

/-- Outside the root of the builder there is nothing on record. -/
theorem modest_of_outside (hb : b.bare.delta.element.Follows simple) (hy : y.Follows simple)
    (h : ¬ ∃ path, Leads b.bare.delta.element path y) : Modest (b.noted y) := by
  have hnone : b.bare.delta.find? y = none := by
    rcases hf : b.bare.delta.find? y with _ | n
    · rfl
    · exact absurd (exists_leads_of_find? hb hy hf) h
  rw [noted, recorded?, hnone]
  exact modest_none

/-- Where nothing was told, nothing happened, and no note is different. This is the case of a child about which
there is nothing to report. -/
theorem Confined.refl (hb : Regular simple Unattached b.bare.delta) (htold : ¬ told) :
    Confined b b e told :=
  ⟨hb, rfl, fun _ _ _ => rfl, fun h => absurd h htold, fun _ {_} _ => rfl⟩

/-- One thing after the other at the same place. The flag for children above is set by whichever told something
first, and setting it again changes nothing. -/
theorem Confined.trans (h : Confined b b' e told) (k : Confined b' b'' e told') :
    Confined b b'' e (told ∨ told') := by
  refine ⟨k.regular, k.root.trans h.root, fun hy hne hna => ?_, fun htold {a p} ha hp => ?_,
    fun htold {a} ha => ?_⟩
  · exact (k.beside hy hne hna).trans (h.beside hy hne hna)
  · by_cases hfirst : told
    · by_cases hsecond : told'
      · rw [k.above hsecond ha (h.root ▸ hp), h.above hfirst ha hp, gained_children_twice]
      · rw [k.quiet hsecond ha, h.above hfirst ha hp]
    · rw [k.above (htold.resolve_left hfirst) ha (h.root ▸ hp), h.quiet hfirst ha]
  · exact (k.quiet (fun h' => htold (.inr h')) ha).trans (h.quiet (fun h' => htold (.inl h')) ha)

/-- Whether anything was told may be said in another way. A comparison tells it by its answer, the law by the
difference of the trees. -/
theorem Confined.congr (h : Confined b b' e told) (htold : told ↔ told') : Confined b b' e told' :=
  ⟨h.regular, h.root, h.beside, fun ht => h.above (htold.mpr ht), fun ht => h.quiet (mt htold.mp ht)⟩

/-- Elements above stay open: that children are affected is a change. -/
theorem Confined.modest (h : Confined b b' e told) (he : e.Follows simple) (ha : a ∈ e.ancestors)
    (hm : Modest (b.noted a)) : Modest (b'.noted a) := by
  by_cases htold : told
  · by_cases hp : ∃ p, Leads b.bare.delta.element p a
    · obtain ⟨p, hp⟩ := hp
      rw [h.above htold ha hp]
      exact modest_gained _ _
    · exact modest_of_outside h.regular.tidy.follows (he.ancestor ha) (h.root ▸ hp)
  · rwa [h.quiet htold ha]

/-- After what is confined to an element the builder is ready for the next report about it. -/
theorem Confined.ready (h : Confined b b' e told) (he : e.Follows simple) (hb : Ready b e) : Ready b' e :=
  ⟨h.regular, h.root ▸ hb.leads, fun a ha => h.modest he ha (hb.clear a ha)⟩

/-! ## One report -/

theorem unattached_bare {d : Delta} (h : Unattached d) : Unattached d.bare := by
  rw [bare_eq]
  exact ⟨h.movedFrom, h.movedTo, h.markers, h.resources⟩

/-- Where nothing on record above is whole, the path is clear. So a builder that is ready for an element takes in a
report about it, and nothing on the way swallows it. -/
theorem Ready.clear_path {path : List Handle} (hb : Ready b e) (he : e.Follows simple)
    (hpath : Leads b.bare.delta.element path e) : Clear path b.bare.delta := by
  refine clear_of_find? hb.regular.tidy.follows he hpath fun a ha => ?_
  rcases hn : b.bare.delta.find? a with _ | n
  · rfl
  · have hmodest := hb.clear a ha
    rw [noted, recorded?, hn, Option.bind_some] at hmodest
    by_cases hs : n.status = .unchanged
    · simp [isWhole, hs, Status.isWhole]
    · rw [told?_of_ne hs] at hmodest
      have hchanged : n.status = .changed := hmodest _ rfl
      simp [isWhole, hchanged, Status.isWhole]

/-- **A report** is taken in, stays confined to its element and is entered by the table. What is below the
element stays if a change follows a change, and is gone otherwise. -/
theorem report_confined {r : Report} {call : Status × Flags} (hr : r.element.ParentDependent)
    (hcall : r.call? = some call) (hplain : Unattached r.toDelta) (hb : Ready b r.element.bare) :
    ∃ b', b.report r = .ok b' ∧ Confined b b' r.element.bare True ∧
      b'.noted r.element.bare = Status.composed (b.noted r.element.bare) call ∧
      ∀ {y}, y.Follows simple → r.element.bare ∈ y.ancestors →
        b'.noted y =
          if (b.noted r.element.bare).map Prod.fst = some .changed ∧ call.1 = .changed then b.noted y
          else none := by
  have hroot := hb.regular.tidy.follows
  have hrf := hr.follows_bare
  obtain ⟨path, hpath⟩ := hb.leads
  obtain ⟨b', hreport, hrecords, hregular⟩ := exists_records_bare lasting_unattached hb.regular hr hcall
    (unattached_bare hplain) hpath (hb.clear_path hrf hpath)
  refine ⟨b', hreport, ⟨hregular, hrecords.root, fun hy hne hna => ?_, fun _ {a p} ha hp => ?_,
    fun h => absurd trivial h⟩, hrecords.entry, fun {y} hy hey => ?_⟩
  · have hbeside := hrecords.beside hy (fun h => hne (h ▸ under_refl _)) hna
      fun h => hne (under_of_mem h)
    exact congrArg (·.bind told?) hbeside
  · have hwithin := (isWithin_iff hroot (hrf.ancestor ha)).mpr ⟨p, hp⟩
    exact hrecords.gained_above hb.regular.sound hrf ha hwithin
  · exact hrecords.recorded_below hb.regular.sound hregular.sound hy hey hpath

/-- Below an element with nothing on record there is nothing on record. -/
theorem noted_below_of_none {path : List Handle} (hb : Regular simple Unattached b.bare.delta)
    (hpath : Leads b.bare.delta.element path e) (he : b.noted e = none) (hy : y.Follows simple)
    (hey : e ∈ y.ancestors) : b.noted y = none := by
  obtain ⟨rest, hrest, hleads⟩ := exists_leads_of_mem_ancestors hey
  rw [noted, recorded?, find?_below hb.tidy.follows hpath hy hleads]
  rcases hn : b.bare.delta.find? e with _ | n
  · rfl
  · obtain ⟨hsound, hel⟩ := sound_of_find? hb.sound (hleads.follows hy) hn
    have hs : n.status = .unchanged := by
      rw [noted, recorded?, hn, Option.bind_some] at he
      exact Classical.byContradiction fun hne => by simp [told?_of_ne hne] at he
    have hchildren : n.children = [] := by rw [hsound.tidy.blank hs]
    rw [Option.bind_some, descend_childless hsound hchildren hy hrest (hel.symm ▸ hleads)]
    rfl

/-- **A change** joins its flags to what is on record, and leaves what is below alone. -/
theorem report_changed (he : e.ParentDependent) (hb : Ready b e.bare) (hown : Modest (b.noted e.bare))
    (flags : Flags) :
    ∃ b', b.report (.changed e flags) = .ok b' ∧ Confined b b' e.bare True ∧
      b'.noted e.bare = (b.noted e.bare).gained flags ∧
      ∀ {y}, y.Follows simple → e.bare ∈ y.ancestors → b'.noted y = b.noted y := by
  obtain ⟨b', hreport, hconfined, hentry, hrest⟩ := report_confined (r := .changed e flags) he rfl
    ⟨rfl, rfl, rfl, rfl⟩ hb
  refine ⟨b', hreport, hconfined, hentry.trans (hown.composed_changed flags), fun {y} hy hey => ?_⟩
  rw [hrest hy hey]
  split
  · rfl
  · rename_i hchanged
    rcases hn : b.noted e.bare with _ | ⟨s, f⟩
    · obtain ⟨path, hpath⟩ := hb.leads
      exact (noted_below_of_none hb.regular hpath hn hy hey).symm
    · obtain rfl : s = .changed := hown (s, f) hn
      exact absurd ⟨congrArg (Option.map Prod.fst) hn, rfl⟩ hchanged

/-- **A whole change** stands alone, whatever changes were reported before: that an element came or went replaces
its note and drops what is on record below it. -/
theorem report_whole {r : Report} {s : Status} (hr : r.element.ParentDependent)
    (hcall : r.call? = some (s, ∅)) (hplain : Unattached r.toDelta) (hs : s.isWhole = true)
    (hb : Ready b r.element.bare) (hown : Modest (b.noted r.element.bare)) :
    ∃ b', b.report r = .ok b' ∧ Confined b b' r.element.bare True ∧
      b'.noted r.element.bare = some (s, ∅) ∧
      ∀ {y}, y.Follows simple → r.element.bare ∈ y.ancestors → b'.noted y = none := by
  obtain ⟨b', hreport, hconfined, hentry, hrest⟩ := report_confined hr hcall hplain hb
  refine ⟨b', hreport, hconfined, hentry.trans (hown.composed_whole hs ∅), fun {y} hy hey => ?_⟩
  rw [hrest hy hey, if_neg]
  rintro ⟨-, rfl⟩
  cases hs

/-! ## Loops over children -/

/-- What is confined to a child is confined to its parent: what is beside the parent is beside the child, and the
same elements are above. -/
theorem Confined.parent (h : Confined b b' c told) (hc : c.parent? = some x) : Confined b b' x told := by
  have hsub : ∀ {a}, a ∈ x.ancestors → a ∈ c.ancestors :=
    fun ha => (mem_ancestors_of_parent hc).mpr (.inr ha)
  refine ⟨h.regular, h.root, fun hy hne hna => h.beside hy (fun hyc => ?_) fun hyc => ?_,
    fun ht {a p} ha => h.above ht (hsub ha), fun ht {a} ha => h.quiet ht (hsub ha)⟩
  · exact hne (under_of_mem (hyc.mem_ancestors hc))
  · rcases (mem_ancestors_of_parent hc).mp hyc with rfl | hyx
    · exact hne (under_refl _)
    · exact hna hyx

/-- Where the parent has at most a change on record, its child takes in reports. -/
theorem Ready.child (hb : Ready b x) (hx : Modest (b.noted x)) (hc : c.parent? = some x) : Ready b c := by
  obtain ⟨path, hpath⟩ := hb.leads
  refine ⟨hb.regular, ⟨_, hpath.concat hc⟩, fun a ha => ?_⟩
  rcases (mem_ancestors_of_parent hc).mp ha with rfl | ha
  · exact hx
  · exact hb.clear a ha

/-- A builder that is ready for a child is ready for its parent. -/
theorem Ready.parent (hb : Ready b c) (hc : c.parent? = some x)
    (hx : ∃ path, Leads b.bare.delta.element path x) : Ready b x :=
  ⟨hb.regular, hx, fun a ha => hb.clear a ((mem_ancestors_of_parent hc).mpr (.inr ha))⟩

section Loop

variable {β ι : Type} {flag : β → Bool} {place : ι → Handle} {told : ι → Prop}
  {post : ι → Builder → Prop} {step : β → ι → Except Error β} {i : ι} {l : List ι} {q q' : β}

/-- What a turn of a loop over the children of an element does: it is confined to its child and brings the
child into the state that it should have, provided that nothing was done there since `b`. -/
def Turn (view : β → Builder) (flag : β → Bool) (place : ι → Handle) (told : ι → Prop)
    (post : ι → Builder → Prop) (step : β → ι → Except Error β) (b : Builder) (i : ι) : Prop :=
  ∀ q, Ready (view q) (place i) →
    (∀ {y}, y.Follows simple → y.Under (place i) → (view q).noted y = b.noted y) →
    ∃ q', step q i = .ok q' ∧ (flag q' = true ↔ flag q = true ∨ told i) ∧
      Confined (view q) (view q') (place i) (told i) ∧ post i (view q')

/-- What a loop over children of `x` comes to: every child is as its own turn left it, the parent knows whether
anything was told of any of them, and beside the children nothing happened. -/
structure Swept (view : β → Builder) (flag : β → Bool) (place : ι → Handle) (told : ι → Prop)
    (post : ι → Builder → Prop) (x : Handle) (l : List ι) (q q' : β) : Prop where
  /-- it is confined to the parent -/
  confined : Confined (view q) (view q') x (∃ i ∈ l, told i)
  /-- it was noticed whether anything was told -/
  noticed : flag q' = true ↔ flag q = true ∨ ∃ i ∈ l, told i
  /-- every child is in the state that it should have -/
  done : ∀ i ∈ l, post i (view q')
  /-- the parent knows what was told -/
  shown : (∃ i ∈ l, told i) → (view q').noted x = ((view q).noted x).gained Flags.children
  /-- it knows of nothing else -/
  quiet : (¬ ∃ i ∈ l, told i) → (view q').noted x = (view q).noted x
  /-- beside the children everything stays -/
  beside : ∀ {y}, y.Follows simple → (∀ i ∈ l, ¬ y.Under (place i)) → y ≠ x → y ∉ x.ancestors →
    (view q').noted y = (view q).noted y

/-- A child that the loop does not come to keeps all that is on record for it and below it, since different children
of one parent have nothing below them in common. -/
theorem Swept.beside_child {c y : Handle} (h : Swept view flag place told post x l q q')
    (hplace : ∀ i ∈ l, (place i).parent? = some x) (hy : y.Follows simple) (hc : c.parent? = some x)
    (hyc : y.Under c) (hnot : ∀ i ∈ l, place i ≠ c) : (view q').noted y = (view q).noted y := by
  have hlt := depth_lt_of_mem_ancestors (hyc.mem_ancestors hc)
  apply h.beside hy
  · exact fun i hi => hyc.not_under hc (hplace i hi) (hnot i hi).symm
  · rintro rfl
    omega
  · intro hyx
    have := depth_lt_of_mem_ancestors hyx
    omega

/-- **A loop over children** is confined to their parent, and leaves each child as its own turn left it. The
induction is on the list. Different children of one parent have nothing below them in common (`Under.not_under`), so
each later turn is beside the child of an earlier one and keeps what that one has achieved. -/
theorem loop_confined (view : β → Builder) (hq : Ready (view q) x) (hx : Modest ((view q).noted x))
    (hplace : ∀ i ∈ l, (place i).Follows simple ∧ (place i).parent? = some x)
    (hapart : l.Pairwise fun i j => place i ≠ place j)
    (hpost : ∀ i ∈ l, ∀ b b', post i b →
      (∀ {y}, y.Follows simple → y.Under (place i) → b'.noted y = b.noted y) → post i b')
    (hturn : ∀ i ∈ l, Turn view flag place told post step (view q) i) :
    ∃ q', l.foldlM step q = .ok q' ∧ Swept view flag place told post x l q q' := by
  induction l generalizing q with
  | nil =>
    refine ⟨q, rfl, .refl hq.regular (by simp), by simp, by simp, by simp, fun _ => rfl, fun _ _ _ _ => rfl⟩
  | cons i l ih =>
    obtain ⟨hif, hip⟩ := hplace i (List.mem_cons_self ..)
    obtain ⟨hne, hapart⟩ := List.pairwise_cons.mp hapart
    have hxi : x ∈ (place i).ancestors := (mem_ancestors_of_parent hip).mpr (.inl rfl)
    obtain ⟨q₁, hstep, hflag, hconfined, hdone⟩ := hturn i (List.mem_cons_self ..) q (hq.child hx hip)
      fun _ _ => rfl
    have hready : Ready (view q₁) x :=
      (hconfined.ready hif (hq.child hx hip)).parent hip (hconfined.root.symm ▸ hq.leads)
    -- the other children have not been touched
    have huntouched : ∀ j ∈ l, ∀ {y}, y.Follows simple → y.Under (place j) →
        (view q₁).noted y = (view q).noted y := fun j hj {y} hy hyj =>
      have hjp := (hplace j (List.mem_cons_of_mem _ hj)).2
      hconfined.beside hy (hyj.not_under hjp hip (hne j hj).symm) (hyj.not_mem_ancestors hjp hip)
    obtain ⟨q', hfold, hswept⟩ := ih hready (hconfined.modest hif hxi hx)
      (fun j hj => hplace j (List.mem_cons_of_mem _ hj)) hapart
      (fun j hj => hpost j (List.mem_cons_of_mem _ hj))
      fun j hj q₂ hq₂ hsame => hturn j (List.mem_cons_of_mem _ hj) q₂ hq₂
        fun hy hyj => (hsame hy hyj).trans (huntouched j hj hy hyj)
    refine ⟨q', by rw [List.foldlM_cons, hstep]; exact hfold, ?_, ?_, fun j hj => ?_, fun ht => ?_,
      fun ht => ?_, fun {y} hy hnone hyx hya => ?_⟩
    · refine ((hconfined.parent hip).trans hswept.confined).congr ?_
      simp
    · rw [hswept.noticed, hflag, or_assoc]
      simp
    · rcases List.mem_cons.mp hj with rfl | hj
      · apply hpost j (List.mem_cons_self ..) _ _ hdone
        intro y hy hyj
        exact hswept.beside_child (fun k hk => (hplace k (List.mem_cons_of_mem _ hk)).2) hy hip hyj
          fun k hk => (hne k hk).symm
      · exact hswept.done j hj
    · obtain ⟨path, hpath⟩ := hq.leads
      by_cases hi : told i <;> by_cases hl : ∃ j ∈ l, told j
      · rw [hswept.shown hl, hconfined.above hi hxi hpath, gained_children_twice]
      · rw [hswept.quiet hl, hconfined.above hi hxi hpath]
      · rw [hswept.shown hl, hconfined.quiet hi hxi]
      · obtain ⟨j, hj, hjt⟩ := ht
        rcases List.mem_cons.mp hj with rfl | hj
        · exact absurd hjt hi
        · exact absurd ⟨j, hj, hjt⟩ hl
    · rw [hswept.quiet fun ⟨j, hj, hjt⟩ => ht ⟨j, List.mem_cons_of_mem _ hj, hjt⟩,
        hconfined.quiet (fun hi => ht ⟨i, List.mem_cons_self .., hi⟩) hxi]
    · have hyi : y ∉ (place i).ancestors := fun h =>
        ((mem_ancestors_of_parent hip).mp h).elim hyx hya
      exact (hswept.beside hy (fun j hj => hnone j (List.mem_cons_of_mem _ hj)) hyx hya).trans
        (hconfined.beside hy (hnone i (List.mem_cons_self ..)) hyi)

end Loop

end Builder

end CodeModel
