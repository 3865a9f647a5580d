import CodeModel.Proofs.Delta.Regular
import CodeModel.Proofs.Delta.StepLaw
import Mathlib.Data.List.Induction

/-!
# Attachments

Markers and resources come to a builder with reports of a change. They go through the same composition as
these, and markers through a test of their own.

* Markers are **refused** exactly for an element that matches one to which markers were attached before
  (`mem_marked_iff`).
* Once they are taken in, they stand at the **node of the element**, and so do resources, unless the element
  came or went as a whole (`attachments_delivered`).
* At an element that **came or went** attachments are dropped without a word, and an element that only
  matches a marked one is refused its own (`attachment_lost`).

What a node carries is known from the run: a node with markers is about an element that was marked, and a
node that came or went as a whole carries nothing (`Accounted`).
-/

namespace CodeModel

namespace Delta

open Handle

variable {lex : Lexicon} {d d' incoming n : Delta} {path : List Handle} {marked marked' : HandleSet}
  {o : Option Delta}

/-! ## Properties of the nodes -/

/-- Composition with a report brings in no children, since a report is a tree of one node. Those that are there
afterwards were there before; some may have been dropped. -/
theorem mem_children_of_compose {c : Delta} (hi : Leaf incoming) (h : d.compose incoming = some d')
    (hc : c ∈ d'.children) : c ∈ d.children := by
  have hnone : c ∉ incoming.children := by simp [hi.children]
  rw [compose_leaf hi, composeNode] at h
  split at h
  · cases h
    exact hc
  · cases h
    exact absurd hc hnone
  · cases h
  · cases h
    exact hc
  · cases h
    exact absurd hc hnone
  · cases h
    exact hc
  · cases h
    exact hc
  · cases h
    exact absurd hc hnone

/-- A property that a node keeps when it gets other children, and when the report is composed into it, is one of
**all nodes** again after the report was put in. Nodes that come into being on the way have it as empty ones. -/
theorem forall_part_composeAlong {Q : Delta → Prop} (hblank : ∀ e, Q { element := e })
    (hchildren : ∀ n l, n.isWhole = false → Q n → Q (n.withChildren l)) (hi : Leaf incoming)
    (hincoming : Q incoming)
    (hcompose : ∀ n n', Q n → Sound lex n → incoming.element = n.element → n.compose incoming = some n' → Q n')
    (hd : Sound lex d) (hf : incoming.element.Follows lex) (h : Leads d.element path incoming.element)
    (hall : ∀ n, Part n d → Q n) : ∀ n, Part n (composeAlong incoming path d) → Q n := by
  have hcomposed : ∀ {k k'}, Sound lex k → (∀ n, Part n k → Q n) → incoming.element = k.element →
      k.compose incoming = some k' → ∀ n, Part n k' → Q n := by
    intro k k' hk hall he hk' n hn
    rcases part_iff.mp hn with rfl | ⟨c, hc, hn⟩
    · exact hcompose k n (hall k .self) hk he hk'
    · exact hall n (.down (mem_children_of_compose hi hk' hc) hn)
  induction path generalizing d with
  | nil =>
    intro n hn
    rw [composeAlong, composeOrReset] at hn
    rcases hd' : d.compose incoming with _ | d'
    · rw [hd'] at hn
      obtain rfl := eq_of_part_childless rfl hn
      exact hblank d.element
    · rw [hd'] at hn
      exact hcomposed hd hall h.eq_of_nil hd' n hn
  | cons e rest ih =>
    intro n hn
    obtain ⟨step, hrest⟩ := h.of_cons
    have he : BelongsTo lex d.element e := ⟨hrest.follows hf, step⟩
    rw [composeAlong_cons hrest] at hn
    split at hn
    · exact hall n hn
    · rename_i hw
      rcases part_iff.mp hn with rfl | ⟨c, hc, hnc⟩
      · exact hchildren d _ (by simpa using hw) (hall d .self)
      · -- a child on the path is grafted on or sprouts, the others are as before
        rcases mem_of_mem_upsert hc with hc | rfl | ⟨k, hk, hek, hu⟩
        · exact hall n (.down hc hnc)
        · cases rest with
          | nil =>
            obtain rfl := eq_of_part_childless hi.children hnc
            exact hincoming
          | cons next rest =>
            refine ih (sound_new he.follows) hrest (fun m hm => ?_) n hnc
            obtain rfl := eq_of_part_childless rfl hm
            exact hblank e
        · have hke := (hd.tidy.siblings.same_iff he hk).mp hek
          cases rest with
          | nil =>
            exact hcomposed (hd.child hk) (fun m hm => hall m (.down hk hm)) (hrest.eq_of_nil.trans hke) hu n hnc
          | cons next rest =>
            obtain rfl := Option.some.inj hu
            exact ih (hd.child hk) (hke ▸ hrest) (fun m hm => hall m (.down hk hm)) n hnc

/-! ## Nodes and what they carry -/

/-- A node that came or went as a whole carries nothing, and one that carries markers is marked. It is the invariant
of builders that tells, from what was reported so far, what a report of attachments will come to. -/
structure Accounted (marked : HandleSet) (n : Delta) : Prop where
  /-- a whole change comes without attachments -/
  whole : n.isWhole = true → n.markers = [] ∧ n.resources = []
  /-- markers are at marked elements only -/
  marked : n.markers ≠ [] → n.element ∈ marked

theorem Accounted.mono (h : Accounted marked n) (hsub : marked ⊆ marked') : Accounted marked' n :=
  ⟨h.whole, fun hm => hsub (h.marked hm)⟩

theorem accounted_new (marked : HandleSet) (e : Handle) : Accounted marked { element := e } :=
  ⟨fun _ => ⟨rfl, rfl⟩, fun h => absurd rfl h⟩

theorem accounted_of_changed (hs : n.status = .changed) (hm : n.markers ≠ [] → n.element ∈ marked) :
    Accounted marked n := by
  refine ⟨fun hw => ?_, hm⟩
  rw [isWhole, hs] at hw
  cases hw

/-- Composing an accounted report into an accounted node gives an accounted one. -/
theorem Accounted.compose (h : Accounted marked n) (hi : Accounted marked incoming) (hleaf : Leaf incoming)
    (hn : Sound lex n) (he : incoming.element = n.element) (hd' : n.compose incoming = some d') :
    Accounted marked d' := by
  have htelling := hleaf.telling
  rcases hs : n.status with _ | _ | _ | _
  · rw [compose_blank hn.tidy hleaf hs] at hd'
    exact Option.some.inj hd' ▸ hi
  all_goals
    rw [compose_leaf hleaf, composeNode, hs] at hd'
    rcases ht : incoming.status with _ | _ | _ | _
    · exact absurd ht htelling
    all_goals
      rw [ht] at hd'
      cases hd'
  · exact h
  · exact h
  · exact accounted_of_changed rfl hi.marked
  · exact h
  · exact h
  · exact hi
  · exact hi
  · -- the markers of both are at the one element
    refine accounted_of_changed hs fun hm => ?_
    by_cases hn : n.markers = []
    · have hinc : incoming.markers ≠ [] := fun hinc => hm (by rw [joinNode, hn, hinc]; rfl)
      exact he ▸ hi.marked hinc
    · exact h.marked hn

theorem accounted_toDelta (r : Report) (marked : HandleSet) (h : r.attachesMarkers = true → r.element ∈ marked) :
    Accounted marked r.toDelta := by
  cases r with
  | markers e ids => exact accounted_of_changed rfl fun _ => h rfl
  | changed e flags => exact accounted_of_changed rfl fun hm => absurd rfl hm
  | resource e change => exact accounted_of_changed rfl fun hm => absurd rfl hm
  | added e flags => exact ⟨fun _ => ⟨rfl, rfl⟩, fun hm => absurd rfl hm⟩
  | removed e flags => exact ⟨fun _ => ⟨rfl, rfl⟩, fun hm => absurd rfl hm⟩
  | movedFrom e origin => exact ⟨fun _ => ⟨rfl, rfl⟩, fun hm => absurd rfl hm⟩
  | movedTo e destination => exact ⟨fun _ => ⟨rfl, rfl⟩, fun hm => absurd rfl hm⟩

/-! ## What becomes of attachments -/

/-- The node that is there, or else one with nothing to tell. -/
def orBlank (e : Handle) (o : Option Delta) : Delta := o.getD { element := e }

/-- **A change adds** its attachments to those that were there, but not to a node that came or went as a whole:
there the table keeps the node as it was and drops the change with all that it carries. -/
theorem attachments_settled (e : Handle) (ho : ∀ c ∈ o, Sound lex c) (hi : Leaf incoming)
    (hs : incoming.status = .changed) :
    ∃ n, settled incoming o = some n ∧
      n.markers = (orBlank e o).markers ++ (if (orBlank e o).isWhole then [] else incoming.markers) ∧
      n.resources = (orBlank e o).resources ++ (if (orBlank e o).isWhole then [] else incoming.resources) := by
  rcases o with _ | c
  · exact ⟨incoming, rfl, rfl, rfl⟩
  · rw [settled, orBlank, Option.getD_some]
    rcases hc : c.status with _ | _ | _ | _
    · rw [compose_blank (ho c rfl).tidy hi hc, (ho c rfl).tidy.blank hc]
      exact ⟨incoming, rfl, rfl, rfl⟩
    all_goals
      rw [compose_leaf hi, composeNode, hc, hs, isWhole, hc]
    · exact ⟨c, rfl, (List.append_nil _).symm, (List.append_nil _).symm⟩
    · exact ⟨c, rfl, (List.append_nil _).symm, (List.append_nil _).symm⟩
    · exact ⟨joinNode c incoming, rfl, rfl, rfl⟩

end Delta

/-- A report is one of markers for an element exactly if it attaches markers there. -/
theorem Report.eq_markers_iff {r : Report} {x : Handle} :
    (∃ ids, r = .markers x ids) ↔ r.attachesMarkers = true ∧ r.element = x := by
  cases r with
  | markers e ids => simp [attachesMarkers, element, toDelta]
  | _ => simp [attachesMarkers]

namespace Builder

open Delta Handle

variable {lex : Lexicon} {root e x : Handle} {b b' : Builder} {r : Report} {rs : List Report}

/-! ## Marked elements -/

theorem reportAll_concat (b : Builder) (rs : List Report) (r : Report) :
    b.reportAll (rs ++ [r]) = ((b.reportAll rs).report r).toOption.getD (b.reportAll rs) := by
  rw [reportAll, List.foldl_append, List.foldl_cons, List.foldl_nil]
  rfl

/-- Reports that attach markers are the only ones to mark their element. -/
theorem marked_report (h : b.report r = .ok b') :
    b'.marked = if r.attachesMarkers then b.marked ++ [r.element] else b.marked := by
  have hinsert : ∀ {b''}, b.insert r.toDelta = .ok b'' → b''.marked = b.marked := by
    intro b'' hi
    rw [insert] at hi
    split at hi <;> cases hi
    rfl
  rw [report] at h
  split at h
  · rename_i hm
    split at h
    · cases h
    · rename_i hnew
      rw [if_pos hm]
      rcases hi : b.insert r.toDelta with _ | b''
      · rw [hi] at h
        cases h
      · rw [hi] at h
        obtain rfl := Except.ok.inj h
        change HandleSet.insert b''.marked r.element = _
        rw [hinsert hi, HandleSet.insert, if_neg hnew]
  · rename_i hm
    rw [if_neg hm, hinsert h]

/-- In the course of the reports markers were attached to the element. -/
def AttachedIn (root : Handle) (rs : List Report) (x : Handle) : Prop :=
  ∃ before ids after, rs = before ++ .markers x ids :: after ∧
    (((new root).reportAll before).report (.markers x ids)).isOk = true

theorem attachedIn_concat : AttachedIn root (rs ++ [r]) x ↔
    AttachedIn root rs x ∨
      (∃ ids, r = .markers x ids) ∧ (((new root).reportAll rs).report r).isOk = true := by
  constructor
  · rintro ⟨before, ids, after, hrs, hok⟩
    rcases after.eq_nil_or_concat with rfl | ⟨after, r', rfl⟩
    · obtain ⟨rfl, hr⟩ := List.append_inj' hrs rfl
      obtain rfl := List.singleton_inj.mp hr
      exact .inr ⟨⟨ids, rfl⟩, hok⟩
    · rw [List.concat_eq_append, ← List.cons_append, ← List.append_assoc] at hrs
      obtain ⟨rfl, -⟩ := List.append_inj' hrs rfl
      exact .inl ⟨before, ids, after, rfl, hok⟩
  · rintro (⟨before, ids, after, rfl, hok⟩ | ⟨⟨ids, rfl⟩, hok⟩)
    · exact ⟨before, ids, after ++ [r], by simp, hok⟩
    · exact ⟨rs, ids, [], rfl, hok⟩

/-- **The marked elements** are those to which markers were attached. An element is marked when the report is taken
in, whether or not its node keeps the markers. -/
theorem mem_marked_iff : x ∈ ((new root).reportAll rs).marked ↔ AttachedIn root rs x := by
  induction rs using List.reverseRecOn with
  | nil =>
    refine ⟨fun h => absurd h List.not_mem_nil, ?_⟩
    rintro ⟨before, ids, after, h, -⟩
    simp at h
  | append_singleton rs r ih =>
    rw [attachedIn_concat, ← ih, reportAll_concat]
    rcases h : ((new root).reportAll rs).report r with _ | b'
    · simp [Except.toOption, Except.isOk, Except.toBool]
    · change x ∈ b'.marked ↔ _
      rw [marked_report h, Report.eq_markers_iff,
        and_iff_left (show (Except.ok b' : Except Error Builder).isOk = true from rfl)]
      by_cases hm : r.attachesMarkers = true <;> simp [hm, eq_comm]

/-! ## The run -/

/-- **Every builder** accounts for what its nodes carry, by induction on the reports: each of them is put in at the
end of a path, and marks its element at the same time. -/
theorem accounted_reportAll (hroot : root.Follows lex) (hrs : ∀ r ∈ rs, r.element.Follows lex) :
    ∀ n, Part n ((new root).reportAll rs).delta → Accounted ((new root).reportAll rs).marked n := by
  induction rs using List.reverseRecOn with
  | nil =>
    intro n hn
    obtain rfl := eq_of_part_childless rfl hn
    exact accounted_new [] root
  | append_singleton rs r ih =>
    obtain ⟨hrs, hr⟩ := List.forall_mem_append.mp hrs
    replace hr := hr r (List.mem_singleton_self r)
    have hsound := (sound_reportAll (show Sound lex (new root).delta from sound_new hroot) hrs).1
    rw [reportAll_concat]
    rcases h : ((new root).reportAll rs).report r with _ | b'
    · exact ih hrs
    · obtain ⟨path, hleads, hdelta⟩ := delta_report hsound.tidy.follows hr h
      have hsub : ((new root).reportAll rs).marked ⊆ b'.marked := by
        rw [marked_report h]
        split
        · exact List.subset_append_left _ _
        · exact fun _ hx => hx
      have hincoming : Accounted b'.marked r.toDelta := by
        refine accounted_toDelta r b'.marked fun hm => ?_
        rw [marked_report h, if_pos hm]
        exact List.mem_concat_self
      change ∀ n, Part n b'.delta → Accounted b'.marked n
      rw [hdelta]
      exact forall_part_composeAlong (accounted_new b'.marked)
        (fun n l _ hn => accounted_of_changed rfl hn.marked) (leaf_toDelta r) hincoming
        (fun n n' hn hs he hc => hn.compose hincoming (leaf_toDelta r) hs he hc) hsound hr hleads
        fun n hn => (ih hrs n hn).mono hsub

/-- Markers are refused for an element that matches a marked one. The comparison is the relaxed one, so this may be
another element than the one that has the markers. -/
theorem report_of_marked (hm : r.attachesMarkers = true) (h : HandleSet.contains b.marked r.element = true) :
    b.report r = .error (.illegalState (.markersAttached r.element)) := by
  rw [report, if_pos hm, if_pos h]

/-- Any other report within the tree is put in at the end of its path. -/
theorem exists_report_of_leads {path : List Handle} (hb : Sound lex b.delta) (hr : r.element.Follows lex)
    (hnew : r.attachesMarkers = true → HandleSet.contains b.marked r.element = false)
    (h : Leads b.delta.element path r.element) :
    ∃ b', b.report r = .ok b' ∧ b'.delta = composeAlong r.toDelta path b.delta := by
  have hinsert : b.insert r.toDelta = .ok { b with delta := composeAlong r.toDelta path b.delta } := by
    have hpath : pathBelow? b.delta.element r.toDelta.element = some path :=
      (pathBelow?_eq_some_iff hb.tidy.follows hr).mpr h
    rw [insert, hpath]
  rw [report]
  split
  · rename_i hm
    rw [hnew hm, hinsert]
    exact ⟨_, rfl, rfl⟩
  · exact ⟨_, hinsert, rfl⟩

/-- What a builder has about an element; nothing to tell if there is no node. -/
def nodeOf (b : Builder) (e : Handle) : Delta := orBlank e (b.delta.find? e)

/-- **What a change attaches** is found at its element, behind what was attached there before, unless the element
came or went as a whole. -/
theorem exists_attached (hb : Sound lex b.delta) (hr : r.element.Follows lex)
    (hs : r.toDelta.status = .changed) (hin : r.element.isWithin b.delta.element = true)
    (hclear : ∀ a ∈ r.element.ancestors, (b.delta.find? a).any Delta.isWhole = false)
    (hnew : r.attachesMarkers = true → HandleSet.contains b.marked r.element = false) :
    ∃ b' n, b.report r = .ok b' ∧ b'.delta.find? r.element = some n ∧
      n.markers = (b.nodeOf r.element).markers ++
        (if (b.nodeOf r.element).isWhole then [] else r.toDelta.markers) ∧
      n.resources = (b.nodeOf r.element).resources ++
        (if (b.nodeOf r.element).isWhole then [] else r.toDelta.resources) := by
  obtain ⟨path, hpath⟩ := (isWithin_iff hb.tidy.follows hr).mp hin
  obtain ⟨b', hreport, hdelta⟩ := exists_report_of_leads hb hr hnew hpath
  have hfind := find?_composeAlong hb (leaf_toDelta r) hr hpath
    (clear_of_find? hb.tidy.follows hr hpath hclear)
  obtain ⟨n, hn, hmarkers, hresources⟩ := attachments_settled r.element
    (fun c hc => (sound_of_find? hb hr hc).1) (leaf_toDelta r) hs
  refine ⟨b', n, hreport, ?_, hmarkers, hresources⟩
  have hsettled : settled r.toDelta (b.delta.find? r.toDelta.element) = some n := hn
  rw [hdelta, show r.element = r.toDelta.element from rfl, hfind, hsettled]
  split <;> rfl

theorem accounted_nodeOf (hroot : root.Follows lex) (hrs : ∀ r ∈ rs, r.element.Follows lex)
    (he : e.Follows lex) :
    Accounted ((new root).reportAll rs).marked (((new root).reportAll rs).nodeOf e) ∧
      (((new root).reportAll rs).nodeOf e).element = e := by
  have hsound := (sound_reportAll (show Sound lex (new root).delta from sound_new hroot) hrs).1
  rw [nodeOf]
  rcases hfind : ((new root).reportAll rs).delta.find? e with _ | n
  · exact ⟨accounted_new _ e, rfl⟩
  · exact ⟨accounted_reportAll hroot hrs n (part_of_find? hfind), (sound_of_find? hsound he hfind).2⟩

/-- **Attachments are delivered**, but not at an element that came or went as a whole. After any reports, markers
are taken in for an element of the tree exactly if none were attached to an element that it matches, and the node of
the element then has these markers; resources are always taken in and come after those that the node had. A node
that came or went as a whole is left without either. The test for markers goes by matching elements, but nodes are
found strictly: this is why an element can be refused markers without having any. -/
theorem attachments_delivered (hroot : root.Follows lex) (hrs : ∀ r ∈ rs, r.element.Follows lex)
    (hb : b = (new root).reportAll rs) (he : e.Follows lex) (hin : e.isWithin root = true)
    (hclear : ∀ a ∈ e.ancestors, (b.delta.find? a).any Delta.isWhole = false) :
    (∀ ids,
      ((∃ x, AttachedIn root rs x ∧ e.same x = true) →
        b.report (.markers e ids) = .error (.illegalState (.markersAttached e))) ∧
      ((¬ ∃ x, AttachedIn root rs x ∧ e.same x = true) →
        ∃ b' n, b.report (.markers e ids) = .ok b' ∧ b'.delta.find? e = some n ∧
          n.markers = (if (b.nodeOf e).isWhole then [] else ids) ∧
          n.resources = (b.nodeOf e).resources)) ∧
    ∀ change, ∃ b' n, b.report (.resource e change) = .ok b' ∧ b'.delta.find? e = some n ∧
      n.resources = (if (b.nodeOf e).isWhole then [] else (b.nodeOf e).resources ++ [change]) ∧
      n.markers = (b.nodeOf e).markers := by
  obtain ⟨hsound, hel⟩ := sound_reportAll (show Sound lex (new root).delta from sound_new hroot) hrs
  obtain ⟨haccounted, hnode⟩ := accounted_nodeOf hroot hrs he
  have hcontains : HandleSet.contains b.marked e = true ↔ ∃ x, AttachedIn root rs x ∧ e.same x = true := by
    rw [HandleSet.contains, List.any_eq_true, hb]
    simp only [mem_marked_iff]
  rw [← hb] at hsound hel haccounted hnode
  replace hin : e.isWithin b.delta.element = true := hel.symm ▸ hin
  refine ⟨fun ids => ⟨fun hseen => report_of_marked rfl (hcontains.mpr hseen), fun hnew => ?_⟩,
    fun change => ?_⟩
  · have hfresh : HandleSet.contains b.marked e = false := by
      rw [← Bool.not_eq_true, hcontains]
      exact hnew
    -- an element whose node has markers is marked, and this one is not
    have hnone : (b.nodeOf e).markers = [] := Classical.byContradiction fun hm => by
      rw [HandleSet.contains, List.any_eq_false] at hfresh
      exact hfresh e (hnode ▸ haccounted.marked hm) (same_refl e)
    obtain ⟨b', n, hreport, hfind, hmarkers, hresources⟩ :=
      exists_attached (r := .markers e ids) hsound he rfl hin hclear fun _ => hfresh
    refine ⟨b', n, hreport, hfind, hmarkers.trans ?_, hresources.trans ?_⟩
    · change (b.nodeOf e).markers ++ (if (b.nodeOf e).isWhole then [] else ids) = _
      rw [hnone, List.nil_append]
    · change (b.nodeOf e).resources ++ (if (b.nodeOf e).isWhole then [] else []) = _
      rw [ite_self, List.append_nil]
  · obtain ⟨b', n, hreport, hfind, hmarkers, hresources⟩ :=
      exists_attached (r := .resource e change) hsound he rfl hin hclear fun h => by cases h
    refine ⟨b', n, hreport, hfind, hresources.trans ?_, hmarkers.trans ?_⟩
    · change (b.nodeOf e).resources ++ (if (b.nodeOf e).isWhole then [] else [change]) = _
      split
      · rename_i hw
        rw [(haccounted.whole hw).2, List.append_nil]
      · rfl
    · change (b.nodeOf e).markers ++ (if (b.nodeOf e).isWhole then [] else []) = _
      rw [ite_self, List.append_nil]

/-- Markers and two resources at an element that changed before, below a library that is reached through two
projects and has markers in one of them; at the library in the other one they are refused. -/
theorem attachments_delivered_below_library :
    let root := Handle.top { name := "Tree" } (some "t")
    let libraryIn := fun project : String =>
      (root.sub { name := "Project" } project).sub { name := "Library", parentIndependent := true } "l"
    let leaf := (libraryIn "b").sub { name := "Leaf" } "x"
    let before : ResourceChange := ⟨"a", .added⟩
    let b := (new root).reportAll [.markers (libraryIn "a") [1], .changed leaf Flags.reorder, .resource leaf before]
    (∃ b' n, b.report (.markers leaf [2, 3]) = .ok b' ∧ b'.delta.find? leaf = some n ∧ n.markers = [2, 3] ∧
      n.resources = [before]) ∧
    (∃ b' n, b.report (.resource leaf ⟨"b", .removed⟩) = .ok b' ∧ b'.delta.find? leaf = some n ∧
      n.resources = [before, ⟨"b", .removed⟩]) ∧
    b.report (.markers (libraryIn "b") [4]) = .error (.illegalState (.markersAttached (libraryIn "b"))) := by
  intro root libraryIn leaf before b
  let lex : Lexicon := fun name => { name, parentIndependent := name == "Library" }
  let reports : List Report := [.markers (libraryIn "a") [1], .changed leaf Flags.reorder, .resource leaf before]
  have hroot : root.Follows lex := by decide
  have hreports : ∀ r ∈ reports, r.element.Follows lex := by decide
  have hattached : ∀ x, AttachedIn root reports x ↔ x = libraryIn "a" := fun x =>
    mem_marked_iff.symm.trans List.mem_singleton
  have hb : b = (new root).reportAll reports := rfl
  have hleaf := attachments_delivered hroot hreports hb (show leaf.Follows lex by decide) (by decide) (by decide)
  have hlibrary := attachments_delivered hroot hreports hb (show (libraryIn "b").Follows lex by decide)
    (by decide) (by decide)
  have hwhole : (b.nodeOf leaf).isWhole = false := by decide
  have hbefore : (b.nodeOf leaf).resources = [before] := by decide
  simp only [hwhole, hbefore, Bool.false_eq_true, if_false, List.cons_append, List.nil_append] at hleaf
  refine ⟨(hleaf.1 [2, 3]).2 ?_, ?_, (hlibrary.1 [4]).1 ⟨libraryIn "a", (hattached _).mpr rfl, by decide⟩⟩
  · rintro ⟨x, hx, hsame⟩
    obtain rfl := (hattached x).mp hx
    exact absurd hsame (by decide)
  · obtain ⟨b', n, hreport, hfind, hresources, -⟩ := hleaf.2 ⟨"b", .removed⟩
    exact ⟨b', n, hreport, hfind, hresources⟩

/-- **Attachments are lost**: at an element that was added before, markers and a resource are taken in, but its
node has neither, and the markers are said to be attached when they are reported again. And what is marked in
one place is refused in another one, although the two places have nodes of their own. -/
theorem attachment_lost :
    let root := Handle.top { name := "Tree" } (some "t")
    let leaf := root.sub { name := "Leaf" } "x"
    let libraryIn := fun project : String =>
      (root.sub { name := "Project" } project).sub { name := "Library", parentIndependent := true } "l"
    let b := (new root).reportAll [.added leaf, .markers leaf [1], .resource leaf ⟨"a", .added⟩]
    let b' := (new root).reportAll [.markers (libraryIn "a") [1], .resource (libraryIn "b") ⟨"b", .added⟩]
    AttachedIn root [.added leaf, .markers leaf [1], .resource leaf ⟨"a", .added⟩] leaf ∧
      (b.delta.find? leaf).map (fun n => (n.markers, n.resources)) = some ([], []) ∧
      (b.report (.markers leaf [1])).isOk = false ∧
      ¬ AttachedIn root [.markers (libraryIn "a") [1], .resource (libraryIn "b") ⟨"b", .added⟩] (libraryIn "b") ∧
      (b'.report (.markers (libraryIn "b") [1])).isOk = false ∧
      (b'.delta.find? (libraryIn "a")).map (·.markers) = some [1] ∧
      (b'.delta.find? (libraryIn "b")).map (·.markers) = some [] := by
  intro root leaf libraryIn b b'
  rw [← mem_marked_iff, ← mem_marked_iff]
  decide

end Builder

end CodeModel
