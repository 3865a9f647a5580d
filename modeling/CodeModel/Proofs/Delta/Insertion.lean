import CodeModel.Proofs.Delta.Sound

/-!
# What a report does to a change tree

A report that is put into a sound tree is seen at the end of its path and on the way there, and
nowhere else. Trees are looked at by `Delta.descend`, path by path.

* An ancestor that came or went as a **whole** swallows the report: the tree stays as it is
  (`composeAlong_eq_self`).
* Otherwise the node at the **end** is what composition makes of it (`descend_composeAlong`), the nodes
  **on the way** are changed and say that they have children (`descend_composeAlong_above`), and all
  nodes **beside** the path stay (`descend_composeAlong_beside`).
-/

namespace CodeModel

namespace Delta

open Handle

variable {lex : Lexicon} {e m x : Handle} {c d n incoming : Delta} {path other q r rest : List Handle}

/-! ## Looking down a path -/

/-- In a sound tree one goes down from child to child: there is at most one node about the next element of the path,
and if there is none the way ends. -/
theorem descend_cons (hd : Sound lex d) (hx : BelongsTo lex d.element x) :
    descend (x :: path) d = (about? d.children x).bind (descend path) := by
  have habout : d.children.find? (fun c => x.same c.element) = about? d.children x := rfl
  rw [descend, habout]
  rcases hc : about? d.children x with _ | c
  · simp
  · have hmem := mem_of_about? hc
    have hw : d.isWhole = false := by rw [isWhole, hd.status_of_mem hmem]; rfl
    simp [hw, hd.tidy.siblings.element_of_about? hx hc]

theorem descend_new_cons : descend (x :: path) ({ element := e } : Delta) = none := rfl

/-- What is found along a path is sound, and about the element to which the path leads. -/
theorem sound_descend (hd : Sound lex d) (h : Leads d.element path e) (he : e.Follows lex)
    (hn : descend path d = some n) : Sound lex n ∧ n.element = e := by
  induction path generalizing d with
  | nil =>
    obtain rfl := Option.some.inj hn
    exact ⟨hd, h.eq_of_nil.symm⟩
  | cons x path ih =>
    obtain ⟨step, hrest⟩ := h.of_cons
    have hx : BelongsTo lex d.element x := ⟨hrest.follows he, step⟩
    rw [descend_cons hd hx] at hn
    obtain ⟨c, hc, hn⟩ := Option.bind_eq_some_iff.mp hn
    have hcx := hd.tidy.siblings.element_of_about? hx hc
    exact ih (hd.child (mem_of_about? hc)) (hcx ▸ hrest) hn

theorem descend_append (q r : List Handle) (d : Delta) :
    descend (q ++ r) d = (descend q d).bind (descend r) := by
  induction q generalizing d with
  | nil => rfl
  | cons next q ih =>
    rw [List.cons_append, descend, descend]
    split
    · rfl
    · split
      · rfl
      · split
        · exact ih _
        · rfl

/-- What is below a node depends on its children only. So the node itself may be changed, as by a report about its
element, and everything below is found as before. -/
theorem descend_congr {n k : Delta} (hn : Sound lex n) (hk : Sound lex k) (hnk : n.element = k.element)
    (hchildren : n.children = k.children) (hx : x.Follows lex) (hr : r ≠ []) (h : Leads n.element r x) :
    descend r n = descend r k := by
  obtain ⟨next, rest, rfl⟩ := List.exists_cons_of_ne_nil hr
  obtain ⟨step, hrest⟩ := h.of_cons
  have hnext : BelongsTo lex n.element next := ⟨hrest.follows hx, step⟩
  rw [descend_cons hn hnext, descend_cons hk (hnk ▸ hnext), hchildren]

/-- Below a node without children there is nothing. -/
theorem descend_childless (hn : Sound lex n) (hchildren : n.children = []) (hx : x.Follows lex) (hr : r ≠ [])
    (h : Leads n.element r x) : descend r n = none := by
  obtain ⟨next, rest, rfl⟩ := List.exists_cons_of_ne_nil hr
  obtain ⟨step, hrest⟩ := h.of_cons
  rw [descend_cons hn ⟨hrest.follows hx, step⟩, hchildren]
  rfl

/-- No node strictly above the end of the path came or went as a whole, so nothing swallows a report on its way. -/
def Clear (path : List Handle) (d : Delta) : Prop :=
  ∀ q r n, path = q ++ r → r ≠ [] → descend q d = some n → n.isWhole = false

/-- At the beginning of a clear path the node is not whole, so a report on its way down passes it. -/
theorem Clear.head (h : Clear (x :: rest) d) : d.isWhole = false :=
  h [] (x :: rest) d rfl (by simp) rfl

/-- From the next node on the path is clear as well, which lets an induction along the path go on. -/
theorem Clear.tail (h : Clear (x :: rest) d) (hd : Sound lex d) (hx : BelongsTo lex d.element x)
    (hc : about? d.children x = some c) : Clear rest c := by
  rintro q r n rfl hr hn
  refine h (x :: q) r n rfl hr ?_
  rw [descend_cons hd hx, hc]
  exact hn

/-- In a tree about which nothing was reported every path is clear: there is no node yet that could be whole. -/
theorem clear_new (path : List Handle) (e : Handle) : Clear path { element := e } := by
  intro q r n _ _ hn
  cases q with
  | nil =>
    obtain rfl := Option.some.inj hn
    rfl
  | cons x q => cases hn

/-! ## Reports that are swallowed -/

/-- **Whole changes swallow** every report below them: that an element came or went says all there is to say about
what stands below it. -/
theorem composeAlong_eq_self (hd : Sound lex d) (hf : incoming.element.Follows lex)
    (h : Leads d.element (q ++ r) incoming.element) (hr : r ≠ []) (hn : descend q d = some n)
    (hw : n.isWhole = true) : composeAlong incoming (q ++ r) d = d := by
  induction q generalizing d with
  | nil =>
    obtain ⟨x, rest, rfl⟩ := List.exists_cons_of_ne_nil hr
    obtain rfl := Option.some.inj hn
    rw [List.nil_append, composeAlong_cons h.of_cons.2, if_pos hw]
  | cons x q ih =>
    rw [List.cons_append] at h ⊢
    obtain ⟨step, hrest⟩ := h.of_cons
    have hx : BelongsTo lex d.element x := ⟨hrest.follows hf, step⟩
    rw [descend_cons hd hx] at hn
    obtain ⟨c, hc, hn⟩ := Option.bind_eq_some_iff.mp hn
    have hmem := mem_of_about? hc
    have hcx := hd.tidy.siblings.element_of_about? hx hc
    obtain ⟨hs, hflags⟩ := hd.tidy.changed (List.ne_nil_of_mem hmem)
    have hne : ¬ d.isWhole = true := by simp [isWhole, hs, Status.isWhole]
    have hkept : composeAlong incoming (q ++ r) c = c := ih (hd.child hmem) (hcx ▸ hrest) hn
    -- the child on the path stays, so its siblings do, and the node said so much before
    have hupsert : upsert x (graft incoming (q ++ r)) (sprout incoming x (q ++ r)) d.children =
        d.children := by
      refine upsert_eq_self hmem ((hd.tidy.siblings.same_iff hx hmem).mpr hcx.symm) fun k hk hxk => ?_
      have hkx := (hd.tidy.siblings.same_iff hx hk).mp hxk
      obtain rfl : k = c :=
        Option.some.inj ((about?_of_mem hd.tidy.siblings hx hk hkx.symm).symm.trans hc)
      obtain ⟨y, ys, hy⟩ := List.exists_cons_of_ne_nil (List.append_ne_nil_of_right_ne_nil q hr)
      rw [hy] at hkept ⊢
      exact congrArg some hkept
    rw [composeAlong_cons hrest, if_neg hne, grown, hupsert, withChildren_children hs hflags]

/-! ## Reports that are taken in -/

/-- One step down a path that a report was put in along. Where the paths agree one meets what was
grafted or what sprouted there, else what was there before. -/
theorem descend_grown (hd : Sound lex d) (hi : Leaf incoming) (hf : incoming.element.Follows lex)
    (step : e.parent? = some d.element) (hrest : Leads e rest incoming.element)
    (hx : BelongsTo lex d.element x) (hw : d.isWhole = false) :
    descend (x :: other) (composeAlong incoming (e :: rest) d) =
      if x = e then
        match about? d.children e with
        | some c => (graft incoming rest c).bind (descend other)
        | none => descend other (sprout incoming e rest)
      else descend (x :: other) d := by
  obtain ⟨hsound, hel, -⟩ := sound_composeAlong hd hi hf (.down step hrest)
  have he : BelongsTo lex d.element e := ⟨hrest.follows hf, step⟩
  rw [descend_cons hsound (hel.symm ▸ hx), descend_cons hd hx, composeAlong_cons hrest,
    if_neg (by simp [hw]), grown, withChildren,
    about?_upsert hd.tidy.siblings he hx (element_sprout hrest) fun k hk k' hke hu => ?_]
  · split
    · rcases about? d.children e with _ | c <;> rfl
    · rfl
  · exact element_graft hd hi hf hrest hk hke hu

/-- What is left of an earlier report, if there is one, after a later one. -/
def settled (incoming : Delta) : Option Delta → Option Delta
  | some c => c.compose incoming
  | none => some incoming

/-- **At the end** of its path a report is composed with what was there, or stands there alone. By induction on the
path, one step of which is `descend_grown`. -/
theorem descend_composeAlong (hd : Sound lex d) (hi : Leaf incoming)
    (hf : incoming.element.Follows lex) (h : Leads d.element path incoming.element)
    (hne : path ≠ []) (hclear : Clear path d) :
    descend path (composeAlong incoming path d) = settled incoming (descend path d) := by
  induction path generalizing d with
  | nil => exact absurd rfl hne
  | cons e rest ih =>
    obtain ⟨step, hrest⟩ := h.of_cons
    have he : BelongsTo lex d.element e := ⟨hrest.follows hf, step⟩
    rw [descend_grown hd hi hf step hrest he hclear.head, if_pos rfl, descend_cons hd he]
    cases rest with
    | nil => rcases about? d.children e with _ | c <;> simp [graft, sprout, descend, settled]
    | cons next rest =>
      rcases hc : about? d.children e with _ | c
      · have := ih (sound_new he.follows) hrest (by simp) (clear_new _ e)
        rwa [descend_new_cons] at this
      · have hce := hd.tidy.siblings.element_of_about? he hc
        have := ih (hd.child (mem_of_about? hc)) (hce ▸ hrest) (by simp) (hclear.tail hd he hc)
        exact this

/-- **On the way** there every node is changed, and has no more than children to say: its flags gain the one for
children, and everything else it said before stays. -/
theorem descend_composeAlong_above (hd : Sound lex d) (hi : Leaf incoming)
    (hf : incoming.element.Follows lex) (h : Leads d.element (q ++ r) incoming.element)
    (hr : r ≠ []) (hm : Leads d.element q m) (hclear : Clear (q ++ r) d) :
    ∃ children, descend q (composeAlong incoming (q ++ r) d) =
      some (((descend q d).getD { element := m }).withChildren children) := by
  induction q generalizing d with
  | nil =>
    obtain ⟨x, rest, rfl⟩ := List.exists_cons_of_ne_nil hr
    rw [List.nil_append] at h hclear ⊢
    rw [composeAlong_cons h.of_cons.2, if_neg (by simp [hclear.head])]
    exact ⟨_, rfl⟩
  | cons e q ih =>
    rw [List.cons_append] at h hclear ⊢
    obtain ⟨step, hrest⟩ := h.of_cons
    have he : BelongsTo lex d.element e := ⟨hrest.follows hf, step⟩
    obtain ⟨y, ys, hy⟩ := List.exists_cons_of_ne_nil (List.append_ne_nil_of_right_ne_nil q hr)
    rw [descend_grown hd hi hf step hrest he hclear.head, if_pos rfl, descend_cons hd he]
    rcases hc : about? d.children e with _ | c
    · -- the node comes into being on the way
      have := ih (sound_new he.follows) hrest hm.of_cons.2 (clear_new _ e)
      rw [hy] at this ⊢
      have hgetD : (descend q ({ element := e } : Delta)).getD { element := m } =
          ({ element := m } : Delta) := by
        cases q with
        | nil => rw [hm.of_cons.2.eq_of_nil]; rfl
        | cons x q => rfl
      rw [hgetD] at this
      exact this
    · have hce := hd.tidy.siblings.element_of_about? he hc
      have := ih (hd.child (mem_of_about? hc)) (hce ▸ hrest) (hce ▸ hm.of_cons.2)
        (hclear.tail hd he hc)
      rw [hy] at this ⊢
      exact this

/-- **Beside** the path everything stays as it is. Where two paths part, they go through different children, and an
update of the one is not seen from the other. -/
theorem descend_composeAlong_beside (hd : Sound lex d) (hi : Leaf incoming)
    (hf : incoming.element.Follows lex) (h : Leads d.element path incoming.element)
    (hx : Leads d.element other x) (hxf : x.Follows lex) (hclear : Clear path d)
    (hpath : ¬ path <+: other) (hother : ¬ other <+: path) :
    descend other (composeAlong incoming path d) = descend other d := by
  induction path generalizing d other with
  | nil => exact absurd List.nil_prefix hpath
  | cons e rest ih =>
    cases other with
    | nil => exact absurd List.nil_prefix hother
    | cons y other =>
      obtain ⟨step, hrest⟩ := h.of_cons
      obtain ⟨stepy, hresty⟩ := hx.of_cons
      have he : BelongsTo lex d.element e := ⟨hrest.follows hf, step⟩
      have hy : BelongsTo lex d.element y := ⟨hresty.follows hxf, stepy⟩
      rw [descend_grown hd hi hf step hrest hy hclear.head]
      split
      · rename_i heq
        subst heq
        rw [List.cons_prefix_cons, not_and] at hpath hother
        -- the paths part further down, so neither of them ends here
        obtain ⟨a, as, rfl⟩ := List.exists_cons_of_ne_nil (l := rest)
          fun hnil => hpath rfl (hnil ▸ List.nil_prefix)
        obtain ⟨b, bs, rfl⟩ := List.exists_cons_of_ne_nil (l := other)
          fun hnil => hother rfl (hnil ▸ List.nil_prefix)
        rw [descend_cons hd hy]
        rcases hc : about? d.children y with _ | c
        · exact ih (sound_new he.follows) hrest hresty (clear_new _ y) (hpath rfl) (hother rfl)
        · have hcy := hd.tidy.siblings.element_of_about? hy hc
          exact ih (hd.child (mem_of_about? hc)) (hcy ▸ hrest) (hcy ▸ hresty)
            (hclear.tail hd he hc) (hpath rfl) (hother rfl)
      · rfl

end Delta

end CodeModel
