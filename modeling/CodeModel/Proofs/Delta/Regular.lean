import CodeModel.Proofs.Delta.Sound

/-!
# Regular change trees

Trees that are tidy all the way down and whose nodes have, each in its own fields, a property that
composition never destroys.

* Composing one **regular** tree into another gives a regular one (`Regular.compose`), so merging does
  (`Regular.merge`), and copying does too (`Regular.copy`).
* Putting a report in at the end of a path **is a merge**: of the tree that has the report at the end of
  a spine of changed nodes (`composeAlong_eq_compose`). So builders keep trees regular as well
  (`Regular.report`).
-/

namespace CodeModel

namespace Delta

open Handle

variable {lex : Lexicon} {P : Delta → Prop} {e : Handle} {c d d' n incoming : Delta} {l : List Delta}
  {path : List Handle}

/-! ## Properties that last -/

/-- A property of a node's flags, moves and attachments that composition **keeps**: it holds of a node with nothing
to tell, more flags do no harm, and two nodes that have it are joined to one that has it. For such a property it is
enough to look at single reports. -/
structure Lasting (P : Delta → Prop) : Prop where
  /-- it holds of a node with nothing to tell -/
  blank : ∀ e, P { element := e }
  /-- it is about flags, moves and attachments only -/
  field : ∀ {d : Delta} e s l, P d → P { d with element := e, status := s, children := l }
  /-- more flags do no harm -/
  grow : ∀ {d : Delta} f, P d → P { d with flags := d.flags ∪ f }
  /-- joining keeps it -/
  join : ∀ {d k : Delta}, P d → P k → P (joinNode d k)

theorem Lasting.withChildren (hP : Lasting P) (h : P d) (l : List Delta) : P (d.withChildren l) :=
  hP.field d.element .changed l (hP.grow Flags.children h)

/-- A **regular** tree is tidy all the way down, and its nodes have the property. With the property left open, one
induction over trees serves for moves that are flagged, for trees without attachments, and for soundness itself. -/
inductive Regular (lex : Lexicon) (P : Delta → Prop) : Delta → Prop where
  /-- a tidy node with the property over regular trees -/
  | intro {d : Delta} (tidy : Tidy lex d) (own : P d) (below : ∀ c ∈ d.children, Regular lex P c) :
      Regular lex P d

namespace Regular

theorem tidy (h : Regular lex P d) : Tidy lex d := by
  cases h
  assumption

theorem own (h : Regular lex P d) : P d := by
  cases h
  assumption

theorem child (h : Regular lex P d) (hc : c ∈ d.children) : Regular lex P c := by
  cases h with
  | intro _ _ below => exact below c hc

theorem sound (h : Regular lex P d) : Sound lex d := by
  induction h with
  | intro tidy _ _ ih => exact .intro tidy ih

theorem children_eq_nil (h : Regular lex P d) (hs : d.status ≠ .changed) : d.children = [] :=
  Classical.byContradiction fun hne => hs (h.tidy.changed hne).1

/-- A tree about which nothing was reported is regular. -/
theorem blank (hP : Lasting P) (he : e.Follows lex) : Regular lex P { element := e } :=
  .intro (sound_new he).tidy (hP.blank e) (by simp)

theorem leaf (h : Leaf d) (hd : d.element.Follows lex) (hown : P d) : Regular lex P d := by
  refine .intro (sound_leaf h hd).tidy hown fun c hc => ?_
  rw [h.children] at hc
  cases hc

/-- A node without children may say anything, as long as it says something. -/
theorem childless (hf : e.Follows lex) (he : d.element = e) (hs : d.status ≠ .unchanged)
    (hown : P d) (hc : d.children = []) : Regular lex P d :=
  leaf ⟨hs, hc⟩ (he ▸ hf) hown

theorem withChildren (hP : Lasting P) (hd : d.element.Follows lex) (hown : P d)
    (hl : Siblings lex d.element l) (hc : ∀ c ∈ l, Regular lex P c ∧ c.status ≠ .unchanged) :
    Regular lex P (d.withChildren l) :=
  .intro (sound_withChildren hd hl fun c h => ⟨(hc c h).1.sound, (hc c h).2⟩).tidy
    (hP.withChildren hown l) fun c h => (hc c h).1

end Regular

/-! ## Parts -/

/-- A node of the tree: the tree itself, or a node below one of its children. -/
inductive Part (n : Delta) : Delta → Prop where
  /-- the tree itself -/
  | self : Part n n
  /-- a node below a child -/
  | down {c d : Delta} (child : c ∈ d.children) (part : Part n c) : Part n d

/-- A part of a tree is the tree or a part of one of its children. -/
theorem part_iff : Part n d ↔ n = d ∨ ∃ c ∈ d.children, Part n c := by
  constructor
  · rintro (_ | ⟨child, part⟩)
    · exact .inl rfl
    · exact .inr ⟨_, child, part⟩
  · rintro (rfl | ⟨c, hc, part⟩)
    · exact .self
    · exact .down hc part

theorem eq_of_part_childless (hd : d.children = []) (hn : Part n d) : n = d := by
  rcases part_iff.mp hn with rfl | ⟨c, hc, -⟩
  · rfl
  · rw [hd] at hc
    cases hc

theorem Regular.part (h : Regular lex P d) (hn : Part n d) : Regular lex P n := by
  induction hn with
  | self => exact h
  | down child _ ih => exact ih (h.child child)

theorem part_of_find? (h : d.find? e = some n) : Part n d := by
  obtain ⟨path, -, hdescend⟩ := Option.bind_eq_some_iff.mp h
  clear h
  induction path generalizing d with
  | nil =>
    obtain rfl := Option.some.inj hdescend
    exact .self
  | cons next rest ih =>
    rw [descend] at hdescend
    split at hdescend
    · cases hdescend
    · split at hdescend
      · cases hdescend
      · rename_i c hc
        split at hdescend
        · exact .down (List.mem_of_find?_eq_some hc) (ih hdescend)
        · cases hdescend

/-! ## Composition -/

/-- Registering a child composes it with an earlier report about the child, or puts it in. -/
theorem addChild_of_not_whole (h : d.isWhole = false) (c : Delta) :
    d.addChild c = d.withChildren (upsert c.element (·.compose c) c d.children) := by
  rw [addChild, addChildWith, if_neg (by simp [h]), withChildren]

/-- The outcome of composing `incoming` into `d`: a regular tree about the same element that has
something to tell if either of the two had. -/
structure Merged (lex : Lexicon) (P : Delta → Prop) (d incoming d' : Delta) : Prop where
  /-- it is regular -/
  regular : Regular lex P d'
  /-- it is about the same element -/
  element : d'.element = d.element
  /-- it tells something if either of the two did -/
  telling : d.status ≠ .unchanged ∨ incoming.status ≠ .unchanged → d'.status ≠ .unchanged

/-- Registering a child keeps a tree regular if composing with an earlier report about the child does. -/
theorem Regular.addChild (hP : Lasting P) (hd : Regular lex P d) (hw : d.isWhole = false)
    (hc : Regular lex P c) (htelling : c.status ≠ .unchanged) (hb : BelongsTo lex d.element c.element)
    (hcompose : ∀ k k', Regular lex P k → c.element = k.element → k.compose c = some k' →
      Merged lex P k c k') :
    Regular lex P (d.addChild c) := by
  rw [addChild_of_not_whole hw]
  have hupdate : ∀ k ∈ d.children, ∀ k', k.element = c.element → k.compose c = some k' →
      Merged lex P k c k' := fun k hk k' hke h => hcompose k k' (hd.child hk) hke.symm h
  refine Regular.withChildren hP hd.tidy.follows hd.own ?_ fun x hx => ?_
  · exact siblings_upsert hd.tidy.siblings hb rfl
      fun k hk k' hke h => (hupdate k hk k' hke h).element.trans hke
  · rcases mem_of_mem_upsert hx with hx | rfl | ⟨k, hk, hck, h⟩
    · exact ⟨hd.child hx, hd.tidy.telling x hx⟩
    · exact ⟨hc, htelling⟩
    · have hke := ((hd.tidy.siblings.same_iff hb hk).mp hck).symm
      have hmerged := hupdate k hk x hke h
      exact ⟨hmerged.regular, hmerged.telling (.inr htelling)⟩

/-- Registering children one after the other, each of which can be composed with an earlier report. -/
theorem Regular.joinChildren {cs : List Delta} (hP : Lasting P) (hd : Regular lex P d)
    (hs : d.status = .changed) (hcs : ∀ c ∈ cs, Regular lex P c ∧ c.status ≠ .unchanged ∧
      BelongsTo lex d.element c.element)
    (hcompose : ∀ c ∈ cs, ∀ k k', Regular lex P k → c.element = k.element → k.compose c = some k' →
      Merged lex P k c k') :
    Regular lex P (d.joinChildren cs) ∧ (d.joinChildren cs).element = d.element ∧
      (d.joinChildren cs).status = .changed := by
  induction cs generalizing d with
  | nil => exact ⟨hd, rfl, hs⟩
  | cons c cs ih =>
    obtain ⟨hc, htelling, hb⟩ := hcs c (List.mem_cons_self ..)
    have hw : d.isWhole = false := by rw [isWhole, hs]; rfl
    have hadd := hd.addChild hP hw hc htelling hb (hcompose c (List.mem_cons_self ..))
    rw [joinChildren_cons]
    rw [addChild_of_not_whole hw] at hadd ⊢
    exact ih hadd rfl (fun x hx => hcs x (List.mem_cons_of_mem _ hx))
      fun x hx => hcompose x (List.mem_cons_of_mem _ hx)

/-- Where nothing was reported before, the later report stands as it is. -/
theorem compose_into_blank (hd : Tidy lex d) (hs : d.status = .unchanged)
    (hi : incoming.status ≠ .unchanged) : d.compose incoming = some incoming := by
  rw [compose_eq, hd.blank hs, composeNode]
  rcases ht : incoming.status with _ | _ | _ | _
  · exact absurd ht hi
  all_goals
    cases incoming
    obtain rfl : _ = _ := ht
    simp

theorem joinNode_eq (d incoming : Delta) (h : incoming.status = .unchanged)
    (hi : Tidy lex incoming) : joinNode d incoming = d := by
  rw [hi.blank h, joinNode_new]

/-- **Composition** keeps trees regular. By induction on the incoming tree: where two changes meet, its children are
registered one after the other, and each of them meets an earlier report about the same child or none. -/
theorem Regular.compose (hP : Lasting P) (hd : Regular lex P d) (hi : Regular lex P incoming)
    (he : incoming.element = d.element) (h : d.compose incoming = some d') :
    Merged lex P d incoming d' := by
  -- the induction is on the later tree, whose children are composed in one by one
  induction hi generalizing d d' with
  | @intro incoming tidy own below ih =>
    have hincoming : Regular lex P incoming := .intro tidy own below
    have hsame : Merged lex P d incoming d ∨ d.status = .unchanged := by
      by_cases hs : d.status = .unchanged
      · exact .inr hs
      · exact .inl ⟨hd, rfl, fun _ => hs⟩
    rcases hst : incoming.status with _ | _ | _ | _
    · -- nothing comes in
      rw [compose_unchanged _ _ hst, joinNode_eq d incoming hst tidy,
        hincoming.children_eq_nil (by simp [hst])] at h
      obtain rfl := Option.some.inj h
      exact ⟨hd, rfl, fun htell => htell.resolve_right (by simp [hst])⟩
    all_goals
      rcases hs : d.status with _ | _ | _ | _
      · -- where nothing was reported before, the later report stands
        rw [compose_into_blank hd.tidy hs (by simp [hst])] at h
        obtain rfl := Option.some.inj h
        exact ⟨hincoming, he, fun _ => by simp [hst]⟩
      all_goals rw [compose_eq, composeNode, hs, hst] at h
    · obtain rfl := Option.some.inj h
      exact hsame.resolve_right (by simp [hs])
    · -- gone and come again: changed in content
      obtain rfl := Option.some.inj h
      refine ⟨.childless hd.tidy.follows he (by simp) ?_ (hincoming.children_eq_nil (by simp [hst])), he,
        fun _ => by simp⟩
      exact hP.field incoming.element .changed incoming.children (hP.grow Flags.content own)
    · obtain rfl := Option.some.inj h
      exact ⟨hincoming, he, fun _ => by simp [hst]⟩
    · cases h
    · obtain rfl := Option.some.inj h
      exact hsame.resolve_right (by simp [hs])
    · obtain rfl := Option.some.inj h
      exact ⟨hincoming, he, fun _ => by simp [hst]⟩
    · obtain rfl := Option.some.inj h
      exact hsame.resolve_right (by simp [hs])
    · obtain rfl := Option.some.inj h
      exact hsame.resolve_right (by simp [hs])
    · -- two changes are joined, and the children registered
      obtain rfl := Option.some.inj h
      have hjoin : Regular lex P (joinNode d incoming) :=
        .intro (sound_joinNode hd.sound hs).tidy (hP.join hd.own own) fun c hc => hd.child hc
      obtain ⟨hreg, hel, hchanged⟩ := hjoin.joinChildren hP hs
        (fun c hc => ⟨below c hc, tidy.telling c hc, tidy.siblings.follows c hc,
          (tidy.siblings.parent c hc).trans (congrArg some he)⟩)
        fun c hc k k' hk hke hcompose => ih c hc hk hke hcompose
      exact ⟨hreg, hel, fun _ => by simp [hchanged]⟩

theorem Regular.composeOrReset (hP : Lasting P) (hd : Regular lex P d) (hi : Regular lex P incoming)
    (he : incoming.element = d.element) :
    Regular lex P (d.composeOrReset incoming) ∧ (d.composeOrReset incoming).element = d.element := by
  rw [Delta.composeOrReset]
  rcases h : d.compose incoming with _ | d'
  · exact ⟨.blank hP hd.tidy.follows, rfl⟩
  · have hmerged := hd.compose hP hi he h
    exact ⟨hmerged.regular, hmerged.element⟩

/-! ## Merging and copying -/

/-- **Merging** keeps trees regular, for it is composition after a check. -/
theorem Regular.merge (hP : Lasting P) (hd : Regular lex P d) (hi : Regular lex P incoming)
    (h : d.merge incoming = .ok d') : Regular lex P d' := by
  rw [Delta.merge] at h
  split at h
  · rename_i hsame
    obtain rfl := Except.ok.inj h
    exact (hd.composeOrReset hP hi (eq_of_sameChain hd.tidy.follows hi.tidy.follows hsame).symm).1
  · cases h

/-- Putting children in, each in the place of an earlier report about it. -/
theorem siblings_foldl_replaceChild {p : Handle} {cs : List Delta} {Q : Delta → Prop}
    (hl : Siblings lex p l) (hcs : Siblings lex p cs) (hQ : ∀ c ∈ l, Q c) (hQs : ∀ c ∈ cs, Q c) :
    Siblings lex p (cs.foldl replaceChild l) ∧ ∀ c ∈ cs.foldl replaceChild l, Q c := by
  induction cs generalizing l with
  | nil => exact ⟨hl, hQ⟩
  | cons c cs ih =>
    obtain ⟨hc, -, hcs⟩ := siblings_cons.mp hcs
    refine ih (siblings_upsert hl hc rfl fun k _ k' _ h => ?_) hcs (fun x hx => ?_)
      fun x hx => hQs x (List.mem_cons_of_mem _ hx)
    · exact (congrArg Delta.element (Option.some.inj h)).symm
    · rcases mem_of_mem_upsert hx with hx | rfl | ⟨k, -, -, h⟩
      · exact hQ x hx
      · exact hQs x (List.mem_cons_self ..)
      · exact Option.some.inj h ▸ hQs c (List.mem_cons_self ..)

/-- What a copy makes of a node, if the two go together. -/
def copied (d source : Delta) (deep : Bool) : Delta :=
  { joinNode d source with
    status := if source.status == .unchanged then d.status else source.status
    children :=
      if (if source.status == .unchanged then d.status else source.status).isWhole then []
      else if deep then source.children.foldl replaceChild d.children
      else d.children }

/-- **A copy** is refused for another element, and for a node with another status. Otherwise it adds to the node
what the source has, and with it the children if it is a deep one. -/
theorem copy_eq_ok {source : Delta} {deep : Bool} (h : d.copy source deep = .ok d') :
    d.element.sameChain source.element = true ∧
      (source.status = .unchanged ∨ d.status = .unchanged ∨ d.status = source.status) ∧
      d' = copied d source deep := by
  rw [Delta.copy] at h
  split at h
  · cases h
  · rename_i hsame
    split at h
    · cases h
    · rename_i hclash
      refine ⟨by simpa using hsame, ?_, (Except.ok.inj h).symm⟩
      rcases hs : source.status with _ | _ | _ | _ <;> rcases hd : d.status with _ | _ | _ | _ <;>
        simp_all

/-- Of a node that says nothing there is nothing to copy, neither flags nor children, whether the copy is a deep one
or not. -/
theorem copied_unchanged {source : Delta} {deep : Bool} (hd : Regular lex P d)
    (hs : Regular lex P source) (hu : source.status = .unchanged) : copied d source deep = d := by
  have hnone : source.children = [] := hs.children_eq_nil (by simp [hu])
  have hjoin := joinNode_eq d source hu hs.tidy
  have hkids : (if d.status.isWhole then [] else if deep then d.children else d.children) = d.children := by
    split
    · rename_i hw
      refine (hd.children_eq_nil fun hc => ?_).symm
      rw [hc] at hw
      cases hw
    · split <;> rfl
  rw [copied, hnone, hjoin]
  simp only [hu, beq_self_eq_true, if_true, List.foldl_nil, hkids]
  cases d
  rfl

/-- **Copying** keeps trees regular: what is copied has the property where it comes from, and children are replaced
one by one. -/
theorem Regular.copy {source : Delta} {deep : Bool} (hP : Lasting P) (hd : Regular lex P d)
    (hs : Regular lex P source) (h : d.copy source deep = .ok d') : Regular lex P d' := by
  obtain ⟨hsame, hstatus, rfl⟩ := copy_eq_ok h
  have hel := eq_of_sameChain hd.tidy.follows hs.tidy.follows hsame
  by_cases hu : source.status = .unchanged
  · rw [copied_unchanged hd hs hu]
    exact hd
  · have hown : P (joinNode d source) := hP.join hd.own hs.own
    have hkids : Siblings lex d.element
          (if deep then source.children.foldl replaceChild d.children else d.children) ∧
        ∀ c ∈ (if deep then source.children.foldl replaceChild d.children else d.children),
          Regular lex P c ∧ c.status ≠ .unchanged := by
      have hmine : ∀ c ∈ d.children, Regular lex P c ∧ c.status ≠ .unchanged :=
        fun c hc => ⟨hd.child hc, hd.tidy.telling c hc⟩
      split
      · exact siblings_foldl_replaceChild hd.tidy.siblings (hel ▸ hs.tidy.siblings) hmine
          fun c hc => ⟨hs.child hc, hs.tidy.telling c hc⟩
      · exact ⟨hd.tidy.siblings, hmine⟩
    have hbeq : (source.status == .unchanged) = false := by simpa using hu
    simp only [copied, hbeq, Bool.false_eq_true, if_false]
    by_cases hw : source.status.isWhole = true
    · -- an element that came or went as a whole takes no children over
      rw [if_pos hw]
      exact .childless hd.tidy.follows rfl hu (hP.field d.element source.status [] hown) rfl
    · have hchanged : source.status = .changed := by
        rcases ht : source.status with _ | _ | _ | _ <;> simp_all [Status.isWhole]
      rw [if_neg hw]
      by_cases hnone : d.children = [] ∧ source.children = []
      · refine .childless hd.tidy.follows rfl hu (hP.field d.element source.status _ hown) ?_
        simp only [hnone, List.foldl_nil, ite_self]
      · -- one of the two has children and says so, and so does their copy
        have hflags : (d.flags ∪ source.flags) ∪ Flags.children = d.flags ∪ source.flags := by
          rw [Classical.not_and_iff_not_or_not] at hnone
          rcases hnone with hc | hc
          · rw [Flags.union_right_comm, (hd.tidy.changed hc).2]
          · rw [Flags.union_assoc, (hs.tidy.changed hc).2]
        have hwith := Regular.withChildren (d := joinNode d source) hP hd.tidy.follows hown hkids.1 hkids.2
        rw [Delta.withChildren, show (joinNode d source).flags = d.flags ∪ source.flags from rfl,
          hflags] at hwith
        rw [hchanged]
        exact hwith

/-! ## Reports as merges -/

/-- The report at the end of a spine of changed nodes that leads there from `e`. -/
def spine (incoming : Delta) (e : Handle) : List Handle → Delta
  | [] => incoming
  | next :: rest => ({ element := e } : Delta).withChildren [spine incoming next rest]

theorem element_spine (h : Leads e path incoming.element) : (spine incoming e path).element = e := by
  cases path with
  | nil => exact h.eq_of_nil
  | cons next rest => rfl

theorem telling_spine (hi : incoming.status ≠ .unchanged) (e : Handle) (path : List Handle) :
    (spine incoming e path).status ≠ .unchanged := by
  cases path with
  | nil => exact hi
  | cons next rest => simp [spine, Delta.withChildren]

/-- The spine of a regular report is regular: its nodes on the way say no more than that they have children. -/
theorem Regular.spine (hP : Lasting P) (hi : Regular lex P incoming) (htelling : incoming.status ≠ .unchanged)
    (h : Leads e path incoming.element) : Regular lex P (spine incoming e path) := by
  induction path generalizing e with
  | nil => exact hi
  | cons next rest ih =>
    obtain ⟨step, hrest⟩ := h.of_cons
    have hnext := element_spine hrest
    have hf : next.Follows lex := hrest.follows hi.tidy.follows
    refine Regular.withChildren (d := { element := e }) hP (hf.parent step) (hP.blank e) ?_ ?_
    · exact siblings_cons.mpr ⟨hnext.symm ▸ ⟨hf, step⟩, by simp, siblings_nil⟩
    · intro c hc
      obtain rfl := List.mem_singleton.mp hc
      exact ⟨ih hrest, telling_spine htelling next rest⟩

theorem upsert_congr {update update' : Delta → Option Delta} (fresh : Delta)
    (h : ∀ k ∈ l, e.same k.element = true → update k = update' k) :
    upsert e update fresh l = upsert e update' fresh l := by
  induction l with
  | nil => rfl
  | cons k l ih =>
    rw [upsert, upsert, ih fun j hj => h j (List.mem_cons_of_mem _ hj)]
    split
    · rename_i hk
      rw [h k (List.mem_cons_self ..) hk]
    · rfl

/-- Only a removal cancels what was there. Of all that can be reported it is the only one that may leave no node
behind, namely where the element was added before. -/
theorem compose_ne_none (h : incoming.status ≠ .removed) : d.compose incoming ≠ none := by
  rw [compose_eq, composeNode]
  rcases hs : d.status with _ | _ | _ | _ <;> rcases hi : incoming.status with _ | _ | _ | _ <;>
    simp_all

/-- **One step down a spine** registers the rest of it as a report about a child. For the node at the head of a
spine is a change that says nothing but that it has children, so composing it in adds just that. -/
theorem compose_spine_cons {next : Handle} {rest : List Handle} (hd : Tidy lex d) :
    d.compose (spine incoming d.element (next :: rest)) = some (d.addChild (spine incoming next rest)) := by
  rw [addChild, addChildWith]
  rcases hs : d.status with _ | _ | _ | _
  · -- nothing was reported before: the spine stands as it is
    rw [compose_into_blank hd hs (by simp [spine, Delta.withChildren]), hd.blank hs]
    rfl
  · simp [isWhole, hs, Status.isWhole, compose_eq, composeNode, spine, Delta.withChildren]
  · simp [isWhole, hs, Status.isWhole, compose_eq, composeNode, spine, Delta.withChildren]
  · rw [compose_eq, composeNode, hs]
    simp [isWhole, hs, Status.isWhole, spine, Delta.withChildren, joinNode, Delta.addChild, addChildWith,
      Flags.union_union_self]

/-- **Putting a report in is a merge** of its spine. So what is known of composing trees is known of reports, and
reporting can be compared with merging. -/
theorem composeAlong_eq_compose (hd : Sound lex d) (htelling : incoming.status ≠ .unchanged)
    (hf : incoming.element.Follows lex) (h : Leads d.element path incoming.element) :
    composeAlong incoming path d = d.composeOrReset (spine incoming d.element path) := by
  induction path generalizing d with
  | nil => rfl
  | cons e rest ih =>
    obtain ⟨step, hrest⟩ := h.of_cons
    have he : BelongsTo lex d.element e := ⟨hrest.follows hf, step⟩
    -- what comes into being at the next node is the rest of the spine
    have hsprout : sprout incoming e rest = spine incoming e rest := by
      cases rest with
      | nil => rfl
      | cons next rest =>
        rw [sprout, ih (sound_new he.follows) hrest, composeOrReset,
          compose_into_blank (sound_new he.follows).tidy rfl (telling_spine htelling _ _)]
        rfl
    have hgraft : ∀ k ∈ d.children, e.same k.element = true →
        graft incoming rest k = k.compose (spine incoming e rest) := by
      intro k hk hek
      have hke := ((hd.tidy.siblings.same_iff he hk).mp hek).symm
      cases rest with
      | nil => rfl
      | cons next rest =>
        have hsome : k.compose (spine incoming e (next :: rest)) ≠ none :=
          compose_ne_none (by simp [spine, Delta.withChildren])
        obtain ⟨k', hk'⟩ := Option.ne_none_iff_exists'.mp hsome
        rw [graft, ih (hd.child hk) (hke ▸ hrest), composeOrReset, hke, hk']
        rfl
    rw [composeAlong_cons hrest, grown, hsprout, upsert_congr _ hgraft, composeOrReset,
      compose_spine_cons hd.tidy, Option.getD_some, addChild, addChildWith, element_spine hrest]
    rfl

/-- **Putting a report in** keeps trees regular, since it is a merge of the spine that leads to the report. -/
theorem Regular.composeAlong (hP : Lasting P) (hd : Regular lex P d) (hi : Leaf incoming)
    (hf : incoming.element.Follows lex) (hown : P incoming) (h : Leads d.element path incoming.element) :
    Regular lex P (composeAlong incoming path d) := by
  have hregular : Regular lex P incoming := .leaf hi hf hown
  rw [composeAlong_eq_compose hd.sound hi.telling hf h]
  exact (hd.composeOrReset hP (hregular.spine hP hi.telling h) (element_spine h)).1

/-- **Reports** keep trees regular, whatever they are about: those that are taken in are put in at the end of a
path. -/
theorem Regular.report {b b' : Builder} {r : Report} (hP : Lasting P) (hb : Regular lex P b.delta)
    (hr : r.element.Follows lex) (hown : P r.toDelta) (h : b.report r = .ok b') :
    Regular lex P b'.delta := by
  obtain ⟨path, hleads, hdelta⟩ := Builder.delta_report hb.tidy.follows hr h
  rw [hdelta]
  exact hb.composeAlong hP (leaf_toDelta r) hr hown hleads

end Delta

end CodeModel
