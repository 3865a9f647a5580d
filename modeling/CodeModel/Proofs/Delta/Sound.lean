import CodeModel.Delta.Builder
import CodeModel.Proofs.Delta.Path

/-!
# Sound change trees

What every tree that a builder makes looks like.

* The children of a node are reports about **children** of its element, each of them at most once, and
  each of them says something (`Tidy`).
* A node **with children** is changed and says so by its flags.
* A node about which **nothing** was reported has nothing at all; only the root can be such a node.

A report is put in at the end of a path. Seen from one node on the path, that is an update of one
entry among the children (`composeAlong_cons`), so soundness is kept (`sound_composeAlong`).

In the library the children are a table that is keyed by the relaxed comparison. Among siblings of one lexicon that
comparison is equality (`BelongsTo.same_iff`), and so an update of one child leaves the others alone
(`about?_upsert`). All that is shown of trees later rests on these two facts.
-/

namespace CodeModel

theorem Flags.union_assoc (f g k : Flags) : f ∪ g ∪ k = f ∪ (g ∪ k) :=
  congrArg Flags.mk (BitVec.or_assoc f.bits g.bits k.bits)

theorem Flags.union_comm (f g : Flags) : f ∪ g = g ∪ f :=
  congrArg Flags.mk (BitVec.or_comm f.bits g.bits)

theorem Flags.union_right_comm (f g k : Flags) : f ∪ g ∪ k = f ∪ k ∪ g := by
  rw [union_assoc, union_comm g, union_assoc]

theorem Flags.union_union_self (f g : Flags) : f ∪ g ∪ g = f ∪ g :=
  congrArg Flags.mk (by
    simp only [Flags.bits_union]
    rw [BitVec.or_assoc, BitVec.or_self])

theorem Flags.union_self (f : Flags) : f ∪ f = f :=
  congrArg Flags.mk BitVec.or_self

/-- A set has all flags of another one if these add nothing to it. -/
theorem Flags.contains_iff (f g : Flags) : f.contains g = true ↔ f ∪ g = f := by
  have hbits : f ∪ g = f ↔ f.bits ||| g.bits = f.bits := by
    rw [← bits_union]
    exact ⟨congrArg bits, congrArg mk⟩
  rw [hbits, contains, beq_iff_eq]
  constructor
  · intro h
    rw [← h]
    ext i
    simp only [BitVec.getElem_or, BitVec.getElem_and]
    cases f.bits[i] <;> rfl
  · intro h
    rw [← h]
    ext i
    simp only [BitVec.getElem_or, BitVec.getElem_and]
    cases g.bits[i] <;> simp

namespace Delta

open Handle

variable {lex : Lexicon} {e x p : Handle} {c d incoming fresh : Delta} {l : List Delta}
  {update : Delta → Option Delta}

/-! ## Siblings -/

/-- The reports are about children of `p`, and no two of them about the same one. So a report is found under its
element and cannot be mistaken for another. -/
structure Siblings (lex : Lexicon) (p : Handle) (l : List Delta) : Prop where
  /-- the elements follow the lexicon -/
  follows : ∀ c ∈ l, c.element.Follows lex
  /-- they are children of `p` -/
  parent : ∀ c ∈ l, c.element.parent? = some p
  /-- they are different -/
  apart : l.Pairwise fun c k => c.element ≠ k.element

/-- A handle that may stand among the siblings below `p`. -/
structure BelongsTo (lex : Lexicon) (p x : Handle) : Prop where
  /-- it follows the lexicon -/
  follows : x.Follows lex
  /-- it is a child of `p` -/
  parent : x.parent? = some p

theorem siblings_nil : Siblings lex p [] := ⟨by simp, by simp, .nil⟩

theorem siblings_cons :
    Siblings lex p (c :: l) ↔
      BelongsTo lex p c.element ∧ (∀ k ∈ l, c.element ≠ k.element) ∧ Siblings lex p l := by
  constructor
  · intro h
    obtain ⟨hne, hl⟩ := List.pairwise_cons.mp h.apart
    exact ⟨⟨h.follows c (List.mem_cons_self ..), h.parent c (List.mem_cons_self ..)⟩, hne,
      fun k hk => h.follows k (List.mem_cons_of_mem _ hk),
      fun k hk => h.parent k (List.mem_cons_of_mem _ hk), hl⟩
  · rintro ⟨hc, hne, hl⟩
    refine ⟨fun k hk => ?_, fun k hk => ?_, List.pairwise_cons.mpr ⟨hne, hl.apart⟩⟩
    · rcases List.mem_cons.mp hk with rfl | hk
      · exact hc.follows
      · exact hl.follows k hk
    · rcases List.mem_cons.mp hk with rfl | hk
      · exact hc.parent
      · exact hl.parent k hk

/-- Among siblings the relaxed comparison is equality. They have one parent and follow one lexicon, so they can only
differ in the level that is always compared. -/
theorem BelongsTo.same_iff (hx : BelongsTo lex p x) (he : BelongsTo lex p e) :
    x.same e = true ↔ x = e :=
  same_siblings_iff hx.follows he.follows hx.parent he.parent

/-- What belongs to the siblings matches only the report that is about it. -/
theorem Siblings.same_iff (h : Siblings lex p l) (hx : BelongsTo lex p x) (hc : c ∈ l) :
    x.same c.element = true ↔ x = c.element :=
  hx.same_iff ⟨h.follows c hc, h.parent c hc⟩

/-- After an update, a member is an earlier one, the new one, or what the update made of one. -/
theorem mem_of_mem_upsert (h : c ∈ upsert e update fresh l) :
    c ∈ l ∨ c = fresh ∨ ∃ k ∈ l, e.same k.element = true ∧ update k = some c := by
  induction l with
  | nil => exact .inr (.inl (List.mem_singleton.mp h))
  | cons k l ih =>
    rw [upsert] at h
    split at h
    · rename_i hk
      rcases hu : update k with _ | k'
      · simp only [hu] at h
        exact .inl (List.mem_cons_of_mem _ h)
      · simp only [hu] at h
        rcases List.mem_cons.mp h with rfl | h
        · exact .inr (.inr ⟨k, List.mem_cons_self .., hk, hu⟩)
        · exact .inl (List.mem_cons_of_mem _ h)
    · rcases List.mem_cons.mp h with rfl | h
      · exact .inl (List.mem_cons_self ..)
      · rcases ih h with h | h | ⟨k', hk', h⟩
        · exact .inl (List.mem_cons_of_mem _ h)
        · exact .inr (.inl h)
        · exact .inr (.inr ⟨k', List.mem_cons_of_mem _ hk', h⟩)

/-- An update that keeps the elements keeps siblings apart: it replaces what it matches, or adds what nothing
matches. -/
theorem siblings_upsert (h : Siblings lex p l) (he : BelongsTo lex p e) (hfresh : fresh.element = e)
    (hupdate : ∀ k ∈ l, ∀ k', k.element = e → update k = some k' → k'.element = e) :
    Siblings lex p (upsert e update fresh l) := by
  induction l with
  | nil => exact siblings_cons.mpr ⟨hfresh ▸ he, by simp, siblings_nil⟩
  | cons c l ih =>
    obtain ⟨hc, hne, hl⟩ := siblings_cons.mp h
    rw [upsert]
    split
    · rename_i hec
      have hce := ((he.same_iff hc).mp hec).symm
      rcases hu : update c with _ | c'
      · exact hl
      · have hc' := hupdate c (List.mem_cons_self ..) c' hce hu
        refine siblings_cons.mpr ⟨hc' ▸ he, fun k hk => ?_, hl⟩
        rw [hc', ← hce]
        exact hne k hk
    · rename_i hec
      -- the rest may have got an entry for `e`, but `c` is about another element
      refine siblings_cons.mpr ⟨hc, fun k hk => ?_, ih hl fun k hk => hupdate k
        (List.mem_cons_of_mem _ hk)⟩
      rcases mem_of_mem_upsert hk with hk | rfl | ⟨k', hk', hek', hu⟩
      · exact hne k hk
      · rw [hfresh]
        exact fun hce => hec ((he.same_iff hc).mpr hce.symm)
      · have hke := ((hl.same_iff he hk').mp hek').symm
        rw [hupdate k' (List.mem_cons_of_mem _ hk') k hke hu]
        exact fun hce => hec ((he.same_iff hc).mpr hce.symm)

/-- The report about `x` among siblings. -/
def about? (l : List Delta) (x : Handle) : Option Delta := l.find? fun c => x.same c.element

theorem about?_cons (c : Delta) (l : List Delta) (x : Handle) :
    about? (c :: l) x = if x.same c.element then some c else about? l x := by
  rw [about?, List.find?_cons]
  cases x.same c.element <;> rfl

theorem Siblings.about?_cons_of_ne (h : Siblings lex p (c :: l)) (hx : BelongsTo lex p x)
    (hne : x ≠ c.element) : about? (c :: l) x = about? l x := by
  rw [about?_cons, if_neg]
  rwa [h.same_iff hx (List.mem_cons_self ..)]

theorem mem_of_about? (h : about? l x = some c) : c ∈ l := List.mem_of_find?_eq_some h

theorem Siblings.element_of_about? (h : Siblings lex p l) (hx : BelongsTo lex p x)
    (hc : about? l x = some c) : c.element = x :=
  ((h.same_iff hx (mem_of_about? hc)).mp (by simpa using List.find?_some hc)).symm

theorem about?_of_mem (h : Siblings lex p l) (hx : BelongsTo lex p x) (hc : c ∈ l)
    (hcx : c.element = x) : about? l x = some c := by
  induction l with
  | nil => cases hc
  | cons k l ih =>
    obtain ⟨hk, hne, hl⟩ := siblings_cons.mp h
    rcases List.mem_cons.mp hc with rfl | hcl
    · rw [about?_cons, if_pos ((hx.same_iff hk).mpr hcx.symm)]
    · rw [h.about?_cons_of_ne hx fun hxk => hne c hcl (hxk ▸ hcx.symm), ih hl hcl]

theorem Siblings.about?_eq_none (h : Siblings lex p l) (hx : BelongsTo lex p x)
    (hne : ∀ k ∈ l, x ≠ k.element) : about? l x = none :=
  List.find?_eq_none.mpr fun k hk hsame => hne k hk ((h.same_iff hx hk).mp hsame)

/-- **An update of one sibling** is found there, and the others are found as before. An update that removes the
report leaves nothing to be found, as there is only one about the element. -/
theorem about?_upsert (h : Siblings lex p l) (he : BelongsTo lex p e) (hx : BelongsTo lex p x)
    (hfresh : fresh.element = e)
    (hupdate : ∀ k ∈ l, ∀ k', k.element = e → update k = some k' → k'.element = e) :
    about? (upsert e update fresh l) x =
      if x = e then
        match about? l e with
        | some c => update c
        | none => some fresh
      else about? l x := by
  induction l with
  | nil =>
    have hxe : x.same fresh.element = true ↔ x = e := by rw [hfresh, hx.same_iff he]
    rw [upsert, about?_cons]
    by_cases hxe' : x = e
    · rw [if_pos (hxe.mpr hxe'), if_pos hxe']
      rfl
    · rw [if_neg (mt hxe.mp hxe'), if_neg hxe']
  | cons c l ih =>
    obtain ⟨hc, hne, hl⟩ := siblings_cons.mp h
    rw [upsert]
    by_cases hec : e = c.element
    · rw [if_pos ((he.same_iff hc).mpr hec), about?_cons c l e, if_pos ((he.same_iff hc).mpr hec)]
      -- past its own entry there is no other one for `e`
      have hrest : about? l e = none := hl.about?_eq_none he (hec ▸ hne)
      rcases hu : update c with _ | c'
      · by_cases hxe : x = e
        · simp [hxe, hrest, hu]
        · simp [hxe, h.about?_cons_of_ne hx (hec ▸ hxe)]
      · have hc' := hupdate c (List.mem_cons_self ..) c' hec.symm hu
        simp only [about?_cons, hc', hx.same_iff he, ← hec, hu]
        split <;> rfl
    · have hsame : ¬ e.same c.element = true := fun h => hec ((he.same_iff hc).mp h)
      rw [if_neg hsame, h.about?_cons_of_ne he hec]
      have ih := ih hl fun k hk => hupdate k (List.mem_cons_of_mem _ hk)
      by_cases hxc : x = c.element
      · have hxe : x ≠ e := fun h => hec (h ▸ hxc)
        rw [if_neg hxe, about?_cons, about?_cons, if_pos ((hx.same_iff hc).mpr hxc),
          if_pos ((hx.same_iff hc).mpr hxc)]
      · rw [h.about?_cons_of_ne hx hxc, about?_cons, if_neg (mt (hx.same_iff hc).mp hxc), ih]

/-- An update that changes nothing leaves the list as it is. -/
theorem upsert_eq_self (hc : c ∈ l) (hec : e.same c.element = true)
    (hupdate : ∀ k ∈ l, e.same k.element = true → update k = some k) :
    upsert e update fresh l = l := by
  induction l with
  | nil => cases hc
  | cons k l ih =>
    rw [upsert]
    by_cases hek : e.same k.element = true
    · rw [if_pos hek, hupdate k (List.mem_cons_self ..) hek]
    · have hcl : c ∈ l := (List.mem_cons.mp hc).resolve_left fun h => hek (h ▸ hec)
      rw [if_neg hek, ih hcl fun j hj => hupdate j (List.mem_cons_of_mem _ hj)]

/-- A placeholder that is put in first does not matter to the update that follows. -/
theorem modifyChild_upsert {f : Delta → Delta} (hfresh : fresh.element = e)
    (hupdate : ∀ k ∈ l, e.same k.element = true → update k = some k) :
    modifyChild e f (upsert e update fresh l) = upsert e (fun c => some (f c)) (f fresh) l := by
  induction l with
  | nil => simp [upsert, modifyChild, hfresh]
  | cons k l ih =>
    by_cases hek : e.same k.element = true
    · simp [upsert, modifyChild, hek, hupdate k (List.mem_cons_self ..) hek]
    · simp [upsert, modifyChild, hek, ih fun j hj => hupdate j (List.mem_cons_of_mem _ hj)]

/-! ## Soundness -/

/-- A node that is as it should be, its children left aside. That a blank node has nothing at all lets the status
alone tell whether something was reported. -/
structure Tidy (lex : Lexicon) (d : Delta) : Prop where
  /-- the element follows the lexicon -/
  follows : d.element.Follows lex
  /-- nothing reported, nothing there -/
  blank : d.status = .unchanged → d = { element := d.element }
  /-- whoever has children is changed and says so -/
  changed : d.children ≠ [] → d.status = .changed ∧ d.flags ∪ Flags.children = d.flags
  /-- children are reported once, below their parent -/
  siblings : Siblings lex d.element d.children
  /-- children say something -/
  telling : ∀ c ∈ d.children, c.status ≠ .unchanged

/-- It is the status that tells whether there is anything at all: a tidy node that is unchanged has no flags, no
children and no attachments. -/
theorem Tidy.isEmpty_iff (h : Tidy lex d) : d.isEmpty = true ↔ d.status = .unchanged := by
  constructor
  · intro he
    simp only [isEmpty, Bool.and_eq_true, beq_iff_eq] at he
    exact he.1.1.1
  · intro hs
    rw [h.blank hs]
    apply isEmpty_new

/-- A **sound** tree is tidy all the way down. It is what a proof needs to know of a tree, whatever was reported to
make it. -/
inductive Sound (lex : Lexicon) : Delta → Prop where
  /-- a tidy node over sound trees -/
  | intro {d : Delta} (tidy : Tidy lex d) (below : ∀ c ∈ d.children, Sound lex c) : Sound lex d

theorem Sound.tidy (h : Sound lex d) : Tidy lex d := by
  cases h
  assumption

theorem Sound.child (h : Sound lex d) (hc : c ∈ d.children) : Sound lex c := by
  cases h with
  | intro _ below => exact below c hc

theorem Sound.status_of_mem (h : Sound lex d) (hc : c ∈ d.children) : d.status = .changed :=
  (h.tidy.changed (List.ne_nil_of_mem hc)).1

/-- A report in the form of a tree of its own: it says something, about one element only. -/
structure Leaf (d : Delta) : Prop where
  /-- it says something -/
  telling : d.status ≠ .unchanged
  /-- it is about one element -/
  children : d.children = []

theorem leaf_toDelta (r : Report) : Leaf r.toDelta := by
  cases r <;> exact ⟨by simp [Report.toDelta], rfl⟩

theorem sound_leaf (h : Leaf d) (hd : d.element.Follows lex) : Sound lex d := by
  refine .intro ⟨hd, fun hs => absurd hs h.telling, fun hc => absurd h.children hc, ?_, ?_⟩ ?_
  · rw [h.children]
    exact siblings_nil
  all_goals
    rw [h.children]
    simp

/-- A tree about which nothing was reported is sound. -/
theorem sound_new (he : e.Follows lex) : Sound lex { element := e } :=
  .intro ⟨he, fun _ => rfl, fun h => absurd rfl h, siblings_nil, by simp⟩ (by simp)

/-! ## Composition -/

/-- The outcome of two changes that follow each other keeps the children. -/
theorem compose_leaf (h : Leaf incoming) :
    d.compose incoming = composeNode d incoming fun _ => joinNode d incoming := by
  rw [compose_eq, h.children]
  rfl

theorem joinNode_new (d : Delta) (e : Handle) : joinNode d { element := e } = d := by
  cases d
  simp [joinNode]

theorem compose_new (d : Delta) (e : Handle) : d.compose { element := e } = some d := by
  rw [compose_unchanged _ _ rfl]
  simp [joinNode_new]

/-- Joining flags and attachments to a changed node leaves it sound. Children, element and status stay, and a
changed node may have any flags. -/
theorem sound_joinNode (h : Sound lex d) (hs : d.status = .changed) :
    Sound lex (joinNode d incoming) := by
  have ht := h.tidy
  refine .intro ⟨ht.follows, fun hu => ?_, fun hc => ⟨hs, ?_⟩, ht.siblings, ht.telling⟩
    fun c hc => h.child hc
  · rw [show (joinNode d incoming).status = d.status from rfl, hs] at hu
    cases hu
  · rw [show (joinNode d incoming).flags = d.flags ∪ incoming.flags from rfl, Flags.union_right_comm,
      (ht.changed hc).2]

/-- Where nothing was reported before, the report stands as it is. -/
theorem compose_blank (hd : Tidy lex d) (h : Leaf incoming) (hs : d.status = .unchanged) :
    d.compose incoming = some incoming := by
  rw [compose_leaf h, hd.blank hs, composeNode]
  have htelling := h.telling
  rcases hi : incoming.status with _ | _ | _ | _
  · exact absurd hi htelling
  all_goals
    cases incoming
    obtain rfl : _ = _ := hi
    simp

/-- **Composition** keeps a tree sound and the report telling. By the table of statuses: the outcome is the tree
with more flags, the report alone, or a change in the place of a removal and an addition. -/
theorem sound_compose {d' : Delta} (hd : Sound lex d) (h : Leaf incoming)
    (he : incoming.element = d.element) (hc : d.compose incoming = some d') :
    Sound lex d' ∧ d'.element = d.element ∧ d'.status ≠ .unchanged := by
  have hincoming := sound_leaf h (he ▸ hd.tidy.follows)
  have htelling := h.telling
  rcases hs : d.status with _ | _ | _ | _
  · -- a node without news takes the report over
    rw [compose_blank hd.tidy h hs] at hc
    obtain rfl := Option.some.inj hc
    exact ⟨hincoming, he, htelling⟩
  all_goals
    rw [compose_leaf h, composeNode, hs] at hc
    rcases hi : incoming.status with _ | _ | _ | _
    · exact absurd hi htelling
    all_goals
      rw [hi] at hc
      cases hc
  · exact ⟨hd, rfl, by simp [hs]⟩
  · exact ⟨hd, rfl, by simp [hs]⟩
  · refine ⟨.intro ⟨hincoming.tidy.follows, by simp, ?_, ?_, ?_⟩ ?_, he, by simp⟩
    · exact fun hne => absurd h.children hne
    · exact hincoming.tidy.siblings
    · exact hincoming.tidy.telling
    · exact fun c hc => hincoming.child hc
  · exact ⟨hd, rfl, by simp [hs]⟩
  · exact ⟨hd, rfl, by simp [hs]⟩
  · exact ⟨hincoming, he, htelling⟩
  · exact ⟨hincoming, he, htelling⟩
  · exact ⟨sound_joinNode hd hs, rfl, by simp [joinNode, hs]⟩

/-! ## Putting a report in -/

/-- What becomes of the child next on the path when a report is put in at the end of it. -/
def graft (incoming : Delta) : List Handle → Delta → Option Delta
  | [], c => c.compose incoming
  | next :: rest, c => some (composeAlong incoming (next :: rest) c)

/-- What comes into being where there is no child next on the path. -/
def sprout (incoming : Delta) (e : Handle) : List Handle → Delta
  | [] => incoming
  | next :: rest => composeAlong incoming (next :: rest) { element := e }

/-- A node that gets other children, and says so. -/
def withChildren (d : Delta) (children : List Delta) : Delta :=
  { d with status := .changed, flags := d.flags ∪ Flags.children, children }

/-- A node that says so already stays as it is with its own children. -/
theorem withChildren_children (hs : d.status = .changed) (hf : d.flags ∪ Flags.children = d.flags) :
    d.withChildren d.children = d := by
  rw [withChildren, hf, ← hs]
  cases d
  rfl

/-- A node after a report was put in below it, through its child `e`. -/
def grown (incoming : Delta) (e : Handle) (rest : List Handle) (d : Delta) : Delta :=
  d.withChildren (upsert e (graft incoming rest) (sprout incoming e rest) d.children)

/-- **One step down the path** updates one child, unless the node came or went as a whole, which swallows the
report. -/
theorem composeAlong_cons {rest : List Handle} (h : Leads e rest incoming.element) :
    composeAlong incoming (e :: rest) d = if d.isWhole then d else grown incoming e rest d := by
  cases rest with
  | nil =>
    cases h
    rw [composeAlong, addChild, addChildWith]
    rfl
  | cons next rest =>
    rw [composeAlong]
    split
    · rfl
    · rename_i hw
      rw [addChild, addChildWith, if_neg hw, grown, withChildren]
      · simp only
        rw [modifyChild_upsert (show ({ element := e } : Delta).element = e from rfl)
          fun k _ _ => compose_new k e]
        rfl
    · simp

/-- A node over sound children that say something is sound. If there are any it becomes a changed one with the flag
for children, as the shape of a sound tree asks. -/
theorem sound_withChildren {children : List Delta} (hd : d.element.Follows lex)
    (hs : Siblings lex d.element children)
    (hc : ∀ c ∈ children, Sound lex c ∧ c.status ≠ .unchanged) :
    Sound lex (d.withChildren children) := by
  refine .intro ⟨hd, fun h => ?_, fun _ => ⟨rfl, ?_⟩, hs, fun c h => (hc c h).2⟩ fun c h => (hc c h).1
  · cases h
  · exact Flags.union_union_self d.flags Flags.children

/-- **Putting a report in** keeps a tree sound. By induction on the path: on the way each node gets an updated
child, and at the end the report is composed with what is there. -/
theorem sound_composeAlong {path : List Handle} (hd : Sound lex d) (hi : Leaf incoming)
    (hf : incoming.element.Follows lex) (h : Leads d.element path incoming.element) :
    Sound lex (composeAlong incoming path d) ∧ (composeAlong incoming path d).element = d.element ∧
      (path ≠ [] → (composeAlong incoming path d).status ≠ .unchanged) := by
  induction path generalizing d with
  | nil =>
    rw [composeAlong, composeOrReset]
    rcases hc : d.compose incoming with _ | d'
    · exact ⟨sound_new hd.tidy.follows, rfl, fun h => absurd rfl h⟩
    · obtain ⟨hs, hel, -⟩ := sound_compose hd hi h.eq_of_nil hc
      exact ⟨hs, hel, fun h => absurd rfl h⟩
  | cons e rest ih =>
    obtain ⟨step, hrest⟩ := h.of_cons
    have hbelongs : BelongsTo lex d.element e := ⟨hrest.follows hf, step⟩
    rw [composeAlong_cons hrest]
    split
    · rename_i hw
      refine ⟨hd, rfl, fun _ hu => ?_⟩
      rw [isWhole, hu] at hw
      cases hw
    · -- the child that is updated and the one that comes into being are both sound
      have hgraft : ∀ c ∈ d.children, ∀ c', c.element = e → graft incoming rest c = some c' →
          Sound lex c' ∧ c'.element = e ∧ c'.status ≠ .unchanged := by
        rintro c hc c' rfl hc'
        cases rest with
        | nil => exact sound_compose (hd.child hc) hi hrest.eq_of_nil hc'
        | cons next rest =>
          obtain rfl := Option.some.inj hc'
          obtain ⟨hs, hel, htell⟩ := ih (hd.child hc) hrest
          exact ⟨hs, hel, htell (by simp)⟩
      have hsprout : Sound lex (sprout incoming e rest) ∧ (sprout incoming e rest).element = e ∧
          (sprout incoming e rest).status ≠ .unchanged := by
        cases rest with
        | nil => exact ⟨sound_leaf hi hf, hrest.eq_of_nil, hi.telling⟩
        | cons next rest =>
          obtain ⟨hs, hel, htell⟩ := ih (sound_new hbelongs.follows) hrest
          exact ⟨hs, hel, htell (by simp)⟩
      refine ⟨sound_withChildren hd.tidy.follows ?_ fun c hc => ?_, rfl, fun _ h => by cases h⟩
      · exact siblings_upsert hd.tidy.siblings hbelongs hsprout.2.1
          fun k hk k' hke hu => (hgraft k hk k' hke hu).2.1
      · rcases mem_of_mem_upsert hc with hc | rfl | ⟨k, hk, hek, hu⟩
        · exact ⟨hd.child hc, hd.tidy.telling c hc⟩
        · exact ⟨hsprout.1, hsprout.2.2⟩
        · have hke := ((hd.tidy.siblings.same_iff hbelongs hk).mp hek).symm
          obtain ⟨hs, -, htell⟩ := hgraft k hk c hke hu
          exact ⟨hs, htell⟩

/-- What is grafted on a child is still about the child, since neither composition nor a step down changes the
element of a node. -/
theorem element_graft {rest : List Handle} {k : Delta} (hd : Sound lex d) (hi : Leaf incoming)
    (hf : incoming.element.Follows lex) (h : Leads e rest incoming.element) (hc : c ∈ d.children)
    (hce : c.element = e) (hk : graft incoming rest c = some k) : k.element = e := by
  subst hce
  cases rest with
  | nil => exact (sound_compose (hd.child hc) hi h.eq_of_nil hk).2.1
  | cons next rest =>
    obtain rfl := Option.some.inj hk
    exact (sound_composeAlong (hd.child hc) hi hf h).2.1

theorem element_sprout {rest : List Handle} (h : Leads e rest incoming.element) :
    (sprout incoming e rest).element = e := by
  cases rest with
  | nil => exact h.eq_of_nil
  | cons next rest =>
    rw [sprout, composeAlong_cons h.of_cons.2]
    rfl

end Delta

/-- **A report that is taken in** is put in at the end of the path to its element. What a builder does besides,
checking and marking, leaves no trace in the tree. -/
theorem Builder.delta_report {lex : Lexicon} {b b' : Builder} {r : Report}
    (hb : b.delta.element.Follows lex) (hr : r.element.Follows lex) (h : b.report r = .ok b') :
    ∃ path, Handle.Leads b.delta.element path r.element ∧
      b'.delta = Delta.composeAlong r.toDelta path b.delta := by
  have hinsert : ∃ b'', b.insert r.toDelta = .ok b'' ∧ b''.delta = b'.delta := by
    rw [report] at h
    split at h
    · split at h
      · cases h
      · rcases hi : b.insert r.toDelta with _ | b''
        · rw [hi] at h
          cases h
        · rw [hi] at h
          cases h
          exact ⟨b'', rfl, rfl⟩
    · exact ⟨b', h, rfl⟩
  obtain ⟨b'', hi, hdelta⟩ := hinsert
  rw [insert] at hi
  split at hi
  · cases hi
  · rename_i path hpath
    cases hi
    exact ⟨path, (Delta.pathBelow?_eq_some_iff hb hr).mp hpath, hdelta.symm⟩

end CodeModel
