import CodeModel.Proofs.Delta.Insertion
import CodeModel.Proofs.Delta.Regular

/-!
# Trees alike

Two change trees are **alike** if they are the same up to the order of siblings. Reports that come in
another order leave such trees behind: a node lists its children in the order in which they came up.

* Sound trees are alike if their roots say the same and one finds alike reports below them, whatever
  child one asks for (`alike_iff`). So the order of the lists can be forgotten at once.
* What one finds after a tree was composed in depends on what was found before, and on nothing else
  (`about?_joinChildren`, `about?_addChild`). So later reports **keep** trees alike
  (`Alike.compose`).
-/

namespace CodeModel

namespace Delta

open Handle

variable {lex : Lexicon} {e p x : Handle} {c d k m incoming : Delta} {l : List Delta}
  {path rest : List Handle}

/-! ## The same tree up to the order of siblings -/

/-- The node by itself, children left aside. -/
def node (d : Delta) : Delta := { d with children := [] }

/-- **The same tree up to the order of siblings**: the nodes say the same, and their children can be paired off so
that the two of each pair are alike. Reports that come in another order leave such trees behind, as a child is
listed when something is first reported about it. -/
inductive Alike : Delta → Delta → Prop where
  /-- the pairs list the children of the one in order, and those of the other in some order -/
  | intro {d k : Delta} (pairs : List (Delta × Delta)) (node : d.node = k.node)
      (left : pairs.map Prod.fst = d.children) (right : (pairs.map Prod.snd).Perm k.children)
      (alike : ∀ pair ∈ pairs, Alike pair.1 pair.2) : Alike d k

theorem element_eq_of_node (h : d.node = k.node) : d.element = k.element :=
  show d.node.element = k.node.element from congrArg _ h

theorem status_eq_of_node (h : d.node = k.node) : d.status = k.status :=
  show d.node.status = k.node.status from congrArg _ h

theorem Alike.node (h : Alike d k) : d.node = k.node := by
  cases h
  assumption

theorem Alike.element (h : Alike d k) : d.element = k.element := element_eq_of_node h.node

theorem Alike.refl (d : Delta) : Alike d d :=
  .intro (d.children.map fun c => (c, c)) rfl (by simp [Function.comp_def]) (by simp [Function.comp_def])
    fun pair hpair => by
      obtain ⟨c, hc, rfl⟩ := List.mem_map.mp hpair
      exact Alike.refl c
termination_by d
decreasing_by
  have := List.sizeOf_lt_of_mem hc
  cases d
  simp only [mk.sizeOf_spec] at this ⊢
  omega

theorem optionRel_refl (o : Option Delta) : Option.Rel Alike o o := by
  cases o with
  | none => exact .none
  | some d => exact .some (.refl d)

/-! ## Looking trees up -/

/-- Lists of siblings in which one finds related reports, whatever one asks for, can be paired off: each report of
the one has its partner in what the other finds for its element, and no partner is used twice. -/
theorem exists_pairs {R : Delta → Delta → Prop} {ks : List Delta} (hl : Siblings lex p l)
    (hk : Siblings lex p ks)
    (h : ∀ x, BelongsTo lex p x → Option.Rel R (about? l x) (about? ks x)) :
    ∃ pairs : List (Delta × Delta), pairs.map Prod.fst = l ∧ (pairs.map Prod.snd).Perm ks ∧
      ∀ pair ∈ pairs, R pair.1 pair.2 := by
  induction l generalizing ks with
  | nil =>
    -- where nothing is found on the left there is nothing on the right
    have hnil : ks = [] := by
      refine List.eq_nil_iff_forall_not_mem.mpr fun c hc => ?_
      have hb : BelongsTo lex p c.element := ⟨hk.follows c hc, hk.parent c hc⟩
      have hrel := h c.element hb
      rw [about?_of_mem hk hb hc rfl] at hrel
      cases hrel
    exact ⟨[], rfl, by simp [hnil], by simp⟩
  | cons c l ih =>
    obtain ⟨hc, hne, hl'⟩ := siblings_cons.mp hl
    have hrel := h c.element hc
    rw [about?_of_mem hl hc (List.mem_cons_self ..) rfl] at hrel
    -- the partner of `c` is taken out of the other list
    obtain ⟨c', hc', hcc'⟩ : ∃ c', about? ks c.element = some c' ∧ R c c' := by
      rcases ho : about? ks c.element with _ | c'
      · rw [ho] at hrel
        cases hrel
      · rw [ho] at hrel
        cases hrel with
        | some hcc' => exact ⟨c', rfl, hcc'⟩
    have hel : c'.element = c.element := hk.element_of_about? hc hc'
    obtain ⟨s, t, rfl⟩ := List.append_of_mem (mem_of_about? hc')
    have hperm : (c' :: (s ++ t)).Perm (s ++ c' :: t) := List.perm_middle.symm
    have hcons : Siblings lex p (c' :: (s ++ t)) :=
      ⟨fun k hk' => hk.follows k (hperm.subset hk'), fun k hk' => hk.parent k (hperm.subset hk'),
        (hperm.pairwise_iff fun h => h.symm).mpr hk.apart⟩
    obtain ⟨-, hne', hst⟩ := siblings_cons.mp hcons
    obtain ⟨pairs, hleft, hright, hpairs⟩ := ih hl' hst fun x hx => by
      by_cases hxc : x = c.element
      · rw [hl'.about?_eq_none hx (hxc ▸ hne), hst.about?_eq_none hx (hxc ▸ hel ▸ hne')]
        exact .none
      · have hrel := h x hx
        rw [hl.about?_cons_of_ne hx hxc] at hrel
        have hfound : about? (s ++ c' :: t) x = about? (s ++ t) x := by
          have hsame : ¬ x.same c'.element = true := fun hsame =>
            hxc (((hcons.same_iff hx (List.mem_cons_self ..)).mp hsame).trans hel)
          simp [about?, List.find?_append, hsame]
        rwa [hfound] at hrel
    refine ⟨(c, c') :: pairs, by rw [List.map_cons, hleft], (hright.cons c').trans hperm, ?_⟩
    intro pair hpair
    rcases List.mem_cons.mp hpair with rfl | hpair
    · exact hcc'
    · exact hpairs pair hpair

/-- **Alike** is what looks alike: the order of siblings cannot be seen by looking reports up. So proofs about trees
alike never pair children off; they ask for one child at a time. -/
theorem alike_iff (hd : Sound lex d) (hk : Sound lex k) :
    Alike d k ↔ d.node = k.node ∧ ∀ x, BelongsTo lex d.element x →
      Option.Rel Alike (about? d.children x) (about? k.children x) := by
  constructor
  · intro h
    cases h with
    | intro pairs node left right alike =>
      have hel : d.element = k.element := element_eq_of_node node
      refine ⟨node, fun x hx => ?_⟩
      have hxk : BelongsTo lex k.element x := hel ▸ hx
      -- the one is found exactly if its partner is
      rcases hc : about? d.children x with _ | c
      · rcases hc' : about? k.children x with _ | c'
        · exact .none
        · obtain ⟨pair, hpair, rfl⟩ := List.mem_map.mp (right.symm.subset (mem_of_about? hc'))
          have hmem : pair.1 ∈ d.children := left ▸ List.mem_map_of_mem hpair
          have helx : pair.1.element = x :=
            (alike pair hpair).element.trans (hk.tidy.siblings.element_of_about? hxk hc')
          rw [about?_of_mem hd.tidy.siblings hx hmem helx] at hc
          cases hc
      · have hcx := hd.tidy.siblings.element_of_about? hx hc
        obtain ⟨pair, hpair, rfl⟩ := List.mem_map.mp (left ▸ mem_of_about? hc)
        have hmem : pair.2 ∈ k.children := right.subset (List.mem_map_of_mem hpair)
        rw [about?_of_mem hk.tidy.siblings hxk hmem ((alike pair hpair).element.symm.trans hcx)]
        exact .some (alike pair hpair)
  · rintro ⟨hnode, hchildren⟩
    have hel : d.element = k.element := element_eq_of_node hnode
    obtain ⟨pairs, hleft, hright, hpairs⟩ :=
      exists_pairs hd.tidy.siblings (hel ▸ hk.tidy.siblings) hchildren
    exact .intro pairs hnode hleft hright hpairs

/-- Being alike passes on from tree to tree, as looking alike does. The induction is on the trees; a child is
followed from the first tree to the third by way of the one that the second tree has for the same element. -/
theorem Alike.trans (h : Alike d k) (h' : Alike k m) (hd : Sound lex d) (hk : Sound lex k)
    (hm : Sound lex m) : Alike d m := by
  induction hd generalizing k m with
  | @intro d tidy below ih =>
    have hd : Sound lex d := .intro tidy below
    have hel : d.element = k.element := h.element
    refine (alike_iff hd hm).mpr ⟨h.node.trans h'.node, fun x hx => ?_⟩
    have hleft := ((alike_iff hd hk).mp h).2 x hx
    have hright := ((alike_iff hk hm).mp h').2 x (hel ▸ hx)
    rcases hc : about? d.children x with _ | c <;> rcases hck : about? k.children x with _ | c' <;>
      rcases hcm : about? m.children x with _ | c'' <;> rw [hc, hck] at hleft <;>
      rw [hck, hcm] at hright <;> cases hleft <;> cases hright
    · exact .none
    · rename_i hleft hright
      exact .some (ih c (mem_of_about? hc) hleft hright (hk.child (mem_of_about? hck))
        (hm.child (mem_of_about? hcm)))

/-! ## Composing trees in -/

theorem element_addChild (d c : Delta) : (d.addChild c).element = d.element := by
  rw [addChild, addChildWith]
  split <;> rfl

theorem element_joinChildren (d : Delta) (cs : List Delta) : (d.joinChildren cs).element = d.element := by
  induction cs generalizing d with
  | nil => rfl
  | cons c cs ih => rw [joinChildren_cons, ih, element_addChild]

theorem element_compose (he : incoming.element = d.element) (h : d.compose incoming = some k) :
    k.element = d.element := by
  rw [compose_eq, composeNode] at h
  split at h <;> cases h <;> first | rfl | exact he | exact element_joinChildren _ _

/-! ### Registering a child -/

/-- An element that came or went as a whole takes no children: the report that it did so speaks for all that is
below it. -/
theorem addChild_of_whole (hw : d.isWhole = true) (c : Delta) : d.addChild c = d := by
  rw [addChild, addChildWith, if_pos hw]

theorem node_addChild (hw : d.isWhole = false) (c : Delta) : (d.addChild c).node = d.withChildren [] := by
  rw [addChild_of_not_whole hw]
  rfl

theorem status_addChild (hw : d.isWhole = false) (c : Delta) : (d.addChild c).status = .changed := by
  rw [addChild_of_not_whole hw]
  rfl

theorem siblings_addChild (hw : d.isWhole = false) (hl : Siblings lex p d.children)
    (hc : BelongsTo lex p c.element) : Siblings lex p (d.addChild c).children := by
  rw [addChild_of_not_whole hw]
  exact siblings_upsert hl hc rfl fun _ _ _ he h => (element_compose he.symm h).trans he

/-- **A child that is registered** is found where it belongs, composed with an earlier report about it, and the
others are found as before. -/
theorem about?_addChild (hw : d.isWhole = false) (hl : Siblings lex p d.children)
    (hc : BelongsTo lex p c.element) (hx : BelongsTo lex p x) :
    about? (d.addChild c).children x =
      if x = c.element then settled c (about? d.children x) else about? d.children x := by
  have hkept : ∀ k ∈ d.children, ∀ k', k.element = c.element → k.compose c = some k' →
      k'.element = c.element := fun k _ k' he h => (element_compose he.symm h).trans he
  rw [addChild_of_not_whole hw, withChildren, about?_upsert hl hc hx rfl hkept]
  split
  · rename_i hxc
    rw [hxc]
    rcases about? d.children c.element with _ | k <;> rfl
  · rfl

/-- Registering children changes nothing else about a node that says so already. -/
theorem node_joinChildren {cs : List Delta} (hs : d.status = .changed)
    (hf : cs ≠ [] → d.flags ∪ Flags.children = d.flags) : (d.joinChildren cs).node = d.node := by
  induction cs generalizing d with
  | nil => rfl
  | cons c cs ih =>
    have hw : d.isWhole = false := by rw [isWhole, hs]; rfl
    have hadded := addChild_of_not_whole hw c
    rw [joinChildren_cons, ih (status_addChild hw c) fun _ => ?_, node_addChild hw, withChildren, hf (by simp)]
    · rw [← hs]
      rfl
    · rw [hadded]
      exact Flags.union_union_self ..

/-- **Children registered one after the other** are found as if each had come alone, since no two of them are about
the same element. -/
theorem about?_joinChildren {cs : List Delta} (hw : d.isWhole = false) (hd : Siblings lex p d.children)
    (hcs : Siblings lex p cs) (hx : BelongsTo lex p x) :
    about? (d.joinChildren cs).children x =
      match about? cs x with
      | none => about? d.children x
      | some c => settled c (about? d.children x) := by
  induction cs generalizing d with
  | nil => rfl
  | cons c cs ih =>
    obtain ⟨hc, hne, hcs'⟩ := siblings_cons.mp hcs
    have hw' : (d.addChild c).isWhole = false := by rw [isWhole, status_addChild hw]; rfl
    rw [joinChildren_cons, ih hw' (siblings_addChild hw hd hc) hcs', about?_addChild hw hd hc hx]
    by_cases hxc : x = c.element
    · -- no other report is about the element of `c`
      rw [hcs'.about?_eq_none hx (hxc ▸ hne), about?_cons, if_pos ((hx.same_iff hc).mpr hxc), if_pos hxc]
    · rw [hcs.about?_cons_of_ne hx hxc, if_neg hxc]

/-! ### Soundness -/

theorem lasting_true : Lasting fun _ => True where
  blank _ := trivial
  field _ _ _ _ := trivial
  grow _ _ := trivial
  join _ _ := trivial

/-- A sound tree is a regular one of which nothing more is asked. -/
theorem Sound.regular (h : Sound lex d) : Regular lex (fun _ => True) d := by
  induction h with
  | intro tidy _ ih => exact .intro tidy trivial ih

theorem Sound.compose (hd : Sound lex d) (hi : Sound lex incoming) (he : incoming.element = d.element)
    (h : d.compose incoming = some k) : Sound lex k :=
  (hd.regular.compose lasting_true hi.regular he h).regular.sound

theorem Sound.composeOrReset (hd : Sound lex d) (hi : Sound lex incoming)
    (he : incoming.element = d.element) : Sound lex (d.composeOrReset incoming) :=
  (hd.regular.composeOrReset lasting_true hi.regular he).1.sound

theorem Sound.spine (hi : Sound lex incoming) (htelling : incoming.status ≠ .unchanged)
    (h : Leads e path incoming.element) : Sound lex (spine incoming e path) :=
  (hi.regular.spine lasting_true htelling h).sound

/-- A report that can be registered below `p`. -/
structure Fits (lex : Lexicon) (p : Handle) (c : Delta) : Prop where
  /-- it is sound -/
  sound : Sound lex c
  /-- it says something -/
  telling : c.status ≠ .unchanged
  /-- it is about a child of `p` -/
  belongs : BelongsTo lex p c.element

theorem Fits.spine (hi : Leaf incoming) (hf : incoming.element.Follows lex)
    (h : Leads p (e :: rest) incoming.element) : Fits lex p (spine incoming e rest) := by
  obtain ⟨step, hrest⟩ := h.of_cons
  refine ⟨(sound_leaf hi hf).spine hi.telling hrest, telling_spine hi.telling e rest, ?_⟩
  rw [element_spine hrest]
  exact ⟨hrest.follows hf, step⟩

theorem Sound.addChild (hd : Sound lex d) (hc : Fits lex d.element c) : Sound lex (d.addChild c) := by
  rcases hw : d.isWhole with _ | _
  · exact (hd.regular.addChild lasting_true hw hc.sound.regular hc.telling hc.belongs
      fun k k' hk he h => hk.compose lasting_true hc.sound.regular he h).sound
  · rw [addChild_of_whole hw]
    exact hd

/-- Composing the spine of a report registers what is below its first node. -/
theorem composeOrReset_spine_cons {i : Delta} {r : List Handle} (hd : Tidy lex d) :
    d.composeOrReset (spine i d.element (e :: r)) = d.addChild (spine i e r) := by
  rw [composeOrReset, compose_spine_cons hd, Option.getD_some]

theorem sound_getD {o : Option Delta} (he : e.Follows lex) (ho : ∀ k ∈ o, Sound lex k ∧ k.element = e) :
    Sound lex (o.getD { element := e }) ∧ (o.getD { element := e }).element = e := by
  cases o with
  | none => exact ⟨sound_new he, rfl⟩
  | some k => exact ho k rfl

/-- Composing a change in is composing it into what was reported before, if need be into nothing. -/
theorem settled_of_changed {o : Option Delta} (he : e.Follows lex) (hc : c.status = .changed) :
    settled c o = some ((o.getD { element := e }).composeOrReset c) := by
  rcases o with _ | k
  · rw [settled, Option.getD_none, composeOrReset,
      compose_into_blank (sound_new he).tidy rfl (by simp [hc]), Option.getD_some]
  · have hne : k.compose c ≠ none := compose_ne_none (by simp [hc])
    obtain ⟨k', hk'⟩ := Option.ne_none_iff_exists'.mp hne
    rw [settled, Option.getD_some, composeOrReset, hk', Option.getD_some]

/-- A report about nothing is composed in without a trace, whatever the node says already: the table keeps the
earlier status, and there is nothing to join. -/
theorem compose_of_unchanged (hi : Sound lex incoming) (h : incoming.status = .unchanged) (d : Delta) :
    d.compose incoming = some d := by
  rw [compose_unchanged _ _ h, joinNode_eq d _ h hi.tidy, hi.regular.children_eq_nil (by simp [h])]
  rfl

/-! ### Two changes -/

theorem compose_changed (hd : d.status = .changed) (hi : incoming.status = .changed) :
    d.compose incoming = some ((joinNode d incoming).joinChildren incoming.children) := by
  rw [compose_eq, composeNode, hd, hi]

theorem node_joined (hd : d.status = .changed) (hi : Tidy lex incoming) :
    ((joinNode d incoming).joinChildren incoming.children).node = (joinNode d incoming).node := by
  refine node_joinChildren hd fun hne => ?_
  rw [joinNode, Flags.union_assoc, (hi.changed hne).2]

/-- A child of two joined changes is found if it is found in one of them; the later report about it meets
the earlier one. -/
theorem about?_joined (hd : Tidy lex d) (hs : d.status = .changed) (hi : Tidy lex incoming)
    (he : incoming.element = d.element) (hx : BelongsTo lex d.element x) :
    about? ((joinNode d incoming).joinChildren incoming.children).children x =
      match about? incoming.children x with
      | none => about? d.children x
      | some c => settled c (about? d.children x) := by
  have hw : d.isWhole = false := by rw [isWhole, hs]; rfl
  exact about?_joinChildren (d := joinNode d incoming) (p := d.element) hw hd.siblings
    (he ▸ hi.siblings) hx

/-- **Two changes** joined are alike if the earlier ones are, and the later ones have children that leave alike
reports behind. This is the one case of the table in which children matter. -/
theorem alike_joined {incoming' : Delta} (hd : Sound lex d) (hk : Sound lex k)
    (hi : Sound lex incoming) (hi' : Sound lex incoming') (he : incoming.element = d.element)
    (h : d.node = k.node) (hin : incoming.node = incoming'.node) (hs : d.status = .changed)
    (hs' : incoming.status = .changed)
    (hchildren : ∀ x, BelongsTo lex d.element x →
      Option.Rel Alike
        (match about? incoming.children x with
          | none => about? d.children x
          | some c => settled c (about? d.children x))
        (match about? incoming'.children x with
          | none => about? k.children x
          | some c => settled c (about? k.children x))) :
    Option.Rel Alike (d.compose incoming) (k.compose incoming') := by
  have hel := element_eq_of_node h
  have hel' := element_eq_of_node hin
  have hks := (status_eq_of_node h).symm.trans hs
  have hkin := (status_eq_of_node hin).symm.trans hs'
  have he' : incoming'.element = k.element := hel'.symm.trans (he.trans hel)
  rw [compose_changed hs hs', compose_changed hks hkin]
  refine .some ((alike_iff (hd.compose hi he (compose_changed hs hs'))
    (hk.compose hi' he' (compose_changed hks hkin))).mpr ⟨?_, fun x hx => ?_⟩)
  · rw [node_joined hs hi.tidy, node_joined hks hi'.tidy]
    calc (joinNode d incoming).node = joinNode d.node incoming.node := rfl
      _ = joinNode k.node incoming'.node := by rw [h, hin]
      _ = (joinNode k incoming').node := rfl
  · rw [element_joinChildren] at hx
    have hx : BelongsTo lex d.element x := hx
    rw [about?_joined hd.tidy hs hi.tidy he hx, about?_joined hk.tidy hks hi'.tidy he' (hel ▸ hx)]
    exact hchildren x hx

/-! ### Keeping trees alike -/

/-- Unless a change meets a change, the table looks at statuses only. -/
theorem Alike.compose_of_status (h : Alike d k) (hd : Sound lex d) (hk : Sound lex k)
    (hi : Sound lex incoming) (hne : ¬(d.status = .changed ∧ incoming.status = .changed)) :
    Option.Rel Alike (d.compose incoming) (k.compose incoming) := by
  have hst := status_eq_of_node h.node
  rcases hin : incoming.status with _ | _ | _ | _
  · -- nothing comes in
    rw [compose_of_unchanged hi hin, compose_of_unchanged hi hin]
    exact .some h
  all_goals
    rcases hs : d.status with _ | _ | _ | _
    · rw [compose_into_blank hd.tidy hs (by simp [hin]),
        compose_into_blank hk.tidy (hst.symm.trans hs) (by simp [hin])]
      exact .some (.refl incoming)
    all_goals rw [compose_eq d, compose_eq k, composeNode, composeNode, hs, hst.symm.trans hs, hin]
  · exact .some h
  · exact .some (.refl _)
  · exact .some (.refl _)
  · exact .none
  · exact .some h
  · exact .some (.refl _)
  · exact .some h
  · exact .some h
  · exact absurd ⟨hs, hin⟩ hne

/-- **A later report keeps trees alike.** By induction on the later tree: where a change meets a change its children
are registered, and for each of them the trees are alike by induction; everywhere else the table looks at statuses
only. -/
theorem Alike.compose (h : Alike d k) (hd : Sound lex d) (hk : Sound lex k) (hi : Sound lex incoming)
    (he : incoming.element = d.element) :
    Option.Rel Alike (d.compose incoming) (k.compose incoming) := by
  -- the induction is on the later tree, whose children are composed in one by one
  induction hi generalizing d k with
  | @intro incoming tidy below ih =>
    have hi : Sound lex incoming := .intro tidy below
    by_cases hboth : d.status = .changed ∧ incoming.status = .changed
    · refine alike_joined hd hk hi hi he h.node rfl hboth.1 hboth.2 fun x hx => ?_
      have hrel := ((alike_iff hd hk).mp h).2 x hx
      rcases hc : about? incoming.children x with _ | c
      · exact hrel
      · have hcx := tidy.siblings.element_of_about? (he.symm ▸ hx) hc
        rcases hdx : about? d.children x with _ | n <;> rcases hkx : about? k.children x with _ | n' <;>
          rw [hdx, hkx] at hrel <;> cases hrel
        · exact .some (.refl c)
        · rename_i hrel
          have hnx := hd.tidy.siblings.element_of_about? hx hdx
          exact ih c (mem_of_about? hc) hrel (hd.child (mem_of_about? hdx))
            (hk.child (mem_of_about? hkx)) (hcx.trans hnx.symm)
    · exact h.compose_of_status hd hk hi hboth

theorem Alike.composeOrReset (h : Alike d k) (hd : Sound lex d) (hk : Sound lex k)
    (hi : Sound lex incoming) (he : incoming.element = d.element) :
    Alike (d.composeOrReset incoming) (k.composeOrReset incoming) := by
  have hrel := h.compose hd hk hi he
  rw [Delta.composeOrReset, Delta.composeOrReset, h.element]
  rcases hc : d.compose incoming with _ | n <;> rcases hc' : k.compose incoming with _ | n' <;>
    rw [hc, hc'] at hrel <;> cases hrel
  · exact .refl _
  · rename_i hrel
    exact hrel

end Delta

end CodeModel
