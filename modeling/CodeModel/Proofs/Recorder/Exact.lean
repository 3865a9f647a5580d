import CodeModel.Proofs.Recorder.Recording

/-!
# What a recording says

The **node** of every element that is reached from the input of a recording has the status, the flags and
the children that the two states call for, and nothing else (`recording_exact`).

What the law says about notes is turned into what nodes say: the status and the flags of a node are the note
on its element (`told_nodeAt`), and its children are those of the element with a note of their own
(`exists_child_iff`).
-/

namespace CodeModel

namespace Handle

variable {e : Handle}

/-- Handles of kinds without switches are plain: they are compared by names and occurrences alone, with all their
ancestors. -/
theorem Follows.plain (h : e.Follows simple) : e.Plain simple := by
  have hnode : ∀ {n : Node}, n.Follows simple → n.kind.parentIndependent = false := fun h => by rw [h]; rfl
  induction e with
  | root n => exact ⟨h, hnode h⟩
  | child p n ih => exact ⟨h, (ih h.1).dependent, hnode h.2⟩

end Handle

namespace Delta

open Handle

variable {lex : Lexicon} {d n : Delta} {e : Handle}

/-- Only the root can have nothing to tell. A sound tree has no other node that is unchanged. -/
theorem telling_of_find? (hd : Sound lex d) (he : e.Follows lex) (hne : e ≠ d.element)
    (h : d.find? e = some n) : n.status ≠ .unchanged := by
  obtain ⟨path, hpath⟩ := exists_leads_of_find? hd.tidy.follows he h
  have hcons : path ≠ [] := by
    rintro rfl
    exact hne hpath.eq_of_nil
  obtain ⟨p, init, rfl, hp, hinit⟩ := hpath.eq_concat hcons
  rw [find?_of_leads hd.tidy.follows he hpath, descend_append] at h
  obtain ⟨m, hm, hn⟩ := Option.bind_eq_some_iff.mp h
  obtain ⟨hsound, hel⟩ := sound_descend hd hinit (he.parent hp) hm
  rw [descend_cons hsound (hel.symm ▸ ⟨he, hp⟩)] at hn
  obtain ⟨c, hc, hcn⟩ := Option.bind_eq_some_iff.mp hn
  cases hcn
  exact hsound.tidy.telling _ (mem_of_about? hc)

end Delta

namespace Recorder

open Builder Delta Note Handle

variable {old new : Bodies} {input x y c : Handle} {o n : Body} {b : Builder} {limit depth k : Nat}
  {moved m m' : Bool}

/-! ## Trails and entries -/

/-- A trail of so many steps ends that many levels further down. -/
theorem Trail.depth_eq (h : Trail old new k x m y m') (hn : Arranged new) (hx : x.ParentDependent) :
    y.bare.depth = x.bare.depth + k := by
  induction h with
  | here x m => rfl
  | down _ hxn hc _ _ ih =>
    obtain ⟨hcd, hcp⟩ := hn.child hx hxn (mem_commonChildren hc)
    rw [ih hcd, depth_of_parent hcp]
    omega

/-- The note of an element under the law: it came, it went, or there is at most a change. -/
theorem Law.noted_cases (h : Law old new limit depth moved y b) :
    (Table.get? old y = none ∧ (∃ n, Table.get? new y = some n) ∧ b.noted y.bare = some (.added, ∅)) ∨
      ((∃ o, Table.get? old y = some o) ∧ Table.get? new y = none ∧ b.noted y.bare = some (.removed, ∅)) ∨
      ((Table.get? old y).isSome = (Table.get? new y).isSome ∧ Modest (b.noted y.bare)) := by
  rcases hyo : Table.get? old y with _ | o <;> rcases hyn : Table.get? new y with _ | n
  · refine .inr (.inr ⟨rfl, ?_⟩)
    rw [h.agreeing (not_differs_of_none hyo hyn)]
    exact modest_shifted moved
  · exact .inl ⟨rfl, ⟨n, rfl⟩, h.appeared hyo hyn⟩
  · exact .inr (.inl ⟨⟨o, rfl⟩, rfl, h.vanished hyo hyn⟩)
  · refine .inr (.inr ⟨rfl, ?_⟩)
    by_cases hd : Differs old new y
    · by_cases hlimit : limit ≤ depth
      · rw [h.coarse hyo hyn hlimit hd]
        exact modest_gained _ _
      · obtain ⟨kids, -, hentry⟩ := h.fine hyo hyn (Nat.lt_of_not_le hlimit) hd
        rw [hentry]
        exact modest_gained _ _
    · rw [h.agreeing hd]
      exact modest_shifted moved

/-- A trail can be followed one step further, to a common child of the bodies where it ends. -/
theorem Trail.snoc (h : Trail old new k x m y m') (hyo : Table.get? old y = some o)
    (hyn : Table.get? new y = some n) (hc : c ∈ commonChildren o n) (hopened : isUnopened old new c = false) :
    Trail old new (k + 1) x m c (decide (c ∈ reordered o n)) := by
  induction h with
  | here x m => exact .down hyo hyn hc hopened (.here _ _)
  | down hxo hxn hd hopened' _ ih => exact .down hxo hxn hd hopened' (ih hyo hyn)

/-! ## Nodes -/

/-- The node of an element, with nothing to tell if there is none. So what a delta says is defined for every
element, also where it says nothing by having no node. -/
def nodeAt (d : Delta) (x : Handle) : Delta := (d.find? x).getD { element := x }

/-- What the builder has on record is what the node tells: the passage from the notes of the law to the delta that a
recording answers. -/
theorem told_nodeAt (hb : Regular simple Unattached b.bare.delta) (hx : x.ParentDependent) :
    ((nodeAt b.delta x).status, (nodeAt b.delta x).flags) = (b.noted x.bare).getD (.unchanged, ∅) := by
  have hfind : b.bare.delta.find? x.bare = (b.delta.find? x).map Delta.bare := find?_bare b.delta x
  rw [noted, recorded?, hfind, nodeAt]
  rcases hn : b.delta.find? x with _ | n
  · rfl
  · rw [hn] at hfind
    obtain ⟨hsound, -⟩ := sound_of_find? hb.sound hx.follows_bare hfind
    rw [Option.map_some, Option.bind_some, told?_bare, told?]
    split
    · rename_i hs
      have hflags : n.flags = ∅ := by
        rw [← flags_bare, hsound.tidy.blank (by rw [status_bare, hs])]
      simp [hs, hflags]
    · rfl

/-- The flags of a node are those on record for its element; where there is no node there are none. -/
theorem flags_nodeAt (hb : Regular simple Unattached b.bare.delta) (hx : x.ParentDependent) :
    (nodeAt b.delta x).flags = ((b.noted x.bare).getD (.unchanged, ∅)).2 :=
  congrArg Prod.snd (told_nodeAt hb hx)

/-- **The children of a node** are those of its element that are on record. A node below the root is there only if
something is told, and a child that is on record has a node under the one of its parent. -/
theorem exists_child_iff {s : Status} {path : List Handle} (hb : Regular simple Unattached b.bare.delta)
    (hpath : Leads b.bare.delta.element path x.bare) (hx : x.ParentDependent) (hc : c.ParentDependent)
    (hs : s ≠ .unchanged) :
    (∃ k ∈ (nodeAt b.delta x).children, k.status = s ∧ c.same k.element = true) ↔
      c.bare.parent? = some x.bare ∧ (b.noted c.bare).map Prod.fst = some s := by
  have hfind : b.bare.delta.find? x.bare = (b.delta.find? x).map Delta.bare := find?_bare b.delta x
  have hroot := hb.tidy.follows
  have hcf := hc.follows_bare
  rcases hn : b.delta.find? x with _ | n
  · -- without a node there is nothing below either
    rw [nodeAt, hn]
    rw [hn] at hfind
    constructor
    · rintro ⟨k, hk, -⟩
      cases hk
    · rintro ⟨hp, hnoted⟩
      rw [noted, recorded?, find?_below hroot hpath hcf (.down hp (.here _)), hfind] at hnoted
      cases hnoted
  · rw [hn, Option.map_some] at hfind
    obtain ⟨hsound, hel⟩ := sound_of_find? hb.sound hx.follows_bare hfind
    have hsib := hsound.tidy.siblings
    have hnoted : c.bare.parent? = some x.bare →
        b.noted c.bare = (about? (n.children.map Delta.bare) c.bare).bind told? := by
      intro hp
      rw [noted, recorded?, find?_below hroot hpath hcf (.down hp (.here _)), hfind, Option.bind_some,
        descend_cons hsound (hel.symm ▸ ⟨hcf, hp⟩), children_bare]
      rcases about? (n.children.map Delta.bare) c.bare with _ | k <;> rfl
    rw [nodeAt, hn, Option.getD_some]
    constructor
    · rintro ⟨k, hk, rfl, hck⟩
      have hmem : k.bare ∈ n.bare.children := by
        rw [children_bare]
        exact List.mem_map_of_mem hk
      have heq : k.bare.element = c.bare := by
        rw [← same_bare, ← element_bare] at hck
        exact ((hcf.plain.same_iff (hsib.follows _ hmem).plain).mp hck).symm
      have hp : c.bare.parent? = some n.bare.element := heq ▸ hsib.parent _ hmem
      refine ⟨hel ▸ hp, ?_⟩
      rw [hnoted (hel ▸ hp), ← children_bare, about?_of_mem hsib ⟨hcf, hp⟩ hmem heq, Option.bind_some,
        told?_bare, told?_of_ne hs]
      rfl
    · rintro ⟨hp, hstatus⟩
      rw [hnoted hp] at hstatus
      rcases habout : about? (n.children.map Delta.bare) c.bare with _ | k'
      · rw [habout] at hstatus
        cases hstatus
      · obtain ⟨k, hk, rfl⟩ := List.mem_map.mp (mem_of_about? habout)
        rw [habout, Option.bind_some, told?_bare, told?] at hstatus
        refine ⟨k, hk, ?_, ?_⟩
        · split at hstatus
          · cases hstatus
          · exact Option.some.inj hstatus
        · rw [← same_bare, ← element_bare]
          simpa using List.find?_some habout

/-! ## Exactness -/

/-- The child is there before and not after; or it is on both sides and known, and **lost** its body. -/
def Lost (old new : Bodies) (o n : Body) (c : Handle) : Prop :=
  ((∃ k ∈ o.children, c.same k = true) ∧ ¬ ∃ k ∈ n.children, c.same k = true) ∨
    ∃ k ∈ commonChildren o n, c.same k = true ∧ isUnopened old new k = false ∧
      Table.contains old k = true ∧ Table.contains new k = false

/-- The child is there after and not before; or it is on both sides and known, and **won** a body. -/
def Won (old new : Bodies) (o n : Body) (c : Handle) : Prop :=
  ((∃ k ∈ n.children, c.same k = true) ∧ ¬ ∃ k ∈ o.children, c.same k = true) ∨
    ∃ k ∈ commonChildren o n, c.same k = true ∧ isUnopened old new k = false ∧
      Table.contains old k = false ∧ Table.contains new k = true

/-- The flags that a recording can give to an element: each of the four is told or not, and there are no others. -/
def toldFlags (moved content kids fine : Bool) : Flags :=
  (if moved then Flags.reorder else ∅) ∪ ((if content then Flags.content else ∅) ∪
    (if kids then Flags.children else ∅) ∪ (if fine then Flags.fineGrained else ∅))

/-- Each of the four flags is told independently of the other three. -/
theorem toldFlags_spec (moved content kids fine : Bool) :
    (toldFlags moved content kids fine).contains Flags.reorder = moved ∧
      (toldFlags moved content kids fine).contains Flags.content = content ∧
      (toldFlags moved content kids fine).contains Flags.children = kids ∧
      (toldFlags moved content kids fine).contains Flags.fineGrained = fine ∧
      toldFlags moved content kids fine \
        (Flags.content ∪ Flags.children ∪ Flags.reorder ∪ Flags.fineGrained) = ∅ := by
  revert moved content kids fine
  decide

/-- **The node of an element** that is so many steps below the input says what the two states call for, and nothing
else. Each part is an equivalence or settles a value: what is told is so, and what is so is told. No part refers to
how the comparison went; besides the two states there are only the depth limit and whether the element changed its
place among its siblings. -/
structure Exact (old new : Bodies) (limit depth : Nat) (moved : Bool) (x : Handle) (d : Delta) : Prop where
  /-- above the limit, content is told for itself -/
  content : ∀ {o n}, Table.get? old x = some o → Table.get? new x = some n → depth < limit →
    ((nodeAt d x).flags.contains Flags.content = true ↔ (n.contentChange o).isEmpty = false)
  /-- above the limit, an element is marked if there is any difference below it -/
  fineGrained : ∀ {o n}, Table.get? old x = some o → Table.get? new x = some n → depth < limit →
    ((nodeAt d x).flags.contains Flags.fineGrained = true ↔ Differs old new x)
  /-- above the limit, affected children are told by a flag -/
  children : ∀ {o n}, Table.get? old x = some o → Table.get? new x = some n → depth < limit →
    ((nodeAt d x).flags.contains Flags.children = true ↔ (nodeAt d x).children ≠ [])
  /-- above the limit, the children that went are told -/
  removed : ∀ {o n c}, Table.get? old x = some o → Table.get? new x = some n → depth < limit →
    c.ParentDependent → ((∃ k ∈ (nodeAt d x).children, k.status = .removed ∧ c.same k.element = true) ↔
      Lost old new o n c)
  /-- above the limit, the children that came are told -/
  added : ∀ {o n c}, Table.get? old x = some o → Table.get? new x = some n → depth < limit →
    c.ParentDependent → ((∃ k ∈ (nodeAt d x).children, k.status = .added ∧ c.same k.element = true) ↔
      Won old new o n c)
  /-- at the limit, any difference is one of content -/
  coarse : ∀ {o n}, Table.get? old x = some o → Table.get? new x = some n → depth = limit →
    ((nodeAt d x).flags.contains Flags.content = true ↔ Differs old new x) ∧
      (nodeAt d x).flags.contains Flags.fineGrained = false ∧
      (nodeAt d x).flags.contains Flags.children = false ∧ (nodeAt d x).children = []
  /-- a change of place is told -/
  reorder : ∀ {o n}, Table.get? old x = some o → Table.get? new x = some n →
    ((nodeAt d x).flags.contains Flags.reorder = true ↔ moved = true)
  /-- the input does not change its place -/
  place : moved = true → 0 < depth
  /-- there are no other flags -/
  flags : (nodeAt d x).flags \ (Flags.content ∪ Flags.children ∪ Flags.reorder ∪ Flags.fineGrained) = ∅
  /-- there are neither moves nor attachments -/
  unattached : Unattached (nodeAt d x)
  /-- an element that is on both sides is changed if there is anything to tell, and else unchanged -/
  status : ∀ {o n}, Table.get? old x = some o → Table.get? new x = some n →
    (nodeAt d x).status = .changed ∧ (Differs old new x ∨ moved = true) ∨
      (nodeAt d x).status = .unchanged ∧ ¬ Differs old new x ∧ moved = false
  /-- below the input there is no node where there is nothing to tell -/
  absent : 0 < depth → (d.find? x = none ↔ ¬ Differs old new x ∧ moved = false)
  /-- an element that came is told as a whole -/
  appeared : Table.get? old x = none → ∀ {n}, Table.get? new x = some n →
    (nodeAt d x).status = .added ∧ (nodeAt d x).flags = ∅ ∧ (nodeAt d x).children = []
  /-- an element that went is told as a whole -/
  vanished : ∀ {o}, Table.get? old x = some o → Table.get? new x = none →
    (nodeAt d x).status = .removed ∧ (nodeAt d x).flags = ∅ ∧ (nodeAt d x).children = []

/-- The flags of an element that is on both sides. Above the limit the three others tell content, children and
differences below apart; at the limit the flag for content stands for all of them. -/
theorem Law.toldFlags (h : Law old new limit depth moved x b) (hxo : Table.get? old x = some o)
    (hxn : Table.get? new x = some n) :
    ∃ content kids fine : Bool, ∃ s,
      (b.noted x.bare).getD (.unchanged, ∅) = (s, Recorder.toldFlags moved content kids fine) ∧
      (s = .changed ∧ (Differs old new x ∨ moved = true) ∨
        s = .unchanged ∧ ¬ Differs old new x ∧ moved = false) ∧
      (depth < limit → content = n.contentDiffers o ∧ (kids = true ↔ ChildrenDiffer old new o n) ∧
        (fine = true ↔ Differs old new x)) ∧
      (limit ≤ depth → (content = true ↔ Differs old new x) ∧ kids = false ∧ fine = false) := by
  by_cases hd : Differs old new x
  · by_cases hlimit : limit ≤ depth
    · refine ⟨true, false, false, .changed, ?_, .inl ⟨rfl, .inl hd⟩, fun hlt => by omega,
        fun _ => by simp [hd]⟩
      rw [h.coarse hxo hxn hlimit hd]
      cases moved <;> rfl
    · obtain ⟨kids, hkids, hentry⟩ := h.fine hxo hxn (Nat.lt_of_not_le hlimit) hd
      refine ⟨n.contentDiffers o, kids, true, .changed, ?_, .inl ⟨rfl, .inl hd⟩,
        fun _ => ⟨rfl, hkids, by simp [hd]⟩, fun hle => absurd hle hlimit⟩
      rw [hentry]
      cases moved <;> rfl
  · have hnone := mt (differs_iff hxo hxn).mpr hd
    rw [not_or, Bool.not_eq_true] at hnone
    refine ⟨false, false, false, if moved then .changed else .unchanged, ?_, ?_,
      fun _ => ⟨hnone.1.symm, by simp [hnone.2], by simp [hd]⟩, fun _ => by simp [hd]⟩
    · rw [h.agreeing hd]
      cases moved <;> rfl
    · cases moved
      · exact .inr ⟨rfl, hd, rfl⟩
      · exact .inl ⟨rfl, .inr rfl⟩

/-- A handle whose ancestors matter has a match among others exactly if it is one of them when bare. -/
theorem exists_same_iff {l : List Handle} (hl : ∀ k ∈ l, k.ParentDependent) (hc : c.ParentDependent) :
    (∃ k ∈ l, c.same k = true) ↔ c.bare ∈ l.map Handle.bare := by
  rw [List.mem_map]
  exact exists_congr fun k => and_congr_right fun hk => (same_iff_bare hc (hl k hk)).trans eq_comm

section Level

variable (ho : Arranged old) (hn : Arranged new) (hx : x.ParentDependent)
  (hxo : Table.get? old x = some o) (hxn : Table.get? new x = some n)

include ho hn hx hxo hxn

omit ho hxo in
/-- A later body names each of its children once, so what is asked of the common children that match a given child is
asked of one of them. -/
theorem exists_common_iff {k : Handle} (hk : k ∈ commonChildren o n) (hc : c.ParentDependent)
    (hkc : k.bare = c.bare) (Q : Handle → Prop) :
    (∃ k' ∈ commonChildren o n, c.same k' = true ∧ Q k') ↔ Q k := by
  constructor
  · rintro ⟨k', hk', hck', hq⟩
    have hk'd := (hn.child hx hxn (mem_commonChildren hk')).1
    have hbare : k'.bare = k.bare := ((same_iff_bare hc hk'd).mp hck').symm.trans hkc.symm
    rwa [← List.inj_on_of_nodup_map (hn.nodup hxn) (mem_commonChildren hk') (mem_commonChildren hk) hbare]
  · exact fun hq => ⟨k, hk, same_of_bare_eq hkc.symm, hq⟩

/-- A child that is not on both sides matches none of the common ones. -/
theorem not_exists_common (hc : c.ParentDependent)
    (hnot : ¬ (c.bare ∈ o.children.map Handle.bare ∧ c.bare ∈ n.children.map Handle.bare)) (Q : Handle → Prop) :
    ¬ ∃ k ∈ commonChildren o n, c.same k = true ∧ Q k := by
  rintro ⟨k, hk, hck, -⟩
  obtain ⟨hkn, hko⟩ := (mem_commonChildren_iff ho hn hx hxo hxn).mp hk
  apply hnot
  rw [(same_iff_bare hc (hn.child hx hxn hkn).1).mp hck]
  exact ⟨hko, List.mem_map_of_mem hkn⟩

/-- Whether a child is lost or won. If it is on both sides this is a matter of its bodies, and else of the side that
it is on. -/
theorem lost_won_iff (hc : c.ParentDependent) :
    (∀ k ∈ commonChildren o n, k.bare = c.bare →
      (Lost old new o n c ↔ isUnopened old new k = false ∧ Table.contains old k = true ∧
        Table.contains new k = false) ∧
      (Won old new o n c ↔ isUnopened old new k = false ∧ Table.contains old k = false ∧
        Table.contains new k = true)) ∧
    (¬ (c.bare ∈ o.children.map Handle.bare ∧ c.bare ∈ n.children.map Handle.bare) →
      (Lost old new o n c ↔ c.bare ∈ o.children.map Handle.bare) ∧
      (Won old new o n c ↔ c.bare ∈ n.children.map Handle.bare)) := by
  have hod : ∀ k ∈ o.children, k.ParentDependent := fun k hk => (ho.child hx hxo hk).1
  have hnd : ∀ k ∈ n.children, k.ParentDependent := fun k hk => (hn.child hx hxn hk).1
  rw [Lost, Won, exists_same_iff hod hc, exists_same_iff hnd hc]
  refine ⟨fun k hk hkc => ?_, fun hnot => ?_⟩
  · obtain ⟨hkn, hko⟩ := (mem_commonChildren_iff ho hn hx hxo hxn).mp hk
    rw [hkc] at hko
    have hcn : c.bare ∈ n.children.map Handle.bare := hkc ▸ List.mem_map_of_mem hkn
    rw [exists_common_iff hn hx hxn hk hc hkc fun k => isUnopened old new k = false ∧
        Table.contains old k = true ∧ Table.contains new k = false,
      exists_common_iff hn hx hxn hk hc hkc fun k => isUnopened old new k = false ∧
        Table.contains old k = false ∧ Table.contains new k = true]
    simp only [hko, hcn, not_true_eq_false, and_false, false_or, and_self]
  · simp only [not_exists_common ho hn hx hxo hxn hc hnot, or_false]
    constructor
    · exact ⟨And.left, fun hco => ⟨hco, fun hcn => hnot ⟨hco, hcn⟩⟩⟩
    · exact ⟨And.left, fun hcn => ⟨hcn, fun hco => hnot ⟨hco, hcn⟩⟩⟩

/-- **The note of a child**: it went, it came, or there is at most a change. The law of the element settles children
that are on one side only and those that were not opened, and the law of each other child settles its own. -/
theorem child_cases (hlimit : depth < limit) (hlaw : Law old new limit depth moved x b)
    (hkids : ∀ k ∈ commonChildren o n, isUnopened old new k = false →
      Law old new limit (depth + 1) (decide (k ∈ reordered o n)) k b)
    (hc : c.ParentDependent) (hp : c.bare.parent? = some x.bare) :
    (Lost old new o n c ∧ ¬ Won old new o n c ∧ b.noted c.bare = some (.removed, ∅)) ∨
      (¬ Lost old new o n c ∧ Won old new o n c ∧ b.noted c.bare = some (.added, ∅)) ∨
      (¬ Lost old new o n c ∧ ¬ Won old new o n c ∧ Modest (b.noted c.bare)) := by
  obtain ⟨hcommon, halone⟩ := lost_won_iff ho hn hx hxo hxn hc
  by_cases hboth : c.bare ∈ o.children.map Handle.bare ∧ c.bare ∈ n.children.map Handle.bare
  · -- a child that is on both sides, as the later body names it
    obtain ⟨hco, hcn⟩ := hboth
    obtain ⟨k, hk, hkc⟩ := List.mem_map.mp hcn
    have hkcommon : k ∈ commonChildren o n :=
      (mem_commonChildren_iff ho hn hx hxo hxn).mpr ⟨hk, hkc ▸ hco⟩
    obtain ⟨hlost, hwon⟩ := hcommon k hkcommon hkc
    rw [hlost, hwon, Table.contains, Table.contains, ← hkc]
    rcases hopened : isUnopened old new k with _ | _
    · rcases (hkids k hkcommon hopened).noted_cases with ⟨hko, ⟨n', hkn⟩, hentry⟩ |
        ⟨⟨o', hko⟩, hkn, hentry⟩ | ⟨hbodies, hmodest⟩
      · simp [hko, hkn, hentry]
      · simp [hko, hkn, hentry]
      · rw [hbodies]
        cases (Table.get? new k).isSome <;> simp [hmodest]
    · refine .inr (.inr ⟨by simp, by simp, ?_⟩)
      rw [hlaw.unopened hxo hxn hlimit hkcommon hopened]
      exact modest_shifted _
  · obtain ⟨hlost, hwon⟩ := halone hboth
    rw [hlost, hwon]
    by_cases hco : c.bare ∈ o.children.map Handle.bare
    · have hcn : c.bare ∉ n.children.map Handle.bare := fun hcn => hboth ⟨hco, hcn⟩
      obtain ⟨k, hk, hkc⟩ := List.mem_map.mp hco
      exact .inl ⟨hco, hcn, hkc ▸ hlaw.gone hxo hxn hlimit hk (hkc ▸ hcn)⟩
    · by_cases hcn : c.bare ∈ n.children.map Handle.bare
      · obtain ⟨k, hk, hkc⟩ := List.mem_map.mp hcn
        exact .inr (.inl ⟨hco, hcn, hkc ▸ hlaw.come hxo hxn hlimit hk (hkc ▸ hco)⟩)
      · -- nothing else is on record one step below the element
        have hnone : b.noted c.bare = none := by
          refine hlaw.other hc.follows_bare hp fun ho' hn' _ => ?_
          cases hxo.symm.trans ho'
          cases hxn.symm.trans hn'
          exact ⟨hco, hcn⟩
        exact .inr (.inr ⟨hco, hcn, hnone ▸ modest_none⟩)

/-- A child that was lost or won is listed in one of the two bodies, so the element is its parent. -/
theorem parent_of_lost_or_won (hc : c.ParentDependent) (h : Lost old new o n c ∨ Won old new o n c) :
    c.bare.parent? = some x.bare := by
  have hold : ∀ {k}, k ∈ o.children → c.same k = true → c.bare.parent? = some x.bare := fun hk hck => by
    rw [(same_iff_bare hc (ho.child hx hxo hk).1).mp hck]
    exact (ho.child hx hxo hk).2
  have hnew : ∀ {k}, k ∈ n.children → c.same k = true → c.bare.parent? = some x.bare := fun hk hck => by
    rw [(same_iff_bare hc (hn.child hx hxn hk).1).mp hck]
    exact (hn.child hx hxn hk).2
  rcases h with (⟨⟨k, hk, hck⟩, -⟩ | ⟨k, hk, hck, -⟩) | (⟨⟨k, hk, hck⟩, -⟩ | ⟨k, hk, hck, -⟩)
  · exact hold hk hck
  · exact hnew (mem_commonChildren hk) hck
  · exact hnew hk hck
  · exact hnew (mem_commonChildren hk) hck

/-- **What is on record about a child** tells whether it was lost or won. The three cases exclude each other, so the
status of the note decides which of them it is. -/
theorem noted_child_iff (hlimit : depth < limit) (hlaw : Law old new limit depth moved x b)
    (hkids : ∀ k ∈ commonChildren o n, isUnopened old new k = false →
      Law old new limit (depth + 1) (decide (k ∈ reordered o n)) k b)
    (hc : c.ParentDependent) (hp : c.bare.parent? = some x.bare) :
    ((b.noted c.bare).map Prod.fst = some .removed ↔ Lost old new o n c) ∧
      ((b.noted c.bare).map Prod.fst = some .added ↔ Won old new o n c) := by
  rcases child_cases ho hn hx hxo hxn hlimit hlaw hkids hc hp with
    ⟨hlost, hwon, hentry⟩ | ⟨hlost, hwon, hentry⟩ | ⟨hlost, hwon, hmodest⟩
  · simp [hentry, hlost, hwon]
  · simp [hentry, hlost, hwon]
  · have hchange : ∀ {s}, (b.noted c.bare).map Prod.fst = some s → s = .changed := by
      intro s hs
      obtain ⟨q, hq, rfl⟩ := Option.map_eq_some_iff.mp hs
      exact hmodest q hq
    exact ⟨iff_of_false (fun h => by cases hchange h) hlost, iff_of_false (fun h => by cases hchange h) hwon⟩

/-- Where children differ one of them is on record: a child that came, went or changed places is reported, and so is
one below which the trees differ. -/
theorem exists_noted_of_childrenDiffer (hlimit : depth < limit) (hlaw : Law old new limit depth moved x b)
    (hkids : ∀ k ∈ commonChildren o n, isUnopened old new k = false →
      Law old new limit (depth + 1) (decide (k ∈ reordered o n)) k b)
    (h : ChildrenDiffer old new o n) :
    ∃ c : Handle, c.ParentDependent ∧ c.bare.parent? = some x.bare ∧ b.noted c.bare ≠ none := by
  rcases (childrenDiffer_iff ho hn hx hxo hxn).mp h with hreports | ⟨c, hc, hopened, hd⟩
  · obtain ⟨r, hr⟩ := List.exists_mem_of_ne_nil _ hreports
    rcases (mem_childReports ho hn hx hxo hxn).mp hr with ⟨c, ⟨hc, hgone⟩, rfl⟩ | ⟨c, ⟨hc, hcome⟩, rfl⟩ |
      ⟨c, hc, rfl⟩
    · obtain ⟨hcd, hcp⟩ := ho.child hx hxo hc
      exact ⟨c, hcd, hcp, by simp [hlaw.gone hxo hxn hlimit hc hgone]⟩
    · obtain ⟨hcd, hcp⟩ := hn.child hx hxn hc
      exact ⟨c, hcd, hcp, by simp [hlaw.come hxo hxn hlimit hc hcome]⟩
    · -- a child that changed its place has at least that on record
      obtain ⟨hcd, hcp⟩ := hn.child hx hxn (mem_reordered hc)
      have hcommon := (reordered_sublist o n).subset hc
      refine ⟨c, hcd, hcp, ?_⟩
      rcases hopened : isUnopened old new c with _ | _
      · have hchild := hkids c hcommon hopened
        by_cases hd : Differs old new c
        · exact hchild.noted_ne_none hd
        · simp [hchild.agreeing hd, shifted, hc]
      · simp [hlaw.unopened hxo hxn hlimit hcommon hopened, shifted, hc]
  · obtain ⟨hcd, hcp⟩ := hn.child hx hxn (mem_commonChildren hc)
    exact ⟨c, hcd, hcp, (hkids c hc hopened).noted_ne_none hd⟩

end Level

/-- A node with children is changed and says so, for a regular tree has children only under such nodes. -/
theorem changed_of_children (hb : Regular simple Unattached b.bare.delta) (hx : x.ParentDependent)
    (h : (nodeAt b.delta x).children ≠ []) :
    (nodeAt b.delta x).status = .changed ∧ (nodeAt b.delta x).flags.contains Flags.children = true := by
  have hfind : b.bare.delta.find? x.bare = (b.delta.find? x).map Delta.bare := find?_bare b.delta x
  rw [nodeAt] at h ⊢
  rcases hn : b.delta.find? x with _ | n
  · rw [hn] at h
    exact absurd rfl h
  · rw [hn] at h hfind
    obtain ⟨hsound, -⟩ := sound_of_find? hb.sound hx.follows_bare hfind
    have hchildren : n.bare.children ≠ [] := by
      rw [children_bare]
      exact fun hnil => h (List.map_eq_nil_iff.mp hnil)
    have hchanged := hsound.tidy.changed hchildren
    rw [status_bare, flags_bare, ← Flags.contains_iff] at hchanged
    exact hchanged

/-- Nodes of a recording have neither moves nor attachments. -/
theorem unattached_nodeAt (hb : Regular simple Unattached b.bare.delta) : Unattached (nodeAt b.delta x) := by
  have hfind : b.bare.delta.find? x.bare = (b.delta.find? x).map Delta.bare := find?_bare b.delta x
  rw [nodeAt]
  rcases hn : b.delta.find? x with _ | n
  · exact lasting_unattached.blank x
  · rw [hn] at hfind
    have hown := (hb.part (part_of_find? hfind)).own
    rw [bare_eq] at hown
    exact ⟨hown.movedFrom, hown.movedTo, hown.markers, hown.resources⟩

/-- Below the root a node is there exactly if something is on record. -/
theorem find?_eq_none_iff (hb : Regular simple Unattached b.bare.delta) (hx : x.ParentDependent)
    (hne : x.bare ≠ b.bare.delta.element) : b.delta.find? x = none ↔ b.noted x.bare = none := by
  have hfind : b.bare.delta.find? x.bare = (b.delta.find? x).map Delta.bare := find?_bare b.delta x
  rw [noted, recorded?, hfind]
  rcases hn : b.delta.find? x with _ | n
  · simp
  · rw [hn] at hfind
    have htelling := telling_of_find? hb.sound hx.follows_bare hne hfind
    simp [told?_of_ne htelling]

/-- The flags and the status of the node of an element that is on both sides. -/
theorem Law.nodeAt_eq (h : Law old new limit depth moved x b) (hb : Regular simple Unattached b.bare.delta)
    (hx : x.ParentDependent) (hxo : Table.get? old x = some o) (hxn : Table.get? new x = some n) :
    ∃ content kids fine : Bool,
      (nodeAt b.delta x).flags = Recorder.toldFlags moved content kids fine ∧
      ((nodeAt b.delta x).status = .changed ∧ (Differs old new x ∨ moved = true) ∨
        (nodeAt b.delta x).status = .unchanged ∧ ¬ Differs old new x ∧ moved = false) ∧
      (depth < limit → content = n.contentDiffers o ∧ (kids = true ↔ ChildrenDiffer old new o n) ∧
        (fine = true ↔ Differs old new x)) ∧
      (limit ≤ depth → (content = true ↔ Differs old new x) ∧ kids = false ∧ fine = false) := by
  obtain ⟨content, kids, fine, s, hentry, hstatus, hrest⟩ := h.toldFlags hxo hxn
  have htold := (told_nodeAt hb hx).trans hentry
  obtain ⟨hs, hflags⟩ := Prod.mk.inj htold
  exact ⟨content, kids, fine, hflags, hs ▸ hstatus, hrest⟩

/-- Whatever the law has on record, there are no flags but the four: reports of a recording are made with these
only, and the table joins flags but does not make up others. -/
theorem Law.flags_diff (h : Law old new limit depth moved x b) (hb : Regular simple Unattached b.bare.delta)
    (hx : x.ParentDependent) :
    (nodeAt b.delta x).flags \ (Flags.content ∪ Flags.children ∪ Flags.reorder ∪ Flags.fineGrained) = ∅ := by
  rcases hxo : Table.get? old x with _ | o <;> rcases hxn : Table.get? new x with _ | n
  · rw [flags_nodeAt hb hx, h.agreeing (not_differs_of_none hxo hxn)]
    cases moved <;> decide
  · rw [flags_nodeAt hb hx, h.appeared hxo hxn]
    decide
  · rw [flags_nodeAt hb hx, h.vanished hxo hxn]
    decide
  · obtain ⟨content, kids, fine, hflags, -⟩ := h.nodeAt_eq hb hx hxo hxn
    rw [hflags]
    exact (toldFlags_spec moved content kids fine).2.2.2.2

/-- The node of an element that came or went has nothing but its status: what was reported about its children before
was dropped, and nothing is entered below it later. -/
theorem nodeAt_whole {s : Status} (hb : Regular simple Unattached b.bare.delta) (hx : x.ParentDependent)
    (hs : s ≠ .changed) (h : b.noted x.bare = some (s, ∅)) :
    (nodeAt b.delta x).status = s ∧ (nodeAt b.delta x).flags = ∅ ∧ (nodeAt b.delta x).children = [] := by
  have htold := told_nodeAt hb hx
  rw [h] at htold
  obtain ⟨hstatus, hflags⟩ := Prod.mk.inj htold
  refine ⟨hstatus, hflags, Classical.byContradiction fun hne => hs ?_⟩
  rw [← hstatus]
  exact (changed_of_children hb hx hne).1

/-- **Above the limit** the flags of a node tell content, children and whatever is below apart. The law has the
union of three independent flags on record, each of which can be read off it. -/
theorem Law.flags_fine (h : Law old new limit depth moved x b) (hb : Regular simple Unattached b.bare.delta)
    (hx : x.ParentDependent) (hxo : Table.get? old x = some o) (hxn : Table.get? new x = some n)
    (hlimit : depth < limit) :
    ((nodeAt b.delta x).flags.contains Flags.content = true ↔ (n.contentChange o).isEmpty = false) ∧
      ((nodeAt b.delta x).flags.contains Flags.children = true ↔ ChildrenDiffer old new o n) ∧
      ((nodeAt b.delta x).flags.contains Flags.fineGrained = true ↔ Differs old new x) := by
  obtain ⟨content, kids, fine, hflags, -, hfine, -⟩ := h.nodeAt_eq hb hx hxo hxn
  obtain ⟨rfl, hkids, hdiffers⟩ := hfine hlimit
  obtain ⟨-, hcontent, hchildren, hfineGrained, -⟩ := toldFlags_spec moved (n.contentDiffers o) kids fine
  rw [hflags, hcontent, hchildren, hfineGrained, Body.contentChange_isEmpty, Bool.not_eq_false']
  exact ⟨Iff.rfl, hkids, hdiffers⟩

/-- **At the limit** a node tells of its content only, and stands for all that is below: the flag is set for a
difference anywhere in the tree, and there are no children that would tell where. -/
theorem Law.node_coarse (h : Law old new limit depth moved x b) (hb : Regular simple Unattached b.bare.delta)
    (hx : x.ParentDependent) (hxo : Table.get? old x = some o) (hxn : Table.get? new x = some n)
    (hlimit : limit ≤ depth) :
    ((nodeAt b.delta x).flags.contains Flags.content = true ↔ Differs old new x) ∧
      (nodeAt b.delta x).flags.contains Flags.fineGrained = false ∧
      (nodeAt b.delta x).flags.contains Flags.children = false ∧ (nodeAt b.delta x).children = [] := by
  obtain ⟨content, kids, fine, hflags, -, -, hcoarse⟩ := h.nodeAt_eq hb hx hxo hxn
  obtain ⟨hdiffers, rfl, rfl⟩ := hcoarse hlimit
  obtain ⟨-, hcontent, hchildren, hfineGrained, -⟩ := toldFlags_spec moved content false false
  rw [hflags, hcontent, hchildren, hfineGrained]
  refine ⟨hdiffers, rfl, rfl, Classical.byContradiction fun hne => ?_⟩
  -- a node with children would say so
  have hflag := (changed_of_children hb hx hne).2
  rw [hflags, hchildren] at hflag
  cases hflag

/-- **No node, nothing to tell**: below the input, an element has no node exactly if the trees below it do not
differ and it kept its place. -/
theorem Law.find?_eq_none_iff (h : Law old new limit depth moved x b)
    (hb : Regular simple Unattached b.bare.delta) (hx : x.ParentDependent)
    (hne : x.bare ≠ b.bare.delta.element) :
    b.delta.find? x = none ↔ ¬ Differs old new x ∧ moved = false := by
  rw [Recorder.find?_eq_none_iff hb hx hne]
  constructor
  · intro hnone
    have hd : ¬ Differs old new x := fun hd => h.noted_ne_none hd hnone
    refine ⟨hd, ?_⟩
    rw [h.agreeing hd, shifted] at hnone
    cases moved
    · rfl
    · cases hnone
  · rintro ⟨hd, rfl⟩
    exact h.agreeing hd

section Children

variable {path : List Handle} (ho : Arranged old) (hn : Arranged new) (hx : x.ParentDependent)
  (hb : Regular simple Unattached b.bare.delta) (hpath : Leads b.bare.delta.element path x.bare)
  (hlaw : Law old new limit depth moved x b) (hxo : Table.get? old x = some o)
  (hxn : Table.get? new x = some n) (hlimit : depth < limit)
  (hkids : ∀ k ∈ commonChildren o n, isUnopened old new k = false →
    Law old new limit (depth + 1) (decide (k ∈ reordered o n)) k b)

include ho hn hx hb hpath hlaw hxo hxn hlimit hkids

/-- **The children in a node** are those that were lost or won, as far as they are told as a whole. The removed part
and the added part are the same argument about two statuses. -/
theorem children_told (hc : c.ParentDependent) :
    ((∃ k ∈ (nodeAt b.delta x).children, k.status = .removed ∧ c.same k.element = true) ↔
      Lost old new o n c) ∧
      ((∃ k ∈ (nodeAt b.delta x).children, k.status = .added ∧ c.same k.element = true) ↔
        Won old new o n c) := by
  have hnoted := fun hp => noted_child_iff ho hn hx hxo hxn hlimit hlaw hkids hc hp
  have hparent := parent_of_lost_or_won ho hn hx hxo hxn hc
  -- what is told of a child of another element is no matter of this node
  have htold : ∀ {s : Status} {P : Prop}, s ≠ .unchanged → (P → c.bare.parent? = some x.bare) →
      (c.bare.parent? = some x.bare → ((b.noted c.bare).map Prod.fst = some s ↔ P)) →
      ((∃ k ∈ (nodeAt b.delta x).children, k.status = s ∧ c.same k.element = true) ↔ P) := by
    intro s P hs hp hiff
    rw [exists_child_iff hb hpath hx hc hs]
    exact ⟨fun ⟨hchild, hstatus⟩ => (hiff hchild).mp hstatus, fun h => ⟨hp h, (hiff (hp h)).mpr h⟩⟩
  exact ⟨htold (by decide) (fun h => hparent (.inl h)) fun hp => (hnoted hp).1,
    htold (by decide) (fun h => hparent (.inr h)) fun hp => (hnoted hp).2⟩

/-- Where children differ, the node has at least one of them: one of the children is on record, and what is on
record has a node. -/
theorem children_ne_nil (h : ChildrenDiffer old new o n) : (nodeAt b.delta x).children ≠ [] := by
  obtain ⟨c, hcd, hcp, hnoted⟩ :=
    exists_noted_of_childrenDiffer ho hn hx hxo hxn hlimit hlaw hkids h
  obtain ⟨⟨s, f⟩, hsf⟩ := Option.ne_none_iff_exists'.mp hnoted
  have hs : s ≠ .unchanged := by
    rcases child_cases ho hn hx hxo hxn hlimit hlaw hkids hcd hcp with
      ⟨-, -, hentry⟩ | ⟨-, -, hentry⟩ | ⟨-, -, hmodest⟩
    · cases hsf.symm.trans hentry
      decide
    · cases hsf.symm.trans hentry
      decide
    · rw [show s = .changed from hmodest (s, f) hsf]
      decide
  obtain ⟨k, hk, -⟩ := (exists_child_iff hb hpath hx hcd hs).mpr ⟨hcp, by rw [hsf]; rfl⟩
  exact List.ne_nil_of_mem hk

end Children

/-- **The law makes nodes exact.** It says what is on record about an element and about its children, and a node
shows just what is on record. So each part of exactness comes from one part of the law. -/
theorem exact_of_law {path : List Handle} (ho : Arranged old) (hn : Arranged new) (hx : x.ParentDependent)
    (hb : Regular simple Unattached b.bare.delta) (hpath : Leads b.bare.delta.element path x.bare)
    (hdepth : path.length = depth) (hplace : moved = true → 0 < depth)
    (hlaw : Law old new limit depth moved x b)
    (hkids : ∀ {o n}, Table.get? old x = some o → Table.get? new x = some n → depth < limit →
      ∀ k ∈ commonChildren o n, isUnopened old new k = false →
        Law old new limit (depth + 1) (decide (k ∈ reordered o n)) k b) :
    Exact old new limit depth moved x b.delta where
  content hxo hxn hlt := (hlaw.flags_fine hb hx hxo hxn hlt).1
  fineGrained hxo hxn hlt := (hlaw.flags_fine hb hx hxo hxn hlt).2.2
  children hxo hxn hlt := by
    refine ⟨fun hflag => ?_, fun hne => (changed_of_children hb hx hne).2⟩
    have hdiffer := (hlaw.flags_fine hb hx hxo hxn hlt).2.1.mp hflag
    exact children_ne_nil ho hn hx hb hpath hlaw hxo hxn hlt (hkids hxo hxn hlt) hdiffer
  removed hxo hxn hlt hc :=
    (children_told ho hn hx hb hpath hlaw hxo hxn hlt (hkids hxo hxn hlt) hc).1
  added hxo hxn hlt hc :=
    (children_told ho hn hx hb hpath hlaw hxo hxn hlt (hkids hxo hxn hlt) hc).2
  coarse hxo hxn hlimit := hlaw.node_coarse hb hx hxo hxn (Nat.le_of_eq hlimit.symm)
  reorder hxo hxn := by
    obtain ⟨content, kids, fine, hflags, -⟩ := hlaw.nodeAt_eq hb hx hxo hxn
    rw [hflags, (toldFlags_spec moved content kids fine).1]
  place := hplace
  flags := hlaw.flags_diff hb hx
  unattached := unattached_nodeAt hb
  status hxo hxn := by
    obtain ⟨content, kids, fine, -, hstatus, -⟩ := hlaw.nodeAt_eq hb hx hxo hxn
    exact hstatus
  absent hpos := by
    refine hlaw.find?_eq_none_iff hb hx fun heq => ?_
    have hlength := hpath.depth_eq
    rw [heq] at hlength
    omega
  appeared hxo _ hxn := nodeAt_whole hb hx (by simp) (hlaw.appeared hxo hxn)
  vanished hxo hxn := nodeAt_whole hb hx (by simp) (hlaw.vanished hxo hxn)

/-- **What a recording says is exact**, for every element that is reached from the input. The law holds of each of
them and of their children, and nodes show what the law has on record. -/
theorem recording_exact (ho : Arranged old) (hn : Arranged new) (hx : input.ParentDependent) (limit : Nat) :
    ∃ r b, start {} old input none limit = .ok r ∧ r.finish new = (.ok b, {}) ∧
      ∀ {depth x moved}, Trail old new depth input false x moved → depth ≤ limit →
        Exact old new limit depth moved x b.delta := by
  obtain ⟨r, b, hstart, hfinish, hregular, hroot, hlaw⟩ := recording_law ho hn hx limit
  refine ⟨r, b, hstart, hfinish, fun {depth x moved} htrail hle => ?_⟩
  obtain ⟨hxd, hunder⟩ := htrail.under hn hx
  obtain ⟨path, hpath⟩ : ∃ path, Leads b.bare.delta.element path x.bare := by
    rw [hroot]
    rcases List.mem_cons.mp hunder with heq | hmem
    · exact ⟨[], heq ▸ .here _⟩
    · obtain ⟨path, -, hpath⟩ := exists_leads_of_mem_ancestors hmem
      exact ⟨path, hpath⟩
  have hdepth : path.length = depth := by
    have hlength := hpath.depth_eq
    rw [htrail.depth_eq hn hx, hroot] at hlength
    omega
  refine exact_of_law ho hn hxd hregular hpath hdepth (fun hmoved => ?_) (hlaw htrail hle)
    fun hxo hxn hlt k hk hopened => hlaw (htrail.snoc hxo hxn hk hopened) hlt
  cases htrail with
  | here => cases hmoved
  | down => exact Nat.succ_pos _

/-- A recording of two children that changed places: one of them is told, at the limit. -/
theorem recording_exact_swapped :
    let root := Handle.top { name := "Node" } (some "r")
    let a := root.sub { name := "Node" } "a"
    let b := root.sub { name := "Node" } "b"
    let old : Bodies := [(root, { children := [a, b] }), (a, {}), (b, {})]
    let new : Bodies :=
      [(root, { children := [b, a] }), (a, { children := [a.sub { name := "Node" } "x"] }), (b, {})]
    ∃ r built, start {} old root none 1 = .ok r ∧ r.finish new = (.ok built, {}) ∧
      Exact old new 1 0 false root built.delta ∧ Exact old new 1 1 true a built.delta := by
  intro root a b old new
  have ho : Arranged old := ⟨by decide, by decide, by decide⟩
  have hn : Arranged new := ⟨by decide, by decide, by decide⟩
  obtain ⟨r, built, hstart, hfinish, hexact⟩ := recording_exact ho hn (show root.ParentDependent by decide) 1
  have hmoved : decide (a ∈ reordered { children := [a, b] } { children := [b, a] }) = true := by
    decide +kernel
  have htrail : Trail old new 1 root false a true :=
    Trail.down (c := a) rfl rfl (by decide) (by decide) (hmoved ▸ Trail.here a _)
  exact ⟨r, built, hstart, hfinish, hexact (.here root false) (Nat.zero_le _), hexact htrail (Nat.le_refl _)⟩

end Recorder

end CodeModel
