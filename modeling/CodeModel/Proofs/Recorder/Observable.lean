import CodeModel.Proofs.Recorder.Recording
import CodeModel.Proofs.Text.Versions

/-!
# What a recording misses

What can be seen of an element are its children, its ranges, its text and its properties; a plain body counts
as one without any of the last three (`Body.view`).

* A recording is **empty** exactly if at every element that is reached there is a body on both sides or on
  neither, with the same children and the same view, except that the later body may be **plain** whatever the
  earlier one was (`Agrees`, `not_differs_iff`).
* So it misses that a source part was **lost**, and the way back is not empty then (`recording_misses`,
  `source_lost`). That is all that makes the way back differ, where both states read their kinds alike.

The way back walks over the handles that the earlier bodies list. They match those of the later ones, and
bodies are looked up by them alike (`Table.get?_of_bare_eq`), but whether a child can be opened is read off each of
them by itself.
-/

namespace CodeModel

/-! ## Views -/

/-- What can be seen of an element, children apart: what a client that looks at a body gets to know. -/
structure View where
  /-- The whole stretch of the element. -/
  fullRange : Option Range
  /-- The stretch of its name. -/
  nameRange : Option Range
  /-- The text the ranges speak of. -/
  text : Option Text
  /-- What the model recorded. -/
  properties : Properties
deriving DecidableEq

/-- What can be seen in a source part. -/
def Source.view (s : Source) : View := ⟨s.fullRange, s.nameRange, s.snapshot.map (·.text), s.properties⟩

namespace Body

/-- What can be seen in a body; a plain one counts as one with an empty source part. -/
def view (b : Body) : View := (b.source.getD {}).view

/-- The snapshots of the bodies agree exactly if they show the same text. So they do if both were taken in one
history of buffers. -/
def Comparable (o n : Body) : Prop :=
  ∀ s t, n.snapshot? = some s → o.snapshot? = some t → (s.agrees t = true ↔ s.text = t.text)

variable {o n : Body}

/-- **Nothing to tell** of the content: the later body is plain, or both have a source part and the same
view. -/
theorem contentDiffers_eq_false_iff (h : o.Comparable n) :
    n.contentDiffers o = false ↔ n.source = none ∨ o.source.isSome = true ∧ n.view = o.view := by
  rcases hn : n.source with _ | s
  · simp [contentDiffers, hn]
  · rcases ho : o.source with _ | t
    · simp [contentDiffers, hn, ho]
    · have htext : Source.snapshotsAgree s.snapshot t.snapshot = true ↔
          s.snapshot.map (·.text) = t.snapshot.map (·.text) := by
        rcases hs : s.snapshot with _ | sn <;> rcases ht : t.snapshot with _ | sn'
        · simp [Source.snapshotsAgree]
        · simp [Source.snapshotsAgree]
        · simp [Source.snapshotsAgree]
        · simpa [Source.snapshotsAgree] using
            h sn sn' (by simp [snapshot?, hn, hs]) (by simp [snapshot?, ho, ht])
      simp only [contentDiffers, hn, ho, Bool.not_eq_false', view, Option.getD_some, Source.view, View.mk.injEq,
        Source.agrees, Bool.and_eq_true, beq_iff_eq, htext, reduceCtorEq, Option.isSome_some, true_and,
        false_or]
      constructor
      · rintro ⟨⟨⟨hproperties, hfull⟩, hname⟩, htext⟩
        exact ⟨hfull, hname, htext, hproperties⟩
      · rintro ⟨hfull, hname, htext, hproperties⟩
        exact ⟨⟨⟨hproperties, hfull⟩, hname⟩, htext⟩

/-- **On the way back** content differs as it does on the way there, where both bodies have a source part: it is the
same ranges, texts and properties that are compared. -/
theorem contentDiffers_comm (ho : o.source.isSome = true) (hn : n.source.isSome = true) :
    o.contentDiffers n = n.contentDiffers o := by
  obtain ⟨t, ht⟩ := Option.isSome_iff_exists.mp ho
  obtain ⟨s, hs⟩ := Option.isSome_iff_exists.mp hn
  have hagree : ∀ a b : Option Snapshot, Source.snapshotsAgree a b = Source.snapshotsAgree b a := by
    intro a b
    rcases a with _ | a <;> rcases b with _ | b
    · rfl
    · rfl
    · rfl
    · simp only [Source.snapshotsAgree, Snapshot.agrees, Shelf.sameVersion_comm a b, Bool.beq_comm]
  rw [contentDiffers, contentDiffers, ht, hs]
  simp only [Source.agrees, hagree t.snapshot, Bool.beq_comm]

end Body

namespace Recorder

open Builder Delta Handle

variable {old new : Bodies} {input x y z c : Handle} {o n : Body} {limit k : Nat} {m m' : Bool}

/-! ## Handles that match -/

/-- Bodies are found by bare handles, so whether the trees differ below an element does not depend on which of two
handles that are the same when bare stands for it. -/
theorem differs_of_bare_eq (h : x.bare = y.bare) (hd : Differs old new x) : Differs old new y := by
  have hold := Table.get?_of_bare_eq h old
  have hnew := Table.get?_of_bare_eq h new
  cases hd with
  | appeared ho hn => exact .appeared (hold ▸ ho) (hnew ▸ hn)
  | vanished ho hn => exact .vanished (hold ▸ ho) (hnew ▸ hn)
  | content ho hn hc => exact .content (hold ▸ ho) (hnew ▸ hn) hc
  | children ho hn hc => exact .children (hold ▸ ho) (hnew ▸ hn) hc
  | deeper ho hn hc hopened hd => exact .deeper (hold ▸ ho) (hnew ▸ hn) hc hopened hd

/-- Whether a child was opened on both sides does not depend on which is the earlier one. -/
theorem isUnopened_comm (old new : Bodies) (c : Handle) : isUnopened new old c = isUnopened old new c := by
  rw [isUnopened, isUnopened, Bool.or_comm]

/-- A child that has not been opened is there on one side only, or on neither. -/
theorem get?_of_isUnopened (h : isUnopened old new c = true)
    (hsame : Table.contains old c = Table.contains new c) :
    Table.get? old c = none ∧ Table.get? new c = none := by
  rw [isUnopened, hsame, Bool.or_self, Bool.and_eq_true, Bool.not_eq_true'] at h
  have hnew := h.2
  have hold := hsame.trans hnew
  rw [Table.contains, Option.isSome_eq_false_iff, Option.isNone_iff_eq_none] at hold hnew
  exact ⟨hold, hnew⟩

/-! ## Agreement -/

/-- **No difference is seen** at the element. The one exception is in the last part: if the later body is plain, it
may be anything that the earlier one was not. -/
structure Agrees (old new : Bodies) (y : Handle) : Prop where
  /-- it is there on both sides, or on neither -/
  present : Table.contains old y = Table.contains new y
  /-- it has the same children -/
  children : ∀ {o n}, Table.get? old y = some o → Table.get? new y = some n →
    sameChildren o.children n.children = true
  /-- the later body is plain, or both have a source part and the same view -/
  content : ∀ {o n}, Table.get? old y = some o → Table.get? new y = some n →
    n.source = none ∨ o.source.isSome = true ∧ n.view = o.view

/-- Snapshots agree exactly if they show the same text, in the bodies of any element. -/
def Texts (old new : Bodies) : Prop :=
  ∀ y o n, Table.get? old y = some o → Table.get? new y = some n → o.Comparable n

/-- Where the trees do not differ, they do not differ further down: a difference below a child that is on both sides
is one of the trees above it. -/
theorem not_differs_of_trail (h : Trail old new k x m y m') (hd : ¬ Differs old new x) :
    ¬ Differs old new y := by
  induction h with
  | here x m => exact hd
  | down ho hn hc hopened _ ih => exact ih fun h => hd (.deeper ho hn (mem_commonChildren hc) hopened h)

/-- Where the trees do not differ, the element is on both sides or on neither. -/
theorem present_of_not_differs (hd : ¬ Differs old new y) : Table.contains old y = Table.contains new y := by
  rw [Table.contains, Table.contains]
  rcases ho : Table.get? old y with _ | o <;> rcases hn : Table.get? new y with _ | n
  · rfl
  · exact absurd (.appeared ho hn) hd
  · exact absurd (.vanished ho hn) hd
  · rfl

/-- Where the trees do not differ, the states agree at the element: it has a body on both sides or on neither, and
what can be seen of the two bodies is the same. -/
theorem agrees_of_not_differs (ht : Texts old new) (hd : ¬ Differs old new y) : Agrees old new y := by
  refine ⟨present_of_not_differs hd, fun {o n} ho hn => ?_, fun {o n} ho hn => ?_⟩
  · exact (Bool.not_eq_false _).mp fun h => hd (.children ho hn h)
  · refine (Body.contentDiffers_eq_false_iff (ht y o n ho hn)).mp ((Bool.not_eq_true _).mp fun h => ?_)
    exact hd ((differs_iff ho hn).mpr (.inl h))

/-- **The trees do not differ** exactly if no difference is seen at any element that is reached. A difference is
found at the end of a way down through common children, which is a trail. -/
theorem not_differs_iff (ho : Arranged old) (hn : Arranged new) (ht : Texts old new) (hx : x.ParentDependent) :
    ¬ Differs old new x ↔ ∀ {k y m'}, Trail old new k x m y m' → Agrees old new y := by
  constructor
  · intro hd k y m' htrail
    exact agrees_of_not_differs ht (not_differs_of_trail htrail hd)
  · intro hall hd
    induction hd generalizing m with
    | appeared hxo hxn =>
      have hpresent := (hall (.here _ m)).present
      simp [Table.contains, hxo, hxn] at hpresent
    | vanished hxo hxn =>
      have hpresent := (hall (.here _ m)).present
      simp [Table.contains, hxo, hxn] at hpresent
    | @content x o n hxo hxn h =>
      rw [Body.contentChange_isEmpty, Bool.not_eq_false',
        ((Body.contentDiffers_eq_false_iff (ht x o n hxo hxn)).mpr ((hall (.here x m)).content hxo hxn))] at h
      cases h
    | @children x o n hxo hxn h =>
      rw [(hall (.here x m)).children hxo hxn] at h
      cases h
    | @deeper x c o n hxo hxn hc hopened _ ih =>
      -- the lists are the same, so the child is common
      obtain ⟨hcd, -⟩ := hn.child hx hxn hc
      have hsame := (sameChildren_iff (fun k hk => (ho.child hx hxo hk).1)
        fun k hk => (hn.child hx hxn hk).1).mp ((hall (.here x m)).children hxo hxn)
      have hcommon : c ∈ commonChildren o n := (mem_commonChildren_iff ho hn hx hxo hxn).mpr
        ⟨hc, hsame ▸ List.mem_map_of_mem hc⟩
      exact ih hcd fun htrail => hall (.down hxo hxn hcommon hopened htrail)

/-! ## The way back -/

/-- **What is missed** of an element on which the states agree: its source part was lost, or a child came or
went that the earlier body lists as one that is not opened. -/
inductive Missed (old new : Bodies) (o n : Body) : Prop where
  /-- the source part was lost -/
  | source (ho : o.source.isSome = true) (hn : n.source = none)
  /-- a child came or went -/
  | child {c : Handle} (hc : c ∈ o.children) (hopened : isUnopened old new c = false)
      (h : Table.contains old c ≠ Table.contains new c)

section Back

variable (ho : Arranged old) (hn : Arranged new)

include ho hn

/-- Where the trees do not differ, the lists of children are the same. -/
theorem children_of_not_differs (hx : x.ParentDependent) (hd : ¬ Differs old new x)
    (hxo : Table.get? old x = some o) (hxn : Table.get? new x = some n) :
    n.children.map Handle.bare = o.children.map Handle.bare := by
  refine (sameChildren_iff (fun k hk => (ho.child hx hxo hk).1) fun k hk => (hn.child hx hxn hk).1).mp ?_
  exact (Bool.not_eq_false _).mp fun h => hd (.children hxo hxn h)

/-- A difference on the way back was missed on the way there, at an element that is reached: the way to it is
followed from the other side, as long as nothing was missed. -/
theorem exists_missed (hback : Differs new old x) (hz : z.ParentDependent) (hzx : z.bare = x.bare)
    (hd : ¬ Differs old new z) :
    ∃ k y m' o n, Trail old new k z m y m' ∧ Table.get? old y = some o ∧ Table.get? new y = some n ∧
      Missed old new o n := by
  induction hback generalizing z m with
  | @appeared x o hxn hxo =>
    exact absurd (.vanished (Table.get?_of_bare_eq hzx old ▸ hxo) (Table.get?_of_bare_eq hzx new ▸ hxn)) hd
  | @vanished x n hxn hxo =>
    exact absurd (.appeared (Table.get?_of_bare_eq hzx old ▸ hxo) (Table.get?_of_bare_eq hzx new ▸ hxn)) hd
  | @content x n o hxn hxo h =>
    have hzo : Table.get? old z = some o := Table.get?_of_bare_eq hzx old ▸ hxo
    have hzn : Table.get? new z = some n := Table.get?_of_bare_eq hzx new ▸ hxn
    rw [Body.contentChange_isEmpty, Bool.not_eq_false'] at h
    have hthere : n.contentDiffers o = false := (Bool.not_eq_true _).mp fun h =>
      hd ((differs_iff hzo hzn).mpr (.inl h))
    have hsource : o.source.isSome = true := by
      rcases hs : o.source with _ | t
      · rw [Body.contentDiffers, hs] at h
        cases h
      · rfl
    rcases hs : n.source with _ | s
    · exact ⟨0, z, m, o, n, .here z m, hzo, hzn, .source hsource hs⟩
    · rw [Body.contentDiffers_comm hsource (by rw [hs]; rfl), hthere] at h
      cases h
  | @children x n o hxn hxo h =>
    have hzo : Table.get? old z = some o := Table.get?_of_bare_eq hzx old ▸ hxo
    have hzn : Table.get? new z = some n := Table.get?_of_bare_eq hzx new ▸ hxn
    rw [(sameChildren_iff (fun k hk => (hn.child hz hzn hk).1) fun k hk => (ho.child hz hzo hk).1).mpr
      (children_of_not_differs ho hn hz hd hzo hzn).symm] at h
    cases h
  | @deeper x c n o hxn hxo hc hopened hback ih =>
    have hzo : Table.get? old z = some o := Table.get?_of_bare_eq hzx old ▸ hxo
    have hzn : Table.get? new z = some n := Table.get?_of_bare_eq hzx new ▸ hxn
    -- the child as the later body lists it
    obtain ⟨c', hc', hbare⟩ : ∃ c' ∈ n.children, c'.bare = c.bare := by
      have hmem := List.mem_map_of_mem (f := Handle.bare) hc
      rw [← children_of_not_differs ho hn hz hd hzo hzn] at hmem
      exact List.mem_map.mp hmem
    rcases hopened' : isUnopened old new c' with _ | _
    · have hcommon : c' ∈ commonChildren o n := (mem_commonChildren_iff ho hn hz hzo hzn).mpr
        ⟨hc', hbare ▸ List.mem_map_of_mem hc⟩
      obtain ⟨k, y, m', o', n', htrail, hrest⟩ := ih (m := decide (c' ∈ reordered o n)) (hn.child hz hzn hc').1
        hbare fun h => hd (.deeper hzo hzn hc' hopened' h)
      exact ⟨k + 1, y, m', o', n', .down hzo hzn hcommon hopened' htrail, hrest⟩
    · -- on the way there the child was taken for one that has not been opened, so a body is missing
      refine ⟨0, z, m, o, n, .here z m, hzo, hzn, .child hc (isUnopened_comm old new c ▸ hopened) fun heq => ?_⟩
      obtain ⟨hco, hcn⟩ := get?_of_isUnopened hopened'
        (by rw [Table.contains_of_bare_eq hbare, Table.contains_of_bare_eq hbare, heq])
      exact not_differs_of_none hcn hco (differs_of_bare_eq hbare.symm hback)

/-- What was missed at an element that is reached is a difference on the way back. -/
theorem differs_back_of_missed (htrail : Trail old new k x m y m') (hx : x.ParentDependent)
    (hd : ¬ Differs old new x) (hyo : Table.get? old y = some o) (hyn : Table.get? new y = some n)
    (h : Missed old new o n) : Differs new old x := by
  induction htrail with
  | here x m =>
    cases h with
    | source hsource hplain =>
      refine (differs_iff hyn hyo).mpr (.inl ?_)
      obtain ⟨t, ht⟩ := Option.isSome_iff_exists.mp hsource
      rw [Body.contentDiffers, ht, hplain]
    | @child c hc hopened hne =>
      refine .deeper hyn hyo hc (isUnopened_comm old new c ▸ hopened) ?_
      exact Classical.byContradiction fun hsame => hne (present_of_not_differs hsame).symm
  | @down k x c y m m' o₁ n₁ hxo hxn hc hopened _ ih =>
    have hdc : ¬ Differs old new c := fun h => hd (.deeper hxo hxn (mem_commonChildren hc) hopened h)
    have hback : Differs new old c := ih (hn.child hx hxn (mem_commonChildren hc)).1 hdc hyo hyn
    -- the child as the earlier body lists it
    obtain ⟨c', hc', hbare⟩ := List.mem_map.mp ((mem_commonChildren_iff ho hn hx hxo hxn).mp hc).2
    refine .deeper hxn hxo hc' ((Bool.not_eq_true _).mp fun hunopened => ?_) (differs_of_bare_eq hbare.symm hback)
    obtain ⟨hco, hcn⟩ := get?_of_isUnopened (isUnopened_comm old new c' ▸ hunopened)
      (by rw [Table.contains_of_bare_eq hbare, Table.contains_of_bare_eq hbare, present_of_not_differs hdc])
    exact not_differs_of_none hcn hco (differs_of_bare_eq hbare.symm hback)

/-- Where names of kinds have one meaning, nothing is missed but that the source part was lost. -/
theorem lost_of_missed {lex : Lexicon} (hy : y.ParentDependent) (hd : ¬ Differs old new y)
    (hyo : Table.get? old y = some o) (hyn : Table.get? new y = some n)
    (hlex : ∀ c ∈ o.children ++ n.children, c.Follows lex) (h : Missed old new o n) :
    o.source.isSome = true ∧ n.source = none := by
  cases h with
  | source hsource hplain => exact ⟨hsource, hplain⟩
  | @child c hc hopened hne =>
    -- both bodies list the child as one and the same handle, so it was looked at
    have hmem := List.mem_map_of_mem (f := Handle.bare) hc
    rw [← children_of_not_differs ho hn hy hd hyo hyn] at hmem
    obtain ⟨c', hc', hbare⟩ := List.mem_map.mp hmem
    obtain rfl : c' = c := by
      refine eq_of_sameChain (hlex c' (List.mem_append_right _ hc')) (hlex c (List.mem_append_left _ hc)) ?_
      rw [← sameChain_bare, hbare, sameChain_refl]
    exact absurd (present_of_not_differs fun h => hd (.deeper hyo hyn hc' hopened h)) hne

end Back

/-! ## Recordings there and back -/

/-- Snapshots that were taken in one history of buffers agree exactly if they show the same text, for a version
names one text. -/
theorem texts_of_taken {tasks : List Shelf.Task}
    (h : ∀ p ∈ old ++ new, ∀ s, p.2.snapshot? = some s → s ∈ (Shelf.run tasks {}).taken) : Texts old new := by
  intro y o n hyo hyn s t hs ht
  obtain ⟨k, hk, -⟩ := Table.exists_of_get? hyo
  obtain ⟨l, hl, -⟩ := Table.exists_of_get? hyn
  have hempty : ({} : Shelf).Truthful := ⟨by simp, by simp, by simp⟩
  exact (hempty.run tasks).agrees_iff (h (l, n) (List.mem_append_right _ hl) s hs)
    (h (k, o) (List.mem_append_left _ hk) t ht)

/-- The recording gets to the element and finds these bodies. -/
structure Met (old new : Bodies) (input y : Handle) (o n : Body) : Prop where
  /-- it gets there -/
  reached : ∃ k m, Trail old new k input false y m
  /-- the earlier body -/
  old : Table.get? old y = some o
  /-- the later body -/
  new : Table.get? new y = some n

/-- **What a recording misses**, at every depth limit. It is empty exactly if no difference is seen at any element
that is reached, and then the recording of the way back is empty as well exactly if nothing was missed at any of
them. Where names of kinds have one meaning, that is: if no source part was lost. The two recordings may have
different limits, since the limit does not decide about being empty. -/
theorem recording_misses {tasks : List Shelf.Task} (ho : Arranged old) (hn : Arranged new)
    (hx : input.ParentDependent)
    (htaken : ∀ p ∈ old ++ new, ∀ s, p.2.snapshot? = some s → s ∈ (Shelf.run tasks {}).taken)
    (limit limit' : Nat) :
    ∃ r b r' b', start {} old input none limit = .ok r ∧ r.finish new = (.ok b, {}) ∧
      start {} new input none limit' = .ok r' ∧ r'.finish old = (.ok b', {}) ∧
      (b.delta.isEmpty = true ↔ ∀ k y m, Trail old new k input false y m → Agrees old new y) ∧
      (b.delta.isEmpty = true →
        (b'.delta.isEmpty = true ↔ ∀ y o n, Met old new input y o n → ¬ Missed old new o n)) ∧
      ∀ lex : Lexicon, (∀ p ∈ old ++ new, ∀ c ∈ p.2.children, c.Follows lex) → b.delta.isEmpty = true →
        (b'.delta.isEmpty = true ↔
          ∀ y o n, Met old new input y o n → ¬ (o.source.isSome = true ∧ n.source = none)) := by
  obtain ⟨r, b, hstart, hfinish, hregular, hroot, hlaw⟩ := recording_law ho hn hx limit
  obtain ⟨r', b', hstart', hfinish', hregular', hroot', hlaw'⟩ := recording_law hn ho hx limit'
  have hthere := (hlaw (.here input false) (Nat.zero_le _)).isEmpty_iff hregular hroot
  have hback := (hlaw' (.here input false) (Nat.zero_le _)).isEmpty_iff hregular' hroot'
  have hmissed : b.delta.isEmpty = true →
      (b'.delta.isEmpty = true ↔ ∀ y o n, Met old new input y o n → ¬ Missed old new o n) := by
    intro hempty
    have hd := hthere.mp hempty
    rw [hback]
    constructor
    · rintro hnot y o n ⟨⟨k, m, htrail⟩, hyo, hyn⟩ h
      exact hnot (differs_back_of_missed ho hn htrail hx hd hyo hyn h)
    · intro hnone h
      obtain ⟨k, y, m, o, n, htrail, hyo, hyn, h⟩ := exists_missed (m := false) ho hn h hx rfl hd
      exact hnone y o n ⟨⟨k, m, htrail⟩, hyo, hyn⟩ h
  refine ⟨r, b, r', b', hstart, hfinish, hstart', hfinish', ?_, hmissed, fun lex hlex hempty => ?_⟩
  · rw [hthere, not_differs_iff (m := false) ho hn (texts_of_taken htaken) hx]
  · rw [hmissed hempty]
    have hfollows : ∀ {t : Bodies} {y b}, (∀ p ∈ t, p ∈ old ++ new) → Table.get? t y = some b →
        ∀ c ∈ b.children, c.Follows lex := fun hsub hb =>
      let ⟨k, hk, _⟩ := Table.exists_of_get? hb
      hlex (k, _) (hsub _ hk)
    refine forall_congr' fun y => forall_congr' fun o => forall_congr' fun n => forall_congr' fun hmet => ?_
    obtain ⟨⟨k, m, htrail⟩, hyo, hyn⟩ := hmet
    have hyd := not_differs_of_trail htrail (hthere.mp hempty)
    have hkids : ∀ c ∈ o.children ++ n.children, c.Follows lex := by
      intro c hc
      rcases List.mem_append.mp hc with hc | hc
      · exact hfollows (fun p hp => List.mem_append_left _ hp) hyo c hc
      · exact hfollows (fun p hp => List.mem_append_right _ hp) hyn c hc
    exact not_congr ⟨lost_of_missed ho hn (htrail.under hn hx).1 hyd hyo hyn hkids, fun h => .source h.1 h.2⟩

/-- A source part that was built again from another snapshot of the same text agrees with the earlier one; the
child has lost its own, which is only told on the way back. -/
theorem recording_misses_rebuilt :
    let root := Handle.top { name := "File", openable := true } (some "f")
    let leaf := root.sub { name := "Node" } "a"
    let source : Snapshot → Option Source := fun s => some { fullRange := some ⟨0, 1⟩, snapshot := some s }
    let old : Bodies := [(root, { children := [leaf], source := source ⟨some 0, 0, ['x']⟩ }),
      (leaf, { source := source ⟨some 0, 0, ['x']⟩ })]
    let new : Bodies := [(root, { children := [leaf], source := source (.detached ['x']) }), (leaf, {})]
    ∃ r b r' b', start {} old root none 3 = .ok r ∧ r.finish new = (.ok b, {}) ∧
      start {} new root none 0 = .ok r' ∧ r'.finish old = (.ok b', {}) ∧
      b.delta.isEmpty = true ∧ Agrees old new leaf ∧ b'.delta.isEmpty = false := by
  intro root leaf source old new
  let lex : Lexicon := fun name => { name, openable := name == "File" }
  let tasks : List Shelf.Task := [.create ['x'], .snapshot 0, .detached ['x']]
  have ho : Arranged old := ⟨by decide, by decide, by decide⟩
  have hn : Arranged new := ⟨by decide, by decide, by decide⟩
  have htaken : ∀ p ∈ old ++ new, ∀ s, p.2.snapshot? = some s → s ∈ (Shelf.run tasks {}).taken := by
    have hall : ∀ p ∈ old ++ new, p.2.snapshot?.all (· ∈ (Shelf.run tasks {}).taken) = true := by decide
    intro p hp s hs
    simpa [hs] using hall p hp
  obtain ⟨r, b, r', b', hstart, hfinish, hstart', hfinish', hthere, -, hback⟩ :=
    recording_misses ho hn (show root.ParentDependent by decide) htaken 3 0
  have hempty : b.delta.isEmpty = true := by
    have hrun : ((start {} old root none 3).toOption.bind fun r => (r.finish new).1.toOption).all
        (·.delta.isEmpty) = true := by decide +kernel
    simpa [hstart, hfinish, Except.toOption] using hrun
  have htrail : Trail old new 1 root false leaf false := by
    have hplace : decide (leaf ∈ reordered { children := [leaf] } { children := [leaf] }) = false := by
      decide +kernel
    exact .down (c := leaf) rfl rfl (by decide) (by decide) (hplace ▸ .here leaf _)
  have hlost := hback lex (by decide) hempty
  refine ⟨r, b, r', b', hstart, hfinish, hstart', hfinish', hempty, hthere.mp hempty 1 leaf false htrail, ?_⟩
  rw [← Bool.not_eq_true, hlost]
  exact fun h => h leaf _ _ ⟨⟨1, false, htrail⟩, rfl, rfl⟩ ⟨rfl, rfl⟩

/-- **A source part is lost** without a word: the recording is empty, though the range of the element is gone,
and the way back tells of it. -/
theorem source_lost :
    let root := Handle.top { name := "File" } (some "f")
    let old : Bodies := [(root, { source := some { fullRange := some ⟨0, 1⟩ } })]
    let new : Bodies := [(root, {})]
    let recorded := fun before after => (start {} before root none 1).toOption.bind fun r =>
      (r.finish after).1.toOption
    (recorded old new).map (·.delta.isEmpty) = some true ∧
      (Table.get? old root).map Body.view ≠ (Table.get? new root).map Body.view ∧
      (recorded new old).map (·.delta.isEmpty) = some false := by
  decide +kernel

end Recorder

end CodeModel
