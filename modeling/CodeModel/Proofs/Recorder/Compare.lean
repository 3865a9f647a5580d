import CodeModel.Proofs.Delta.StepLaw
import CodeModel.Proofs.Element.Bare
import CodeModel.Proofs.Element.Distinct
import CodeModel.Recorder

/-!
# What comparing comes to

Three facts about the comparison of two states below an element.

* It **never fails** if children stand where they belong (`compare_ok`): all it reports is about elements
  below the one it started from.
* It **reports nothing** if the states agree in content and children (`compare_agreeing`), and something
  about the element it started from if it found a difference (`telling_of_compare`).
* It **depends on nothing** but what stands below the element (`compare_congr`): neither on the rest of the
  states nor on their sizes.
-/

namespace CodeModel.Recorder

open Delta Handle

variable {lex : Lexicon} {dom : Handle → Prop} {old new old' new' : Bodies} {x : Handle} {o n : Body}
  {b b' : Builder} {limit depth fuel fuel' : Nat} {path : List Handle} {differs : Bool}

/-! ## Loops -/

/-- A loop succeeds and keeps an invariant if each of its steps does. -/
theorem foldlM_ok {α β : Type} (inv : β → Prop) {f : β → α → Except Error β} {l : List α}
    (hf : ∀ a ∈ l, ∀ b, inv b → ∃ b', f b a = .ok b' ∧ inv b') {b : β} (hb : inv b) :
    ∃ b', l.foldlM f b = .ok b' ∧ inv b' := by
  induction l generalizing b with
  | nil => exact ⟨b, rfl, hb⟩
  | cons a l ih =>
    obtain ⟨b', hb', hinv⟩ := hf a (List.mem_cons_self ..) b hb
    obtain ⟨b'', hb'', hinv'⟩ := ih (fun c hc => hf c (List.mem_cons_of_mem _ hc)) hinv
    refine ⟨b'', ?_, hinv'⟩
    rw [List.foldlM_cons, hb']
    exact hb''

/-- Loops whose steps do the same for the elements of the list do the same. -/
theorem foldlM_congr {α β : Type} {f g : β → α → Except Error β} {l : List α}
    (hfg : ∀ a ∈ l, ∀ b, f b a = g b a) (b : β) : l.foldlM f b = l.foldlM g b := by
  induction l generalizing b with
  | nil => rfl
  | cons a l ih =>
    rw [List.foldlM_cons, List.foldlM_cons, hfg a (List.mem_cons_self ..)]
    exact congrArg _ (funext fun b' => ih (fun c hc => hfg c (List.mem_cons_of_mem _ hc)) b')

/-- Compares a child that is there on both sides, in the course of comparing its siblings. The flag tells whether
any of them differed so far; children that were not opened are passed over. -/
def compareChild (old new : Bodies) (limit fuel depth : Nat) (q : Builder × Bool) (child : Handle) :
    Except Error (Builder × Bool) :=
  if isUnopened old new child then .ok q
  else (compare old new limit fuel depth child q.1).map fun r => (r.1, q.2 || r.2)

/-- What is left to do for an element after its children: one last report that marks it, if anything was reported on
its level or further down. -/
def conclude (x : Handle) (own : List Report) (q : Builder × Bool) : Except Error (Builder × Bool) :=
  if !own.isEmpty || q.2 then (q.1.report (.changed x Flags.fineGrained)).map (·, true)
  else .ok (q.1, false)

/-- **Above the limit**, the comparison of two bodies is about one level and then about the children, and ends with
a report about the element itself. Proofs about comparisons follow these three parts. -/
theorem compare_level (ho : Table.get? old x = some o) (hn : Table.get? new x = some n)
    (hlimit : ¬ limit ≤ depth) :
    compare old new limit (fuel + 1) depth x b =
      ((levelReports x o n).foldlM Builder.report b >>= fun b₁ =>
        (commonChildren o n).foldlM (compareChild old new limit fuel (depth + 1)) (b₁, false) >>=
          conclude x (levelReports x o n)) := by
  have hchild : compareChild old new limit fuel (depth + 1) = fun q child => do
      if isUnopened old new child then return (q.1, q.2)
      else
        let r ← compare old new limit fuel (depth + 1) child q.1
        return (r.1, q.2 || r.2) := by
    funext q child
    rw [compareChild]
    split
    · rfl
    · rcases compare old new limit fuel (depth + 1) child q.1 with _ | r <;> rfl
  have hconclude : conclude x (levelReports x o n) = fun q => do
      if !(levelReports x o n).isEmpty || q.2 then
        return (← q.1.report (.changed x Flags.fineGrained), true)
      else return (q.1, false) := by
    funext q
    rw [conclude]
    split
    · rcases q.1.report (.changed x Flags.fineGrained) with _ | b <;> rfl
    · rfl
  rw [compare, ho, hn, hchild, hconclude]
  simp only [if_neg hlimit]

/-- **At the limit**, any difference is one of content: one report about the element, if the trees differ anywhere
below it. -/
theorem compare_limit (ho : Table.get? old x = some o) (hn : Table.get? new x = some n)
    (hlimit : limit ≤ depth) :
    compare old new limit (fuel + 1) depth x b =
      if treeDiffers old new (old.length + 1) o n then
        (b.report (.changed x Flags.content)).map (·, true)
      else .ok (b, false) := by
  rw [compare, ho, hn]
  simp only [if_pos hlimit]
  split
  · rcases b.report (.changed x Flags.content) with _ | b <;> rfl
  · rfl

/-! ## No failures -/

/-- Elements below which a state has children only where they belong: a set of elements that a walk down the tree
does not leave. It is what makes every report land below the root of the builder. -/
structure Region (lex : Lexicon) (dom : Handle → Prop) (t : Bodies) : Prop where
  /-- the elements follow the lexicon -/
  follows : ∀ {x}, dom x → x.Follows lex
  /-- children stand one step below -/
  child : ∀ {x b c}, dom x → Table.get? t x = some b → c ∈ b.children → dom c ∧ c.parent? = some x

/-- What a comparison makes of a builder. That nothing is reported without a difference is part of it: it keeps the
answer of a loop true of the builder it ends with. -/
structure Outcome (lex : Lexicon) (b b' : Builder) (differs : Bool) : Prop where
  /-- the builder stays sound -/
  sound : Sound lex b'.delta
  /-- its root stays -/
  root : b'.delta.element = b.delta.element
  /-- without a difference nothing is reported -/
  same : differs = false → b' = b

/-- A comparison that leaves the builder as it is comes to an outcome. -/
theorem Outcome.refl (hb : Sound lex b.delta) : Outcome lex b b differs := ⟨hb, rfl, fun _ => rfl⟩

/-- A report about an element below the root is taken in. The builder refuses nothing but reports from outside its
root. -/
theorem report_ok {r : Report} {call : Status × Flags} (hb : Sound lex b.delta)
    (hr : r.element.Follows lex) (hcall : r.call? = some call)
    (h : Leads b.delta.element path r.element) :
    ∃ b', b.report r = .ok b' ∧ Outcome lex b b' true := by
  have hreport := Builder.report_of_leads hb hr (Builder.report_of_call hcall).1 h
  obtain ⟨hsound, hroot⟩ := Builder.sound_report hb hr hreport
  exact ⟨_, hreport, hsound, hroot, fun hfalse => by cases hfalse⟩

/-- Common children are children of the later body, by which they are also named. The earlier body may know them by
a handle with other switches. -/
theorem mem_commonChildren {c : Handle} (h : c ∈ commonChildren o n) : c ∈ n.children :=
  (List.mem_filter.mp h).1

theorem mem_reordered {c : Handle} (h : c ∈ reordered o n) : c ∈ n.children := by
  obtain ⟨⟨c, i⟩, hc, rfl⟩ := List.mem_map.mp h
  obtain ⟨hc, -⟩ := List.mem_filter.mp hc
  exact mem_commonChildren (List.fst_mem_of_mem_zipIdx hc)

/-- The reports of one level are calls about the element or its children, never about anything further down. -/
theorem of_mem_levelReports {r : Report} (h : r ∈ levelReports x o n) :
    (∃ call, r.call? = some call) ∧
      (r.element = x ∨ r.element ∈ o.children ∨ r.element ∈ n.children) := by
  rw [levelReports] at h
  simp only [List.mem_append] at h
  rcases h with ((h | h) | h) | h
  · split at h
    · rw [List.mem_singleton.mp h]
      exact ⟨⟨_, rfl⟩, .inl rfl⟩
    · cases h
  · obtain ⟨c, hc, rfl⟩ := List.mem_map.mp h
    exact ⟨⟨_, rfl⟩, .inr (.inl (List.mem_filter.mp hc).1)⟩
  · obtain ⟨c, hc, rfl⟩ := List.mem_map.mp h
    exact ⟨⟨_, rfl⟩, .inr (.inr (List.mem_filter.mp hc).1)⟩
  · obtain ⟨c, hc, rfl⟩ := List.mem_map.mp h
    exact ⟨⟨_, rfl⟩, .inr (.inr (mem_reordered hc))⟩

/-- The reports of one level are all taken in, for elements and children stand below the root. -/
theorem levelReports_ok (ho : Region lex dom old) (hn : Region lex dom new) (hx : dom x)
    (hxo : Table.get? old x = some o) (hxn : Table.get? new x = some n) (hb : Sound lex b.delta)
    (hpath : Leads b.delta.element path x) :
    ∃ b', (levelReports x o n).foldlM Builder.report b = .ok b' ∧ Sound lex b'.delta ∧
      b'.delta.element = b.delta.element := by
  refine foldlM_ok (fun b' : Builder => Sound lex b'.delta ∧ b'.delta.element = b.delta.element)
    (fun r hr b₁ hb₁ => ?_) ⟨hb, rfl⟩
  obtain ⟨⟨call, hcall⟩, hel⟩ := of_mem_levelReports hr
  obtain ⟨path', hpath', hf⟩ : ∃ path', Leads b.delta.element path' r.element ∧
      r.element.Follows lex := by
    rcases hel with hel | hel | hel
    · exact ⟨path, hel ▸ hpath, hel ▸ ho.follows hx⟩
    · obtain ⟨hd, hpar⟩ := ho.child hx hxo hel
      exact ⟨_, hpath.concat hpar, ho.follows hd⟩
    · obtain ⟨hd, hpar⟩ := hn.child hx hxn hel
      exact ⟨_, hpath.concat hpar, hn.follows hd⟩
  obtain ⟨b₂, hb₂, hout⟩ := report_ok hb₁.1 hf hcall (hb₁.2.symm ▸ hpath')
  exact ⟨b₂, hb₂, hout.sound, hout.root.trans hb₁.2⟩

/-- Comparing children one after the other comes to what comparing one of them comes to: the builder stays sound,
and it is as before if none of them differed. -/
theorem compareChildren_ok (limit fuel depth : Nat) {l : List Handle} (hb : Sound lex b.delta)
    (hl : ∀ c ∈ l, ∀ b₁ : Builder, Sound lex b₁.delta → b₁.delta.element = b.delta.element →
      ∃ b' differs, compare old new limit fuel depth c b₁ = .ok (b', differs) ∧
        Outcome lex b₁ b' differs) :
    ∃ q, l.foldlM (compareChild old new limit fuel depth) (b, false) = .ok q ∧
      Outcome lex b q.1 q.2 := by
  refine foldlM_ok (fun q : Builder × Bool => Outcome lex b q.1 q.2) (fun c hc q hq => ?_)
    (Outcome.refl hb)
  rw [compareChild]
  split
  · exact ⟨q, rfl, hq⟩
  · obtain ⟨b', d, hb', hout⟩ := hl c hc q.1 hq.sound hq.root
    refine ⟨(b', q.2 || d), by rw [hb']; rfl, hout.sound, hout.root.trans hq.root, fun hsame => ?_⟩
    obtain ⟨hq2, hd2⟩ := Bool.or_eq_false_iff.mp hsame
    exact (hout.same hd2).trans (hq.same hq2)

/-- **Comparing never fails** below the root of the builder. By induction on the fuel: all reports are about the
element or its children, which are below the root by the region, and the comparisons of the children succeed by
induction. -/
theorem compare_ok (ho : Region lex dom old) (hn : Region lex dom new) (hx : dom x)
    (hb : Sound lex b.delta) (hpath : Leads b.delta.element path x) :
    ∃ b' differs, compare old new limit fuel depth x b = .ok (b', differs) ∧
      Outcome lex b b' differs := by
  induction fuel generalizing x depth b path with
  | zero => exact ⟨b, false, rfl, .refl hb⟩
  | succ fuel ih =>
    have hxf := ho.follows hx
    rcases hxo : Table.get? old x with _ | o <;> rcases hxn : Table.get? new x with _ | n
    · exact ⟨b, false, by rw [compare, hxo, hxn], .refl hb⟩
    · obtain ⟨b', hb', hout⟩ := report_ok (r := .added x) hb hxf rfl hpath
      exact ⟨b', true, by rw [compare, hxo, hxn]; simp only [hb']; rfl, hout⟩
    · obtain ⟨b', hb', hout⟩ := report_ok (r := .removed x) hb hxf rfl hpath
      exact ⟨b', true, by rw [compare, hxo, hxn]; simp only [hb']; rfl, hout⟩
    · by_cases hlimit : limit ≤ depth
      · rw [compare_limit hxo hxn hlimit]
        split
        · obtain ⟨b', hb', hout⟩ := report_ok (r := .changed x Flags.content) hb hxf rfl hpath
          exact ⟨b', true, by rw [hb']; rfl, hout⟩
        · exact ⟨b, false, rfl, .refl hb⟩
      · rw [compare_level hxo hxn hlimit]
        obtain ⟨b₁, hb₁, hsound₁, hroot₁⟩ := levelReports_ok ho hn hx hxo hxn hb hpath
        obtain ⟨⟨b₂, below⟩, hb₂, hout₂⟩ := compareChildren_ok limit fuel (depth + 1)
          (l := commonChildren o n) hsound₁ fun c hc b' hb' hroot' => by
            obtain ⟨hd, hpar⟩ := hn.child hx hxn (mem_commonChildren hc)
            exact ih hd hb' ((hroot'.trans hroot₁).symm ▸ hpath.concat hpar)
        rw [hb₁]
        simp only [bind, Except.bind, hb₂, conclude]
        split
        · obtain ⟨b₃, hb₃, hout₃⟩ := report_ok (r := .changed x Flags.fineGrained) hout₂.sound hxf rfl
            ((hout₂.root.trans hroot₁).symm ▸ hpath)
          exact ⟨b₃, true, by rw [hb₃]; rfl, hout₃.sound,
            hout₃.root.trans (hout₂.root.trans hroot₁), fun hfalse => by cases hfalse⟩
        · -- nothing was reported on this level nor below
          rename_i hnone
          rw [Bool.or_eq_true, not_or, Bool.not_eq_true', Bool.not_eq_false, Bool.not_eq_true] at hnone
          refine ⟨b₂, false, rfl, hout₂.sound, hout₂.root.trans hroot₁, fun _ => ?_⟩
          rw [List.isEmpty_iff.mp hnone.1] at hb₁
          cases hb₁
          exact hout₂.same hnone.2

/-! ## Telling -/

/-- A change that is reported about the root shows in its status: nothing takes a report back. -/
theorem telling_of_report {flags : Flags} (hb : Sound lex b.delta)
    (h : b.report (.changed b.delta.element flags) = .ok b') : b'.delta.status ≠ .unchanged := by
  have hroot := hb.tidy.follows
  rw [Builder.report_of_leads (r := .changed b.delta.element flags) hb hroot rfl (.here _)] at h
  have hrecords : Builder.Records lex b b.delta.element (.changed, flags) _ :=
    Builder.records_composeAlong hb (leaf_toDelta (.changed b.delta.element flags)) hroot (.here _)
      fun q r n hqr hr _ => absurd (List.append_eq_nil_iff.mp hqr.symm).2 hr
  rw [Except.ok.inj h] at hrecords
  have hentry : b'.delta.recorded? b.delta.element ≠ none := by
    rw [hrecords.entry]
    rcases b.delta.recorded? _ with _ | ⟨_ | _ | _ | _, _⟩ <;> simp [Status.composed]
  rw [recorded?, ← hrecords.root, find?_self, Option.bind_some] at hentry
  exact fun hs => hentry (if_pos hs)

/-- **A difference shows** at the element the comparison started from, since the last report of a comparison that
found one is about that element. -/
theorem telling_of_compare (ho : Region lex dom old) (hn : Region lex dom new) (hx : dom x)
    (hxo : Table.get? old x = some o) (hxn : Table.get? new x = some n) (hb : Sound lex b.delta)
    (hroot : b.delta.element = x) (h : compare old new limit fuel depth x b = .ok (b', true)) :
    b'.delta.status ≠ .unchanged := by
  subst hroot
  -- whatever went before, a difference ends in a change of the element itself
  have hdone : ∀ {b₁ : Builder} {flags : Flags}, Sound lex b₁.delta →
      b₁.delta.element = b.delta.element →
      (b₁.report (.changed b.delta.element flags)).map (·, true) = .ok (b', true) →
      b'.delta.status ≠ .unchanged := by
    intro b₁ flags hsound hroot hreport
    rcases hr : b₁.report (.changed b.delta.element flags) with _ | b₂
    · rw [hr] at hreport
      cases hreport
    · rw [hr] at hreport
      cases hreport
      rw [← hroot] at hr
      exact telling_of_report hsound hr
  cases fuel with
  | zero => cases h
  | succ fuel =>
    by_cases hlimit : limit ≤ depth
    · rw [compare_limit hxo hxn hlimit] at h
      split at h
      · exact hdone hb rfl h
      · cases h
    · rw [compare_level hxo hxn hlimit] at h
      obtain ⟨b₁, hb₁, hsound₁, hroot₁⟩ := levelReports_ok ho hn hx hxo hxn hb (.here _)
      obtain ⟨q, hq, hout⟩ := compareChildren_ok limit fuel (depth + 1) (l := commonChildren o n) hsound₁
        fun c hc b₂ hb₂ hroot₂ => by
          obtain ⟨hd, hpar⟩ := hn.child hx hxn (mem_commonChildren hc)
          have hpath : Leads b₂.delta.element [c] c :=
            (hroot₂.trans hroot₁).symm ▸ Leads.down hpar (.here c)
          exact compare_ok ho hn hd hb₂ hpath
      rw [hb₁] at h
      simp only [bind, Except.bind, hq, conclude] at h
      split at h
      · exact hdone hout.sound (hout.root.trans hroot₁) h
      · cases h

/-- Other content is a difference, at the limit and above it: above it there is a report of its own, and at it the
comparison of trees begins with the content. -/
theorem differs_of_content (hxo : Table.get? old x = some o) (hxn : Table.get? new x = some n)
    (hcontent : n.contentDiffers o = true)
    (h : compare old new limit (fuel + 1) depth x b = .ok (b', differs)) : differs = true := by
  have hdone : ∀ {r : Except Error Builder}, r.map (·, true) = .ok (b', differs) → differs = true := by
    intro r hr
    rcases r with _ | b₁ <;> cases hr
    rfl
  by_cases hlimit : limit ≤ depth
  · have htree : treeDiffers old new (old.length + 1) o n = true := by simp [treeDiffers, hcontent]
    rw [compare_limit hxo hxn hlimit, htree, if_pos rfl] at h
    exact hdone h
  · have hown : (levelReports x o n).isEmpty = false := by simp [levelReports, hcontent]
    rw [compare_level hxo hxn hlimit] at h
    rcases hb₁ : (levelReports x o n).foldlM Builder.report b with _ | b₁
    · rw [hb₁] at h
      cases h
    · rw [hb₁] at h
      simp only [bind, Except.bind] at h
      split at h
      · cases h
      · rw [conclude, hown, Bool.not_false, Bool.true_or, if_pos rfl] at h
        exact hdone h

/-! ## Agreement -/

/-- Below the elements, both states have the same bodies as far as anybody can tell. Bodies may differ where no
check of content looks. -/
structure Agreement (dom : Handle → Prop) (old new : Bodies) : Prop where
  /-- there is a body in both or in none, with the same children and the same content -/
  bodies : ∀ {x}, dom x → (Table.get? old x = none ∧ Table.get? new x = none) ∨
    ∃ o n, Table.get? old x = some o ∧ Table.get? new x = some n ∧ n.children = o.children ∧
      n.contentDiffers o = false
  /-- children belong to the elements -/
  child : ∀ {x b c}, dom x → Table.get? new x = some b → c ∈ b.children → dom c

/-- No body differs from itself: each check of content compares a part of a body with the same part. -/
theorem contentDiffers_self (b : Body) : b.contentDiffers b = false := by
  rcases hs : b.source with _ | ⟨full, name, _ | sn, properties⟩ <;>
    simp [Body.contentDiffers, hs, Source.agrees, Source.snapshotsAgree, Snapshot.agrees]

theorem agreement_of_eq (h : Region lex dom new)
    (heq : ∀ {x}, dom x → Table.get? old x = Table.get? new x) : Agreement dom old new := by
  refine ⟨fun {x} hx => ?_, fun hx hb hc => (h.child hx hb hc).1⟩
  rw [heq hx]
  rcases hb : Table.get? new x with _ | b
  · exact .inl ⟨rfl, rfl⟩
  · exact .inr ⟨b, b, rfl, rfl, rfl, contentDiffers_self b⟩

theorem sameChildren_self (l : List Handle) : sameChildren l l = true := by
  induction l with
  | nil => rfl
  | cons c l ih => simp [sameChildren, ih, Handle.same_refl]

/-- What is in a set of handles is still there when another one is put in. -/
theorem contains_insert_of_contains {s : HandleSet} {e c : Handle} (h : HandleSet.contains s c = true) :
    HandleSet.contains (HandleSet.insert s e) c = true := by
  rw [HandleSet.insert]
  split
  · exact h
  · rw [HandleSet.contains, List.any_append, ← HandleSet.contains, h, Bool.true_or]

theorem contains_ofList_of_mem {l : List Handle} {c : Handle} (h : c ∈ l) :
    HandleSet.contains (HandleSet.ofList l) c = true := by
  suffices hfold : ∀ s : HandleSet, HandleSet.contains s c = true ∨ c ∈ l →
      HandleSet.contains (l.foldl HandleSet.insert s) c = true from hfold [] (.inr h)
  clear h
  induction l with
  | nil => exact fun s h => h.resolve_right (by simp)
  | cons d l ih =>
    intro s h
    refine ih _ ?_
    rcases h with h | h
    · exact .inl (contains_insert_of_contains h)
    · rcases List.mem_cons.mp h with rfl | h
      · exact .inl (HandleSet.contains_insert_self s c)
      · exact .inr h

/-- Handles that are the same when bare match, for no comparison looks at the switch that tells them apart. -/
theorem same_of_bare_eq {a c : Handle} (h : a.bare = c.bare) : a.same c = true := by
  rw [← same_bare, h]
  exact same_refl _

/-- The set of a list has all handles that are in the list when bare. -/
theorem contains_ofList_of_bare_mem {l : List Handle} {c : Handle} (h : c.bare ∈ l.map Handle.bare) :
    HandleSet.contains (HandleSet.ofList l) c = true := by
  obtain ⟨k, hk, hkc⟩ := List.mem_map.mp h
  -- a set does not tell handles apart that are the same when bare
  have hsame : ∀ s : HandleSet, HandleSet.contains s c = HandleSet.contains s k := fun s => by
    simp only [HandleSet.contains, ← same_bare c, ← same_bare k, hkc]
  rw [hsame]
  exact contains_ofList_of_mem hk

/-- Where two lists are the same handle by handle when bare, the walk through the table takes every position,
whatever the table says. -/
theorem walk_of_bare_eq {as bs : List Handle} (h : bs.map Handle.bare = as.map Handle.bare)
    (table : List (List Nat)) (j : Nat) :
    Subsequence.walk Handle.same as bs table j = List.range' j bs.length := by
  induction as generalizing bs table j with
  | nil =>
    obtain rfl := List.map_eq_nil_iff.mp h
    simp [Subsequence.walk]
  | cons a as ih =>
    obtain ⟨b, bs, rfl, hab, hbs⟩ := List.map_eq_cons_iff.mp h
    rw [Subsequence.walk, if_pos (same_of_bare_eq hab.symm), ih hbs, List.length_cons, List.range'_succ]

/-- If the lists of children are the same when bare, all children are common. -/
theorem commonChildren_of_eq (h : n.children.map Handle.bare = o.children.map Handle.bare) :
    commonChildren o n = n.children := by
  rw [commonChildren, List.filter_eq_self]
  exact fun c hc => contains_ofList_of_bare_mem (h ▸ List.mem_map_of_mem hc)

/-- Children that are the same keep their places: the walk takes all of them, so none is left to be reported as
reordered. -/
theorem reordered_of_eq (h : n.children.map Handle.bare = o.children.map Handle.bare) :
    reordered o n = [] := by
  have hold : o.children.filter (HandleSet.contains (HandleSet.ofList n.children)) = o.children := by
    rw [List.filter_eq_self]
    exact fun c hc => contains_ofList_of_bare_mem (h ▸ List.mem_map_of_mem hc)
  rw [reordered, hold, commonChildren_of_eq h, Subsequence.stable, walk_of_bare_eq h, List.map_eq_nil_iff,
    List.filter_eq_nil_iff]
  rintro ⟨c, i⟩ hc
  obtain ⟨-, hlt, -⟩ := List.mem_zipIdx hc
  simp only [List.contains_eq_mem, Bool.not_eq_true', decide_eq_false_iff_not, not_not,
    List.mem_range'_1]
  omega

/-- Bodies with the same children and the same content give nothing to report. -/
theorem levelReports_of_eq (h : n.children.map Handle.bare = o.children.map Handle.bare)
    (hc : n.contentDiffers o = false) : levelReports x o n = [] := by
  have hremoved : (o.children.filter fun c =>
      !HandleSet.contains (HandleSet.ofList n.children) c) = [] := by
    rw [List.filter_eq_nil_iff]
    intro c hc
    rw [contains_ofList_of_bare_mem (h ▸ List.mem_map_of_mem hc)]
    simp
  have hadded : (n.children.filter fun c =>
      !HandleSet.contains (HandleSet.ofList o.children) c) = [] := by
    rw [List.filter_eq_nil_iff]
    intro c hc
    rw [contains_ofList_of_bare_mem (h ▸ List.mem_map_of_mem hc)]
    simp
  rw [levelReports, hremoved, hadded, reordered_of_eq h, hc]
  rfl

/-- Trees that agree do not differ, however much fuel there is to look at them. -/
theorem treeDiffers_agreeing (h : Agreement dom old new) (hx : dom x)
    (ho : Table.get? old x = some o) (hn : Table.get? new x = some n) :
    treeDiffers old new fuel o n = false := by
  induction fuel generalizing x o n with
  | zero => rfl
  | succ fuel ih =>
    have hbodies : n.children = o.children ∧ n.contentDiffers o = false := by
      rcases h.bodies hx with ⟨hnone, -⟩ | ⟨o', n', ho', hn', hbodies⟩
      · rw [ho] at hnone
        cases hnone
      · cases ho.symm.trans ho'
        cases hn.symm.trans hn'
        exact hbodies
    rw [treeDiffers, hbodies.1, hbodies.2, sameChildren_self, Bool.false_or, Bool.not_true,
      Bool.false_or, List.any_eq_false]
    intro c hc
    have hdom := h.child hx hn (hbodies.1 ▸ hc)
    rcases h.bodies hdom with ⟨hco, hcn⟩ | ⟨o', n', hco, hcn, -⟩
    · simp [hco, hcn]
    · simp only [hco, hcn, ih hdom hco hcn, Bool.and_false, Bool.false_eq_true, not_false_eq_true]

/-- **Agreement** leaves nothing to report: each level has the same content and the same children, all of which are
common and in place, and the comparisons of the children find nothing by induction. -/
theorem compare_agreeing (h : Agreement dom old new) (hx : dom x) :
    compare old new limit fuel depth x b = .ok (b, false) := by
  induction fuel generalizing x depth with
  | zero => rfl
  | succ fuel ih =>
    rcases h.bodies hx with ⟨ho, hn⟩ | ⟨o, n, ho, hn, hchildren, hcontent⟩
    · rw [compare, ho, hn]
    · by_cases hlimit : limit ≤ depth
      · rw [compare_limit ho hn hlimit, treeDiffers_agreeing h hx ho hn]
        rfl
      · have hfold : (commonChildren o n).foldlM (compareChild old new limit fuel (depth + 1))
            (b, false) = .ok (b, false) := by
          obtain ⟨q, hq, rfl⟩ := foldlM_ok (f := compareChild old new limit fuel (depth + 1))
            (l := commonChildren o n) (fun q => (b, false) = q) (fun c hc q hq => by
              subst hq
              refine ⟨(b, false), ?_, rfl⟩
              rw [compareChild, ih (h.child hx hn (mem_commonChildren hc))]
              split <;> rfl) rfl
          exact hq
        rw [compare_level ho hn hlimit,
          levelReports_of_eq (congrArg (List.map Handle.bare) hchildren) hcontent]
        simp only [List.foldlM_nil, bind, Except.bind, pure, Except.pure, hfold]
        rfl

/-! ## What the comparison depends on -/

/-- The comparison of two bodies goes on to the child. At the limit it looks at children only if the lists of both
bodies are the same, and above the limit only at common ones. -/
def Pursued (o n : Body) (c : Handle) : Prop :=
  c ∈ n.children ∧ (sameChildren o.children n.children = true ∨ c ∈ commonChildren o n)

/-- **Two pairs of states look alike** to a comparison that starts at one of the elements: on its way their
bodies have the same children and the same differences in content. The states may differ in everything else,
above all in bodies that the comparison never comes to. Each pair has a rank of its own, for the fuel of a
comparison goes by the number of bodies in the earlier state. -/
structure Matching (rank rank' : Handle → Nat) (dom : Handle → Prop) (g k : Body → Body)
    (old new old' new' : Bodies) : Prop where
  /-- the earlier bodies match -/
  earlier : ∀ {x}, dom x → Table.get? old' x = (Table.get? old x).map g
  /-- the later bodies match -/
  later : ∀ {x}, dom x → Table.get? new' x = (Table.get? new x).map k
  /-- they have the same children -/
  children : ∀ b, (g b).children = b.children ∧ (k b).children = b.children
  /-- they differ in content if the others do -/
  content : ∀ {x o n}, dom x → Table.get? old x = some o → Table.get? new x = some n →
    (k n).contentDiffers (g o) = n.contentDiffers o
  /-- the children it goes on to belong to the elements, one level down -/
  child : ∀ {x o n c}, dom x → Table.get? old x = some o → Table.get? new x = some n → Pursued o n c →
    dom c ∧ rank c < rank x ∧ rank' c < rank' x
  /-- there are no more levels than earlier bodies -/
  bound : ∀ {x}, dom x → rank x ≤ old.length ∧ rank' x ≤ old'.length

section Matching

variable {rank rank' : Handle → Nat} {g k : Body → Body} (h : Matching rank rank' dom g k old new old' new')

include h

/-- Whether a child is passed over is told by the presence of bodies, which is the same in both pairs. -/
theorem Matching.isUnopened (hx : dom x) : isUnopened old' new' x = isUnopened old new x := by
  rw [Recorder.isUnopened, Table.contains, Table.contains, h.earlier hx, h.later hx, Recorder.isUnopened,
    Table.contains, Table.contains, Option.isSome_map, Option.isSome_map]

/-- One level gives the same reports in both pairs: they are told from content and children. -/
theorem Matching.levelReports (hx : dom x) (ho : Table.get? old x = some o)
    (hn : Table.get? new x = some n) : levelReports x (g o) (k n) = levelReports x o n := by
  simp only [Recorder.levelReports, reordered, commonChildren, Body.contentChange, h.content hx ho hn,
    h.children]

/-- Bodies that match have the same common children. -/
theorem Matching.commonChildren (o n : Body) : commonChildren (g o) (k n) = commonChildren o n := by
  simp only [Recorder.commonChildren, h.children]

/-- The check of whole trees comes to the same in both pairs, if there is fuel for the levels of each. -/
theorem Matching.treeDiffers (hx : dom x) (ho : Table.get? old x = some o)
    (hn : Table.get? new x = some n) (hfuel : rank x < fuel) (hfuel' : rank' x < fuel') :
    treeDiffers old' new' fuel' (g o) (k n) = treeDiffers old new fuel o n := by
  induction fuel generalizing x o n fuel' with
  | zero => omega
  | succ fuel ih =>
    obtain ⟨fuel', rfl⟩ : ∃ m, fuel' = m + 1 := ⟨fuel' - 1, by omega⟩
    rw [Recorder.treeDiffers, Recorder.treeDiffers, h.content hx ho hn, (h.children o).1, (h.children n).2]
    -- other children are a difference by themselves, whatever stands below them
    cases hsame : sameChildren o.children n.children with
    | false => simp only [Bool.not_false, Bool.or_true, Bool.true_or]
    | true =>
      congr 1
      rw [Bool.eq_iff_iff, List.any_eq_true, List.any_eq_true]
      refine exists_congr fun c => and_congr_right fun hc => ?_
      obtain ⟨hdom, hlt, hlt'⟩ := h.child hx ho hn ⟨hc, .inl hsame⟩
      rw [h.isUnopened hdom, h.earlier hdom, h.later hdom]
      rcases hco : Table.get? old c with _ | o' <;> rcases hcn : Table.get? new c with _ | n'
      · rfl
      · rfl
      · rfl
      · have hbelow : Recorder.treeDiffers old' new' fuel' (g o') (k n') =
            Recorder.treeDiffers old new fuel o' n' := ih hdom hco hcn (by omega) (by omega)
        simp only [Option.map_some, hbelow]

/-- **The comparison depends on what stands below the element** and on nothing else, as long as there is
fuel for all levels. The induction is on the fuel: one level looks at the bodies of the element on both sides
and goes on to children, where the states look alike again and the rank is smaller. -/
theorem compare_congr (hx : dom x) (hfuel : rank x < fuel) (hfuel' : rank' x < fuel') :
    compare old' new' limit fuel' depth x b = compare old new limit fuel depth x b := by
  induction fuel generalizing x depth b fuel' with
  | zero => omega
  | succ fuel ih =>
    obtain ⟨fuel', rfl⟩ : ∃ m, fuel' = m + 1 := ⟨fuel' - 1, by omega⟩
    have ho' := h.earlier hx
    have hn' := h.later hx
    rcases ho : Table.get? old x with _ | o <;> rcases hn : Table.get? new x with _ | n <;>
      rw [ho] at ho' <;> rw [hn] at hn'
    · simp only [compare, ho, hn, ho', hn', Option.map_none]
    · simp only [compare, ho, hn, ho', hn', Option.map_none, Option.map_some]
    · simp only [compare, ho, hn, ho', hn', Option.map_none, Option.map_some]
    · by_cases hlimit : limit ≤ depth
      · -- at the limit the whole tree below is compared, with fuel of its own
        obtain ⟨hbound, hbound'⟩ := h.bound hx
        rw [compare_limit ho hn hlimit, compare_limit ho' hn' hlimit,
          h.treeDiffers hx ho hn (Nat.lt_succ_of_le hbound) (Nat.lt_succ_of_le hbound')]
      · rw [compare_level ho hn hlimit, compare_level ho' hn' hlimit, h.levelReports hx ho hn,
          h.commonChildren o n]
        refine congrArg _ (funext fun b₁ => ?_)
        congr 1
        refine foldlM_congr (fun c hc q => ?_) _
        obtain ⟨hdom, hlt, hlt'⟩ := h.child hx ho hn ⟨mem_commonChildren hc, .inr hc⟩
        rw [compareChild, compareChild, h.isUnopened hdom, ih hdom (by omega) (by omega)]

end Matching

end CodeModel.Recorder
