import CodeModel.Proofs.Foo.Complete
import CodeModel.Proofs.Foo.Reconciliation

/-!
# The element at a position

What is found at a position of a file, at any time of a session (`innermostAt_exact`).

* A file that is **open** stays so, with the same text, while its declarations are asked for, and their bodies are
  those of the text (`Shows.run_body`). Asking for one of them may drop others, but never puts another text in the
  place of this one.
* So the search is one of the text: it comes upon the **first** declaration that covers the position, or is left with
  the file (`run_innermostAt`).
* Ranges cover their ends, and declarations may follow each other at once. Where one ends and another begins, the
  first one is found, however long it is (`innermostAt_joint`). Everywhere else what is found is the **smallest**
  (`exists_innermost`), for declarations do not overlap.
* The search is bounded, but the bound is **not reached** (`innermostAt_of_levels`).
-/

namespace CodeModel.Foo

open Session

variable {std : Standard} {p : Project} {refusal : Refusal} {s : Session Desk} {e f x : Handle} {sn : Snapshot}
  {position : Nat}

/-! ## Open files -/

/-- **The file is open** with the structure of the text, in a coherent session. Whatever is asked for afterwards,
bodies of its declarations are those that the text gives. -/
structure Shows (std : Standard) (s : Session Desk) (f : Handle) (sn : Snapshot) : Prop where
  /-- the session is coherent -/
  coherent : Coherent std s.store
  /-- the file has the body that its text gives -/
  cached : s.store.cache.peek? f = some (ownBody f sn)

namespace Shows

variable (h : Shows std s f sn) (ha : std.Admits p s.world.files) (hf : IsFile f)

include h ha hf

/-- **A declaration** of an open file has the body that the text gives, and the file stays open with its text. Its
body is cached only together with that of the file, and both speak of one text; so whichever of them had to be built
again, the text is still the same. -/
theorem run_body (refusal : Refusal) {b : Body} (hx : DeclaredIn f x)
    (hb : Table.get? (fileTable f sn) x = some b) :
    ∃ t, (body (p.hosted refusal) x).run s = (.ok b, withStore s t) ∧ Shows std (withStore s t) f sn := by
  obtain ⟨r, t, hrun, hopen⟩ := run_openBody refusal false h.coherent ha (hx.element hf)
  have hr : r = .ok b := by
    rw [hopen.answer rfl, h.coherent.answer_of_within p _ hf h.cached (.inr hx), bodyOf]
    simp only [hb]
  subst hr
  -- its body is cached only with that of the file, and both speak of one text
  obtain ⟨sn', hfile, hb'⟩ := hopen.turnover.coherent.faithful.declared hf hx (hopen.cached rfl)
  have hsn : sn' = sn := Option.some.inj
    ((snapshot?_of_within hf (.inr hx) hb').symm.trans (snapshot?_of_within hf (.inr hx) hb))
  exact ⟨t, hrun, hopen.turnover.coherent, hsn ▸ hfile⟩

/-- The search among declarations of an open file finds the first one that covers the position. The induction is on
the declarations that are left; the file stays open from one to the next. -/
theorem run_firstCovering (refusal : Refusal) (position : Nat) {l : List (Handle × Declaration)}
    (hl : ∀ q ∈ l, q ∈ elements f [] (parse sn.text).declarations) :
    ∃ t, (firstCovering (p.hosted refusal) position (l.map Prod.fst)).run s =
        (.ok ((l.find? fun q => q.2.fullRange.covers position).map fun q => (q.1, q.2.body sn)), withStore s t) ∧
      Shows std (withStore s t) f sn := by
  induction l generalizing s with
  | nil => exact ⟨s.store, rfl, h⟩
  | cons q l ih =>
    have hq := hl q (List.mem_cons_self ..)
    obtain ⟨t, hrun, ht⟩ := h.run_body ha hf refusal (declaredIn_elements hq) (get?_fileTable_element hf hq)
    have hcovers : (q.2.body sn).covers position = q.2.fullRange.covers position := rfl
    simp only [List.map_cons, firstCovering, Op.run_bind, hrun, hcovers]
    rw [List.find?_cons]
    cases q.2.fullRange.covers position with
    | true => exact ⟨t, rfl, ht⟩
    | false => exact ih ht ha fun q hq => hl q (List.mem_cons_of_mem _ hq)

end Shows

/-- The first declaration of a text that covers the position, with its element. -/
def firstAt (f : Handle) (sn : Snapshot) (position : Nat) : Option (Handle × Declaration) :=
  (elements f [] (parse sn.text).declarations).find? fun q => q.2.fullRange.covers position

/-- What is found at a position of a text: the first declaration that covers it, or else the file. -/
def innermost (f : Handle) (sn : Snapshot) (position : Nat) : Handle := (firstAt f sn position).elim f Prod.fst

/-- Below declarations there is nothing, so the descent ends after two levels at most. -/
theorem Shows.run_descend (h : Shows std s f sn) (ha : std.Admits p s.world.files) (hf : IsFile f)
    (refusal : Refusal) (position fuel : Nat) :
    ∃ t, (descend (p.hosted refusal) position (fuel + 2) f (ownBody f sn)).run s =
      (.ok (innermost f sn position), withStore s t) := by
  obtain ⟨t, hrun, -⟩ := h.run_firstCovering ha hf refusal position fun q hq => hq
  refine ⟨t, ?_⟩
  rw [descend, Op.run_bind, children_ownBody, hrun, innermost, firstAt]
  rcases (elements f [] (parse sn.text).declarations).find? _ with _ | q <;> rfl

/-- **What is found** at a position of a file follows from the body of the file: an error if there is none, nothing
if the position is behind the end of its text, and else what is found in the text. -/
theorem run_innermostAt (refusal : Refusal) (h : Coherent std s.store) (ha : std.Admits p s.world.files)
    (hf : IsFile f) (position : Nat) :
    ∃ r, ((body (p.hosted refusal) f).run s).1 = r ∧
      match r with
      | .error error => ((innermostAt (p.hosted refusal) f position none).run s).1 = .error error
      | .ok b => ∃ sn, b = ownBody f sn ∧ ((innermostAt (p.hosted refusal) f position none).run s).1 =
          .ok (if position ≤ sn.text.length then some (innermost f sn position) else none) := by
  obtain ⟨r, t, hrun, hopen⟩ := run_openBody refusal false h ha hf.element
  have hbody : (body (p.hosted refusal) f).run s = (r, withStore s t) := hrun
  refine ⟨r, congrArg Prod.fst hbody, ?_⟩
  rw [innermostAt, Op.run_bind, hbody]
  rcases r with error | b
  · rfl
  · have hcoherent := hopen.turnover.coherent
    obtain ⟨sn, rfl, -⟩ := hcoherent.faithful.file hf (hopen.cached rfl)
    have hshows : Shows std (withStore s t) f sn := ⟨hcoherent, hopen.cached rfl⟩
    obtain ⟨u, hdescend⟩ : ∃ u, (descend (p.hosted refusal) position maxLevels f (ownBody f sn)).run _ = _ :=
      hshows.run_descend ha hf refusal position 65534
    refine ⟨sn, rfl, ?_⟩
    have hcovers : (⟨0, sn.text.length⟩ : Range).covers position = decide (position ≤ sn.text.length) := by
      simp [Range.covers, Range.stop]
    simp only [source_ownBody, Source.covers, Option.any_some, Option.any_none, hcovers, decide_eq_true_iff]
    by_cases hin : position ≤ sn.text.length
    · simp only [hin, if_true, Bool.false_eq_true, if_false, Op.run_bind, hdescend]
      rfl
    · simp only [hin, Bool.false_eq_true, if_false]
      rfl

/-! ## Source elements -/

/-- The element is the file or one of its declarations, and the stretch is its full range. -/
def StandsAt (f : Handle) (sn : Snapshot) (e : Handle) (r : Range) : Prop :=
  ∃ b, (e, b) ∈ fileBodies f sn ∧ b.source.bind Source.fullRange = some r

theorem standsAt_file (f : Handle) (sn : Snapshot) : StandsAt f sn f ⟨0, sn.text.length⟩ :=
  ⟨ownBody f sn, List.mem_append_right _ (List.mem_singleton_self _), by rw [source_ownBody]; rfl⟩

/-- A declaration stands where the parser says. -/
theorem standsAt_element {q : Handle × Declaration} (h : q ∈ elements f [] (parse sn.text).declarations) :
    StandsAt f sn q.1 q.2.fullRange := ⟨_, mem_fileBodies_of_mem_elements h, rfl⟩

/-- There are no other source elements than the file and its declarations. -/
theorem StandsAt.cases {r : Range} (h : StandsAt f sn e r) :
    (e = f ∧ r = ⟨0, sn.text.length⟩) ∨
      ∃ d, (e, d) ∈ elements f [] (parse sn.text).declarations ∧ r = d.fullRange := by
  obtain ⟨b, hb, hr⟩ := h
  rcases List.mem_append.mp hb with hb | hb
  · obtain ⟨⟨e, d⟩, hd, heq⟩ := List.mem_map.mp hb
    obtain ⟨rfl, rfl⟩ := Prod.mk.inj heq
    exact .inr ⟨d, hd, (Option.some.inj hr).symm⟩
  · obtain ⟨rfl, hown⟩ : e = f ∧ b = ownBody f sn := Prod.mk.inj (List.mem_singleton.mp hb)
    rw [hown, source_ownBody] at hr
    exact .inl ⟨rfl, (Option.some.inj hr).symm⟩

/-- The element is the first source element below the file that covers the position, or the file if there is none. No
other one that covers the position is smaller, but for one that begins at the position where this one ends. -/
structure Innermost (f : Handle) (sn : Snapshot) (position : Nat) (e : Handle) (r : Range) : Prop where
  /-- it is a source element of the file -/
  stands : StandsAt f sn e r
  /-- it covers the position -/
  covers : r.covers position = true
  /-- it is before any other one below the file -/
  foremost : ∀ {e' r'}, StandsAt f sn e' r' → r'.covers position = true →
    e' = f ∨ (e ≠ f ∧ r.offset ≤ r'.offset)
  /-- it is not larger than another one, or the position is the joint of both -/
  smallest : ∀ {e' r'}, StandsAt f sn e' r' → r'.covers position = true →
    r.length ≤ r'.length ∨ (r.stop = position ∧ r'.offset = position)

/-- Declarations stand one behind the other and do not overlap. One may end where the next one starts, so that a
position belongs to both of them. -/
theorem pairwise_ordered_elements (f : Handle) (t : Text) :
    (elements f [] (parse t).declarations).Pairwise fun q r => q.2.fullRange.stop ≤ r.2.fullRange.offset := by
  have hordered := (spread_parse t).ordered
  rw [← map_snd_elements f [] (parse t).declarations] at hordered
  exact List.pairwise_map.mp hordered

theorem placed_of_mem_elements {q : Handle × Declaration} (h : q ∈ elements f [] (parse sn.text).declarations) :
    q.2.Placed sn.text := by
  have hmem : q.2 ∈ (elements f [] (parse sn.text).declarations).map Prod.snd := List.mem_map_of_mem h
  rw [map_snd_elements] at hmem
  exact ((spread_parse sn.text).declared _ hmem).1

/-- **Another declaration** that covers the position as well begins where the first one ends: it stands behind the
first one, so there is only one place that both can cover. -/
theorem joint_of_firstAt {q r : Handle × Declaration} (hq : firstAt f sn position = some q)
    (hr : r ∈ elements f [] (parse sn.text).declarations) (hcovers : r.2.fullRange.covers position = true) :
    r = q ∨ (q.2.fullRange.stop = position ∧ r.2.fullRange.offset = position) := by
  obtain ⟨hcovers', before, behind, hsplit, hbefore⟩ := List.find?_eq_some_iff_append.mp hq
  have hordered := pairwise_ordered_elements f sn.text
  rw [hsplit] at hr hordered
  rcases List.mem_append.mp hr with hr | hr
  · have hnot := hbefore r hr
    rw [hcovers] at hnot
    cases hnot
  · refine (List.mem_cons.mp hr).imp_right fun hr => ?_
    have hbehind := (List.pairwise_cons.mp (List.pairwise_append.mp hordered).2.1).1 r hr
    rw [Range.covers_iff] at hcovers hcovers'
    omega

/-- **What is found** is the smallest source element that covers the position, if it is not the joint of two. The
file is found only if no declaration covers the position, and it is larger than any of them. -/
theorem exists_innermost (hf : IsFile f) (h : position ≤ sn.text.length) :
    ∃ r, Innermost f sn position (innermost f sn position) r := by
  rcases hfirst : firstAt f sn position with _ | q <;> rw [innermost, hfirst]
  · have hcovers : (⟨0, sn.text.length⟩ : Range).covers position = true := by simpa [Range.stop] using h
    have hfile : ∀ {e' r'}, StandsAt f sn e' r' → r'.covers position = true →
        e' = f ∧ r' = ⟨0, sn.text.length⟩ := fun {e' r'} hstands hcovers => by
      refine hstands.cases.resolve_right ?_
      rintro ⟨d, hd, rfl⟩
      exact List.find?_eq_none.mp hfirst _ hd hcovers
    exact ⟨_, standsAt_file f sn, hcovers, fun hstands hcovers => .inl (hfile hstands hcovers).1,
      fun hstands hcovers => .inl (by rw [(hfile hstands hcovers).2])⟩
  · have hmem : q ∈ elements f [] (parse sn.text).declarations := List.mem_of_find?_eq_some hfirst
    have hplaced := placed_of_mem_elements hmem
    have hcovers : q.2.fullRange.covers position = true := (List.find?_eq_some_iff_append.mp hfirst).1
    refine ⟨_, standsAt_element hmem, hcovers, fun {e' r'} hstands hcovers' => ?_,
      fun {e' r'} hstands hcovers' => ?_⟩
    · rcases hstands.cases with ⟨rfl, -⟩ | ⟨d, hd, rfl⟩
      · exact .inl rfl
      · refine .inr ⟨hf.ne_declared (declaredIn_elements hmem), ?_⟩
        rcases joint_of_firstAt hfirst hd hcovers' with rfl | ⟨-, hoffset⟩
        · exact Nat.le_refl _
        · exact hoffset ▸ ((Range.covers_iff ..).mp hcovers).1
    · rcases hstands.cases with ⟨-, rfl⟩ | ⟨d, hd, rfl⟩
      · exact .inl (Nat.le_trans (Nat.le_add_left ..) hplaced.stop_le)
      · rcases joint_of_firstAt hfirst hd hcovers' with rfl | hjoint
        · exact .inl (Nat.le_refl _)
        · exact .inr hjoint

/-! ## Files of a session -/

/-- Any text is that of an open file in some session: the file becomes a working copy of a buffer with the text. -/
theorem shows_started (p : Project) (refusal : Refusal) (hf : IsFile f) (t : Text) :
    ∃ sn, sn.text = t ∧ Shows anyFiles
      (run (p.hosted refusal)
        ([.start ⟨f, hf.element⟩ ⟨0, Nat.zero_lt_one⟩ none false] : List (Request [t].length))
        (freshSession {} {} [t])).2 f sn := by
  have hfresh := coherent_freshSession anyFiles {} {} [t] .asBuilt
  have hbuffer : (freshSession {} {} [t]).store.buffer? 0 = some { id := 0, text := t } := rfl
  obtain ⟨-, hin⟩ := run_start_file refusal hfresh (admits_anyFiles p {}) hf rfl hbuffer
  obtain ⟨h, -⟩ := run_coherent p refusal
    ([.start ⟨f, hf.element⟩ ⟨0, Nat.zero_lt_one⟩ none false] : List (Request [t].length)) hfresh rfl
  obtain ⟨sn, hcached, hcurrent⟩ := h.current hf hin
  refine ⟨sn, ?_, h, hcached⟩
  rw [hcurrent.eq_snapshot rfl rfl]
  rfl

/-- An open file is asked for and found as it is. -/
theorem Shows.body_self (h : Shows std s f sn) : ((body (p.hosted refusal) f).run s).1 = .ok (ownBody f sn) :=
  congrArg Prod.fst (run_openBody_cached h.coherent.quiet.drafts h.cached)

/-- **The bound is not reached**: at any time of a session the element at a position is the same for all bounds on
the search that allow for the three levels of elements, so it is the one that a search without a bound comes to. -/
theorem innermostAt_of_levels (p : Project) (refusal : Refusal) (config : Config) (files : FileTree)
    (texts : List Text) (arrangement : Arrangement) (rs : List (Request texts.length)) (he : IsElement e)
    (position : Nat) (base : Option Snapshot) {levels : Nat} (hlevels : 3 ≤ levels) :
    let m := p.hosted refusal
    let s := (run m rs (freshSession config files texts arrangement)).2
    (innermostAt m e position base levels).run s = (innermostAt m e position base).run s := by
  intro m s
  obtain ⟨h, -⟩ := run_coherent p refusal rs
    (coherent_freshSession anyFiles config files texts arrangement)
    (length_freshSession config files texts arrangement)
  have hbody : AnswersAlike p refusal (Reach anyFiles s) := answersAlike_reach refusal (admits_anyFiles p _)
  have hmax : 3 ≤ maxLevels := by decide
  obtain ⟨r, s', t', hrun, hrun', ⟨rfl, -⟩, -⟩ :=
    alike_innermostAt hbody position base he hlevels hmax s s (reach_self h)
  exact hrun.trans hrun'.symm

/-- **What is found at a position.** At any time of a session, a file that cannot be opened has nothing found in it.
In any other file nothing is found exactly behind the end of its text. What is found otherwise is the file or one of
its declarations, it covers the position, and no other one that covers the position is smaller, but for the one that
begins there where the one that is found ends. -/
theorem innermostAt_exact (p : Project) (refusal : Refusal) (config : Config) (files : FileTree)
    (texts : List Text) (arrangement : Arrangement) (rs : List (Request texts.length)) (hf : IsFile f)
    (position : Nat) :
    let m := p.hosted refusal
    let s := (run m rs (freshSession config files texts arrangement)).2
    ∃ r, ((body m f).run s).1 = r ∧
      match r with
      | .error error => ((innermostAt m f position none).run s).1 = .error error
      | .ok b => ∃ sn answer, b = ownBody f sn ∧ ((innermostAt m f position none).run s).1 = .ok answer ∧
          (answer = none ↔ sn.text.length < position) ∧
          ∀ e, answer = some e → ∃ range, Innermost f sn position e range := by
  intro m s
  obtain ⟨h, -⟩ := run_coherent p refusal rs
    (coherent_freshSession anyFiles config files texts arrangement)
    (length_freshSession config files texts arrangement)
  obtain ⟨r, hr, hfound⟩ := run_innermostAt refusal h (admits_anyFiles p s.world.files) hf position
  refine ⟨r, hr, ?_⟩
  rcases r with error | b
  · exact hfound
  · obtain ⟨sn, hb, hanswer⟩ := hfound
    refine ⟨sn, _, hb, hanswer, ?_, fun e he => ?_⟩
    · simp
    · obtain ⟨hin, heq⟩ := Option.ite_none_right_eq_some.mp he
      exact Option.some.inj heq ▸ exists_innermost hf hin

/-- In a file with comments, space and other declarations around it, a function is found between its braces, with
the stretch from its keyword to the closing brace. -/
theorem innermostAt_exact_started :
    let p : Project := ⟨"lib"⟩
    let m := p.hosted fun _ _ _ => none
    let f := p.file "a.foo"
    let t : Text := "// first\nvar abc;  def f(a) \x7b a \x7d // last\nvar x;".toList
    ∃ hf : IsFile f,
      let rs : List (Request [t].length) := [.start ⟨f, hf.element⟩ ⟨0, Nat.zero_lt_one⟩ none false]
      let s := (run m rs (freshSession {} {} [t])).2
      ∃ sn, sn.text = t ∧
        ((innermostAt m f 30 none).run s).1 = .ok (some (f.sub functionKind "f/1")) ∧
        Innermost f sn 30 (f.sub functionKind "f/1") ⟨19, 14⟩ ∧
        t.slice? 19 33 = some "def f(a) \x7b a \x7d".toList := by
  intro p m f t
  have hf : IsFile f := ⟨rfl, rfl⟩
  refine ⟨hf, ?_⟩
  intro rs s
  obtain ⟨sn, htext, hshows⟩ := shows_started p (fun _ _ _ => none) hf t
  let abc : Declaration := ⟨.var, "abc", ⟨9, 8⟩, ⟨13, 3⟩⟩
  let fa : Declaration := ⟨.function ["a"], "f", ⟨19, 14⟩, ⟨23, 1⟩⟩
  let x : Declaration := ⟨.var, "x", ⟨42, 6⟩, ⟨46, 1⟩⟩
  have hparse : (parse t).declarations = [abc, fa, x] := by decide +kernel
  have helements : elements f [] (parse sn.text).declarations =
      [(f.sub varKind "abc", abc), (f.sub functionKind "f/1", fa), (f.sub varKind "x", x)] := by
    rw [htext, hparse]
    rfl
  obtain ⟨r, hr, hfound⟩ := innermostAt_exact p (fun _ _ _ => none) {} {} [t] .asBuilt rs hf 30
  obtain ⟨r', hr', hfound'⟩ :=
    run_innermostAt (fun _ _ _ => none) hshows.coherent (admits_anyFiles p s.world.files) hf 30
  obtain rfl : .ok (ownBody f sn) = r := hshows.body_self.symm.trans hr
  obtain rfl : .ok (ownBody f sn) = r' := hshows.body_self.symm.trans hr'
  obtain ⟨sn', answer, hbody, hanswer, -, hsome⟩ := hfound
  obtain rfl := ownBody_injective hbody
  obtain ⟨sn', hbody, hanswer'⟩ := hfound'
  obtain rfl := ownBody_injective hbody
  rw [htext, innermost, firstAt, helements] at hanswer'
  -- the one is the answer of the search, the other tells what is known of it
  obtain rfl : answer = some (f.sub functionKind "f/1") := Except.ok.inj (hanswer.symm.trans hanswer')
  obtain ⟨range, hinnermost⟩ := hsome _ rfl
  obtain rfl : range = ⟨19, 14⟩ := by
    rcases hinnermost.stands.cases with ⟨he, -⟩ | ⟨d, hd, rfl⟩
    · exact absurd he (by decide)
    · rw [helements] at hd
      obtain rfl : d = fa := by simpa [Handle.sub, varKind, functionKind] using hd
      rfl
  exact ⟨sn, htext, hanswer, hinnermost, by decide +kernel⟩

/-- **At a joint** of two declarations the first one is found, though the second one covers the position as well and
is smaller: children are tried in order, and the first one that covers the position is taken. -/
theorem innermostAt_joint :
    let p : Project := ⟨"lib"⟩
    let m := p.hosted fun _ _ _ => none
    let f := p.file "a.foo"
    let t : Text := "var abc;var x;".toList
    ∃ hf : IsFile f,
      let rs : List (Request [t].length) := [.start ⟨f, hf.element⟩ ⟨0, Nat.zero_lt_one⟩ none false]
      let s := (run m rs (freshSession {} {} [t])).2
      ∃ sn : Snapshot, sn.text = t ∧ ((body m f).run s).1 = .ok (ownBody f sn) ∧
        ((innermostAt m f 8 none).run s).1 = .ok (some (f.sub varKind "abc")) ∧
        StandsAt f sn (f.sub varKind "abc") ⟨0, 8⟩ ∧ StandsAt f sn (f.sub varKind "x") ⟨8, 6⟩ ∧
        (⟨8, 6⟩ : Range).covers 8 = true ∧ (⟨8, 6⟩ : Range).length < (⟨0, 8⟩ : Range).length := by
  intro p m f t
  have hf : IsFile f := ⟨rfl, rfl⟩
  refine ⟨hf, ?_⟩
  intro rs s
  obtain ⟨sn, htext, hshows⟩ := shows_started p (fun _ _ _ => none) hf t
  let abc : Declaration := ⟨.var, "abc", ⟨0, 8⟩, ⟨4, 3⟩⟩
  let x : Declaration := ⟨.var, "x", ⟨8, 6⟩, ⟨12, 1⟩⟩
  have hparse : (parse t).declarations = [abc, x] := by decide +kernel
  have helements : elements f [] (parse sn.text).declarations =
      [(f.sub varKind "abc", abc), (f.sub varKind "x", x)] := by
    rw [htext, hparse]
    rfl
  have habc : (f.sub varKind "abc", abc) ∈ elements f [] (parse sn.text).declarations := by
    rw [helements]
    exact List.mem_cons_self ..
  have hx : (f.sub varKind "x", x) ∈ elements f [] (parse sn.text).declarations := by
    rw [helements]
    exact List.mem_cons_of_mem _ (List.mem_singleton_self _)
  obtain ⟨r, hr, hfound⟩ :=
    run_innermostAt (fun _ _ _ => none) hshows.coherent (admits_anyFiles p s.world.files) hf 8
  obtain rfl : .ok (ownBody f sn) = r := hshows.body_self.symm.trans hr
  obtain ⟨sn', hbody, hanswer⟩ := hfound
  obtain rfl := ownBody_injective hbody
  rw [htext, innermost, firstAt, helements] at hanswer
  exact ⟨sn, htext, hshows.body_self, hanswer, standsAt_element habc, standsAt_element hx, rfl, by decide⟩

end CodeModel.Foo
