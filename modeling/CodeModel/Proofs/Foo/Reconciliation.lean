import CodeModel.Proofs.Foo.Differences
import CodeModel.Proofs.Foo.InStep

/-!
# Reconciling is exact

A reconcile of a file tells all that has changed since its structure was committed, and nothing else
(`run_reconcile_exact`).

* The **committed text** of a file is a matter of the run so far (`committedText`): it is the text of the
  buffer when the file became a working copy, or at the last reconcile that built the file again.
* It is **remembered**: as long as the file is a working copy, its cached body shows that text, whatever is
  opened, closed, edited or dropped meanwhile (`perform_recalls`, `run_remembers`).
* So the differences that are reported are those of **two texts**, the committed one and that of the
  buffer; and where a reconcile has nothing to do, the two are the same.

Two invariants meet here. That sessions are coherent says which text each cached body came from, and so what a
reconcile compares (`Coherent.reconcile_exact`); what is remembered says that for a working copy this text is the
one the run has committed last.
-/

namespace CodeModel.Foo

open Session

variable {std : Standard} {p : Project} {refusal : Refusal} {s : Session Desk} {store t : Store}
  {f x : Handle} {text : Option Text} {sn : Snapshot} {n : Nat} {id : CopyId} {c : WorkingCopy}
  {b : Buffer} {files : FileTree} {canceled : Bool} {bodies : Table Body} {besides : Handle → Prop}

/-! ## The committed text -/

/-- The text that the structure of `f` was committed from last, after one more request that was answered:
a new working copy was built from the buffer it is on, and a reconcile may have built it again. -/
def textAfter (f : Handle) (s : Session Desk) (text : Option Text) : Request n → Answer → Option Text
  | .start file buffer _ _, .truth (.ok true) =>
    if file = f then (s.store.buffer? buffer).map Buffer.text else text
  | .reconcile file _ _, .reconciliation (.ok r) =>
    if file = f ∧ r.reconciled = true then (s.store.copySnapshot? f).map Snapshot.text else text
  | _, _ => text

/-- The text that the structure of `f` was committed from last in a run, read off the requests and their answers. -/
def committedText (m : Model Desk) (f : Handle) :
    List (Request n) → Session Desk → Option Text → Option Text
  | [], _, text => text
  | r :: rs, s, text =>
    committedText m f rs (perform m r s).2 (textAfter f s text r (perform m r s).1)

/-- A request about something else does not change what was committed for the file. -/
theorem textAfter_of_subject {r : Request n} (h : r.subject? ≠ some f) (a : Answer) :
    textAfter f s text r a = text := by
  rw [textAfter.eq_def]
  split
  · rw [if_neg fun hf => h (congrArg some hf)]
  · rw [if_neg fun hf => h (congrArg some hf.1)]
  · rfl

/-- The snapshot of a working copy in force is that of its buffer. -/
theorem InForce.copySnapshot? (h : InForce store f id c b) :
    store.copySnapshot? f = some b.snapshot := by
  simp [Store.copySnapshot?, Store.workingCopy?, h.registered, h.copy, h.buffer]

/-! ## It is remembered -/

/-- **As long as the file is a working copy, its cached body shows the text.** This is where the committed text of a
file is kept: its buffer has gone on, and nothing else in the session has it. -/
def Remembers (f : Handle) (text : Option Text) (s : Store) : Prop :=
  (s.copyOf? f).isSome = true →
    ∃ sn, s.cache.peek? f = some (ownBody f sn) ∧ text = some sn.text

/-- What spares the working copy of the file leaves its body alone, and so the text that it was last built from. -/
theorem Remembers.spared (h : Remembers f text store) (hf : IsFile f) (hs : Spared besides store t)
    (hne : ¬ besides f) : Remembers f text t := by
  intro hcopy
  rw [hs.copyOf hf.plain hne] at hcopy
  rw [hs.bodies hf.plain hcopy hne hf.element (.inl rfl)]
  exact h hcopy

/-- A file that is no working copy has nothing to remember. -/
theorem Remembers.of_none (h : store.copyOf? f = none) : Remembers f text store := by
  intro hcopy
  rw [h] at hcopy
  cases hcopy

/-- After the request, the cached body of `f` shows the text that was committed last if it did before. -/
def Request.Recalls (m : Model Desk) (f : Handle) (s : Session Desk) (r : Request n) : Prop :=
  ∀ {text}, Remembers f text s.store →
    Remembers f (textAfter f s text r (perform m r s).1) (perform m r s).2.store

section Requests

variable (refusal : Refusal) (h : Coherent std s.store) (ha : std.Admits p s.world.files)
  {file : Element} (hf : IsFile file)

include h ha hf

/-- A file that becomes a working copy shows the text of the buffer it is on. -/
theorem recalls_start {buffer : Fin n} (hb : s.store.buffer? buffer = some b)
    (callback : Option CallbackId) (canceled : Bool) :
    (Request.start file buffer callback canceled).Recalls (p.hosted refusal) file s := by
  intro text htext
  rcases hid : s.store.copyOf? file with _ | id
  · simp only [perform, answered, run_start (.inr hf) hid hb]
    rcases h.starting refusal canceled callback ha (.inr hf) hb with
      ⟨bodies, hmade, htrue, hre⟩ | ⟨-, hgone⟩
    · rw [htrue]
      refine fun _ => ⟨_, hre.peek?_file hf hmade, ?_⟩
      rw [textAfter, if_pos rfl, hb]
      rfl
    · exact .of_none hgone.gone
  · -- it was one before, and only has one reference more
    obtain ⟨c, b, hin⟩ := h.inForce hf.plain hid
    simp only [perform, answered, run_startWorkingCopy_again hf.openable hid hin.copy hin.isReady]
    exact htext.spared hf (h.retainCopy id).2 not_false

omit ha in
/-- Releasing is the end of the working copy, or leaves its body alone. -/
theorem recalls_release : (Request.release file : Request n).Recalls (p.hosted refusal) file s := by
  intro text htext
  have hstore : (perform (p.hosted refusal) (.release file : Request n) s).2.store =
      (s.store.release file).2 := store_releaseWorkingCopy
  rw [hstore]
  rcases h.release hf.plain with hgone | ⟨⟨-, hspared⟩, -⟩
  · exact .of_none hgone.gone
  · exact htext.spared hf hspared not_false

/-- A reconcile that builds the file again shows the present text, and any other changes nothing. -/
theorem recalls_reconcile (force canceled : Bool) :
    (Request.reconcile file force canceled : Request n).Recalls (p.hosted refusal) file s := by
  intro text htext
  rcases hid : s.store.copyOf? file with _ | id
  · simp only [perform, answered, run_reconcile_of_none hid]
    exact .of_none hid
  · obtain ⟨c, b, hin⟩ := h.inForce hf.plain hid
    by_cases hdue : (!force && c.reconciled == some b.version) = true
    · simp only [perform, answered, run_reconcile hin.registered hin.copy hin.buffer hin.isReady,
        if_pos hdue]
      -- nothing was due, and the answer says so
      rw [textAfter, if_neg fun hr => Bool.noConfusion hr.2]
      exact htext
    · have hrun := run_reconcile_coherent refusal canceled h ha hf.element hin
        (Bool.not_eq_true _ ▸ hdue)
      split at hrun
      · simp only [perform, answered, hrun]
        exact htext
      · rename_i bodies hmade
        obtain ⟨hre, delta, -, hrun⟩ := hrun
        have hstore := store_reported id delta (structured id file bodies b.version s)
        simp only [perform, answered, hrun, hstore]
        -- what is cached now was built from the buffer, whose text is the committed one from here on
        refine fun _ => ⟨_, hre.peek?_file hf hmade, ?_⟩
        rw [textAfter, if_pos ⟨rfl, reconciled_reported ..⟩, hin.copySnapshot?]
        rfl

end Requests

/-- **One request**: the structure of a file changes only along with the committed text. The requests that are about
the file are looked at one by one; all others spare its working copy, however they treat the cache. For a working
copy is pinned, so that neither overflow nor the closing of other elements takes its body. -/
theorem perform_recalls (refusal : Refusal) (h : Coherent std s.store)
    (ha : std.Admits p s.world.files) (hn : s.store.buffers.length = n) (hf : IsFile f)
    (r : Request n) : r.Recalls (p.hosted refusal) f s := by
  intro text htext
  by_cases hsubject : r.subject? = some f
  · cases r with
    | start file buffer callback canceled =>
      obtain rfl : file = f := Option.some.inj hsubject
      have hlt : buffer.1 < s.store.buffers.length := hn ▸ buffer.2
      exact recalls_start refusal h ha hf (List.getElem?_eq_getElem hlt) callback canceled htext
    | release file =>
      obtain rfl : file = f := Option.some.inj hsubject
      exact recalls_release refusal h hf htext
    | reconcile file force canceled =>
      obtain rfl : file = f := Option.some.inj hsubject
      exact recalls_reconcile refusal h ha hf force canceled htext
    | _ => cases hsubject
  · -- the request spares the working copy
    rw [textAfter_of_subject hsubject]
    exact htext.spared hf (perform_spares refusal h ha hn r).2 hsubject

/-- **All runs** remember the committed text, by induction on the requests: each of them is answered in a coherent
session and leaves one behind. -/
theorem run_remembers (p : Project) (refusal : Refusal) (hf : IsFile f) (rs : List (Request n))
    (h : Coherent anyFiles s.store) (hn : s.store.buffers.length = n)
    (htext : Remembers f text s.store) :
    Remembers f (committedText (p.hosted refusal) f rs s text)
      (run (p.hosted refusal) rs s).2.store := by
  induction rs generalizing s text with
  | nil => exact htext
  | cons r rs ih =>
    have ha := admits_anyFiles p s.world.files
    obtain ⟨hcoh, hspared⟩ := perform_spares refusal h ha hn r
    exact ih hcoh (hspared.length.trans hn) (perform_recalls refusal h ha hn hf r htext)

/-! ## Exactness -/

/-- What a reconcile of a file does whose structure was committed from the text `old`, and whose buffer is at the
snapshot `sn` now: it comes to `r` and leaves the session at `t`. Neither of the two parts speaks of the bodies that
were cached; they are told from the two texts. -/
structure Exact (p : Project) (refusal : Refusal) (f : Handle) (old : Text) (sn : Snapshot)
    (s : Session Desk) (r : Reconciliation) (t : Session Desk) : Prop where
  /-- afterwards the structure of the file is the one that a build from the buffer makes -/
  upToDate : ∃ bodies, (buildBodies (p.hosted refusal) false f (some sn)).run t = (.ok bodies, t) ∧
    ∀ {x}, Within f x → ((openBody (p.hosted refusal) false x).run t).1 = bodyOf x (.ok bodies)
  /-- what is reported, and told to the callback and to the listeners, are the differences of the bodies
  that the two texts have; nothing is if the texts are equal -/
  told : ∃ id before after delta, s.store.copyOf? f = some id ∧
    (buildBodies (p.hosted refusal) false f (some (.detached old))).run s = (.ok before, s) ∧
    (buildBodies (p.hosted refusal) false f (some (.detached sn.text))).run s = (.ok after, s) ∧
    differences s.config.reconcileDepth f before after = .ok delta ∧
    r.delta = (if old = sn.text then none else some delta) ∧
    t.world.notices = s.world.notices ++
      ((if r.reconciled then reconcileNotices s.store id delta else []) ++
        if old = sn.text then [] else eventNotices s ⟨.postReconcile, [delta]⟩)

/-- A build of a file from a snapshot makes the bodies of the file. It cannot fail, as the text is there and every
text can be parsed. -/
theorem run_buildBodies_file (p : Project) (refusal : Refusal) (hf : IsFile f) (sn : Snapshot)
    (s : Session Desk) :
    (buildBodies (p.hosted refusal) false f (some sn)).run s = (.ok (fileTable f sn), s) := by
  rw [run_buildBodies, made_some_file hf]
  rfl

/-- What is a working copy has one in the registry. -/
theorem copyOf?_of_isWorkingCopy (h : (Session.isWorkingCopy f s).1 = true) :
    ∃ id, s.store.copyOf? f = some id := by
  have hany : (s.store.workingCopy? f).any (fun q => !q.2.disposed) = true := h
  rcases hid : s.store.copyOf? f with _ | id
  · rw [Store.workingCopy?, hid] at hany
    cases hany
  · exact ⟨id, rfl⟩

/-- A cached file that shows the present text of its buffer is up to date: it is there completely, so that every
declaration in it is answered by what a build from the buffer makes. -/
theorem Coherent.upToDate (refusal : Refusal) (h : Coherent std s.store)
    (ha : std.Admits p s.world.files) (hf : IsFile f)
    (hfb : s.store.cache.peek? f = some (ownBody f sn)) :
    ∃ bodies, (buildBodies (p.hosted refusal) false f (some sn)).run s = (.ok bodies, s) ∧
      ∀ {x}, Within f x →
        ((openBody (p.hosted refusal) false x).run s).1 = bodyOf x (.ok bodies) := by
  refine ⟨_, run_buildBodies_file p refusal hf sn s, fun {x} hx => ?_⟩
  obtain ⟨r, t, hrun, hopen⟩ := run_openBody refusal false h ha (hx.element hf)
  rw [hrun, ← h.answer_of_within p s.world.files hf hfb hx]
  exact hopen.answer rfl

/-- **Reconciling** a file in a coherent session is exact. If the version of the buffer is the one the file was
built from, the texts are equal and nothing is told. Otherwise the file is built again from the buffer, and the
recording compares the bodies before with those after: both are complete, as working copies are held. -/
theorem Coherent.reconcile_exact (refusal : Refusal) (force : Bool) (h : Coherent std s.store)
    (ha : std.Admits p s.world.files) (hf : IsFile f) (hin : InForce s.store f id c b)
    (hfb : s.store.cache.peek? f = some (ownBody f sn)) :
    ∃ r t, (Session.reconcile (p.hosted refusal) false f force).run s = (.ok r, t) ∧
      Exact p refusal f sn.text b.snapshot s r t := by
  obtain ⟨sn', hsn, hcurrent⟩ := h.current hf hin
  obtain rfl := ownBody_injective (Option.some.inj (hfb.symm.trans hsn))
  have hcopy : (s.store.copyOf? f).isSome = true := by rw [hin.registered]; rfl
  obtain ⟨delta, hdelta, hempty⟩ :=
    differences_textTable hf s.config.reconcileDepth sn.text b.text
  have hold := run_buildBodies_file p refusal hf (.detached sn.text) s
  have hnew := run_buildBodies_file p refusal hf (.detached b.text) s
  by_cases hdue : (!force && c.reconciled == some b.version) = true
  · -- the working copy knows the version, so the texts are the same
    have hversion : c.reconciled = some b.version := by simp_all
    obtain rfl := hcurrent.eq_snapshot (h.numbered hin.buffer) hversion
    refine ⟨{}, s, ?_, h.upToDate refusal ha hf hfb,
      ⟨id, _, _, delta, hin.registered, hold, hnew, hdelta, ?_, ?_⟩⟩
    · rw [run_reconcile hin.registered hin.copy hin.buffer hin.isReady, if_pos hdue]
    · rw [if_pos rfl]
    · simp
  · have hrun := run_reconcile_coherent refusal false h ha hf.element hin (Bool.not_eq_true _ ▸ hdue)
    have hmade : p.made s.world.files false f (some b.snapshot) = .ok (fileTable f b.snapshot) :=
      made_some_file hf s.world.files b.snapshot
    rw [hmade] at hrun
    obtain ⟨hre, delta', hdelta', hrun⟩ := hrun
    have hfb' := hre.peek?_file hf hmade
    have hcopy' : ((structured id f (fileTable f b.snapshot) b.version s).store.copyOf? f).isSome =
        true := by
      rw [hre.inForce.registered]
      rfl
    -- the differences of what was cached and what is cached now are those of the two texts
    rw [differences_eq h hre.coherent hf hcopy hcopy' hfb hfb' hcurrent.text_of_sameVersion] at hdelta'
    obtain rfl : delta = delta' := Except.ok.inj (hdelta.symm.trans hdelta')
    have hstore := store_reported id delta (structured id f (fileTable f b.snapshot) b.version s)
    have hfiles := files_reported id delta (structured id f (fileTable f b.snapshot) b.version s)
    refine ⟨_, _, hrun, Coherent.upToDate refusal (hstore ▸ hre.coherent) (hfiles ▸ ha) hf
      (hstore ▸ hfb'), ⟨id, _, _, delta, hin.registered, hold, hnew, hdelta, ?_, ?_⟩⟩
    · rw [delta_reported]
      exact if_congr hempty rfl rfl
    · have hcallback : reconcileNotices (structured id f (fileTable f b.snapshot) b.version s).store id
          delta = reconcileNotices s.store id delta := by
        rw [reconcileNotices, reconcileNotices, hre.inForce.copy, hin.copy]
        rfl
      rw [notices_reported, reconciled_reported, if_pos rfl, hcallback]
      exact congrArg (fun l => s.world.notices ++ (reconcileNotices s.store id delta ++ l))
        (if_congr hempty rfl rfl)

/-! ## Runs -/

/-- A working copy in force is one that clients can ask for. -/
theorem isWorkingCopy_of_inForce (h : InForce s.store f id c b) :
    (Session.isWorkingCopy f s).1 = true := by
  have hany : (s.store.workingCopy? f).any (fun q => !q.2.disposed) = true := by
    simp [Store.workingCopy?, h.registered, h.copy, h.live]
  exact hany

/-- A file that is no working copy becomes one if nobody is asked, that is if there is no callback that could
refuse. -/
theorem run_start_file {buffer : BufferId} (refusal : Refusal) (h : Coherent std s.store)
    (ha : std.Admits p s.world.files) (hf : IsFile f) (hnone : s.store.copyOf? f = none)
    (hb : s.store.buffer? buffer = some b) :
    let r := (startWorkingCopy (p.hosted refusal) false f buffer none).run s
    r.1 = .ok true ∧ InForce r.2.store f s.store.copies.length
      { element := f, buffer, callback := none, refs := 1, init := .ready,
        reconciled := some b.version } b.retain := by
  intro r
  have hrun : r = starting p refusal false f buffer b none s := run_start (.inr hf) hnone hb
  rw [hrun]
  rcases h.starting refusal false none ha (.inr hf) hb with
    ⟨bodies, -, htrue, hre⟩ | ⟨⟨error, herror⟩, -⟩
  · exact ⟨htrue, hre.inForce⟩
  · rw [starting, made_some_file hf] at herror
    cases herror

/-- A file that becomes a working copy and whose buffer gets another text. -/
theorem run_start_setText (p : Project) (refusal : Refusal) (config : Config) (files : FileTree)
    (hf : IsFile f) (old new : Text) :
    let m := p.hosted refusal
    let rs : List (Request [old].length) :=
      [.start ⟨f, hf.element⟩ ⟨0, Nat.zero_lt_one⟩ none false, .setText ⟨0, Nat.zero_lt_one⟩ new]
    let s := freshSession config files [old]
    committedText m f rs s none = some old ∧
      ∃ id c b, InForce (run m rs s).2.store f id c b ∧ b.text = new := by
  intro m rs s
  have hb : s.store.buffer? 0 = some { id := 0, text := old } := rfl
  obtain ⟨htrue, hin⟩ := run_start_file refusal
    (coherent_freshSession anyFiles config files [old] .asBuilt) (admits_anyFiles p files) hf rfl hb
  constructor
  · have hanswer : committedText m f rs s none = textAfter f s none
        (.start ⟨f, hf.element⟩ ⟨0, Nat.zero_lt_one⟩ none false : Request [old].length)
        (.truth ((startWorkingCopy m false f 0 none).run s).1) := rfl
    rw [hanswer, htrue, textAfter, if_pos rfl, hb]
    rfl
  · have hrun : (run m rs s).2 = (changed 0 (fun b => .ok (b.setText new))
        ((startWorkingCopy m false f 0 none).run s).2).2 := rfl
    have hbuffer := hin.buffer
    rw [hrun, changed, hbuffer]
    rw [Store.buffer?] at hbuffer
    refine ⟨_, _, ({ id := 0, text := old } : Buffer).retain.setText new,
      ⟨hin.registered, hin.copy, rfl, rfl, rfl, ?_⟩, rfl⟩
    simp only [Option.map_some, Store.buffer?, Store.modifyBuffer, List.getElem?_modify_eq]
    exact congrArg (Option.map _) hbuffer

/-- **Reconciling is exact and loses nothing.** After any run, an uncanceled reconcile of a file that is a working
copy succeeds. Then the structure of the file is that of its buffer, and what is reported are the differences
between the text that was committed last and the text of the buffer. The run may have done anything else meanwhile:
what is evicted, closed or built for other elements leaves the bodies of the working copy alone. -/
theorem run_reconcile_exact (p : Project) (refusal : Refusal) (config : Config) (files : FileTree)
    (texts : List Text) (arrangement : Arrangement) (rs : List (Request texts.length)) (hf : IsFile f)
    (force : Bool) (hcopy : (Session.isWorkingCopy f
      (run (p.hosted refusal) rs (freshSession config files texts arrangement)).2).1 = true) :
    let m := p.hosted refusal
    let s := (run m rs (freshSession config files texts arrangement)).2
    ∃ old sn r t, committedText m f rs (freshSession config files texts arrangement) none = some old ∧
      s.store.copySnapshot? f = some sn ∧
      (reconcile m false f force).run s = (.ok r, t) ∧ Exact p refusal f old sn s r t := by
  intro m s
  have hfreshly := coherent_freshSession anyFiles config files texts arrangement
  have hlength := length_freshSession config files texts arrangement
  obtain ⟨h, -⟩ := run_coherent p refusal rs hfreshly hlength
  obtain ⟨id, hid⟩ : ∃ id, s.store.copyOf? f = some id := copyOf?_of_isWorkingCopy hcopy
  obtain ⟨c, b, hin⟩ := h.inForce hf.plain hid
  have hfresh : Remembers f none (freshSession config files texts arrangement).store := .of_none rfl
  obtain ⟨sn, hfb, htext⟩ := run_remembers p refusal hf rs hfreshly hlength hfresh (by rw [hid]; rfl)
  obtain ⟨r, t, hrun, hexact⟩ :=
    h.reconcile_exact refusal force (admits_anyFiles p s.world.files) hf hin hfb
  exact ⟨sn.text, b.snapshot, r, t, htext, hin.copySnapshot?, hrun, hexact⟩

/-- A file that became a working copy and was edited reports the edit. -/
theorem run_reconcile_exact_edited :
    let p : Project := ⟨"lib"⟩
    let m := p.hosted fun _ _ _ => none
    let f := p.file "a.foo"
    ∃ hf : IsFile f,
      let rs : List (Request [([] : Text)].length) :=
        [.start ⟨f, hf.element⟩ ⟨0, Nat.zero_lt_one⟩ none false,
          .setText ⟨0, Nat.zero_lt_one⟩ "var a;".toList]
      let s := (run m rs (freshSession {} {} [[]])).2
      (Session.isWorkingCopy f s).1 = true ∧
      ∃ r t, (reconcile m false f false).run s = (.ok r, t) ∧ r.delta.isSome = true := by
  intro p m f
  have hf : IsFile f := ⟨rfl, rfl⟩
  refine ⟨hf, ?_⟩
  clear_value f p
  intro rs s
  obtain ⟨hcommitted, id, c, b, hin, hb⟩ :=
    run_start_setText p (fun _ _ _ => none) {} {} hf [] "var a;".toList
  have hcopy : (Session.isWorkingCopy f s).1 = true := isWorkingCopy_of_inForce hin
  obtain ⟨old, sn, r, t, hold, hsn, hrun, hexact⟩ :=
    run_reconcile_exact p (fun _ _ _ => none) {} {} [[]] .asBuilt rs hf false hcopy
  obtain ⟨-, -, -, delta, -, -, -, -, hdelta, -⟩ := hexact.told
  obtain rfl : [] = old := Option.some.inj (hcommitted.symm.trans hold)
  obtain rfl : b.snapshot = sn := Option.some.inj (hin.copySnapshot?.symm.trans hsn)
  have hne : ¬ [] = b.snapshot.text := by
    rw [show b.snapshot.text = _ from hb]
    decide
  refine ⟨hcopy, r, t, hrun, ?_⟩
  rw [hdelta, if_neg hne]
  rfl

end CodeModel.Foo
