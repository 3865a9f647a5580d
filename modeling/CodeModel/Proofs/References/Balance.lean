import CodeModel.Proofs.References.Numbers

/-!
# Reference counting of working copies

Requests of any kind and number, on elements that may share their buffers, with builds and callbacks that
fail at will: what the session counts is what the history says.

* An element is **registered** as long as more references were taken on it than dropped since it became a
  working copy, and that many are counted. Requests are **answered** by that number.
* A **buffer** has the references of the working copies on it and those of its other owners.
* The **pinned** elements are the registered ones.
* The callback of a working copy hears of its end **once**: at the release that drops the last reference,
  or when the set-up fails. Listeners hear of a file that **becomes** a working copy or **ceases** to be one,
  and of nothing else.
-/

namespace CodeModel

/-- How many references on a buffer the registered working copies hold. -/
def Store.held (s : Store) (i : BufferId) : Nat :=
  (s.registry.map fun p => (s.copy? p.2).elim 0 (·.refsOn i)).sum

theorem Store.held_books (owned : BufferId → Nat) (s : Store) (i : BufferId) :
    (s.books owned).held i = s.held i := by
  rw [Books.held, Store.held]
  congr 1
  refine List.map_congr_left fun p hp => ?_
  simp only [Store.books, Store.copy?, List.getElem?_map]
  cases s.copies[p.2]? <;> rfl

namespace References

open Session

variable {σ : Type} {lex : Lexicon} {n : Nat} {listeners : Listeners} {k : Minutes σ} {m : Model σ}
  {b b' : Books} {x : Handle} {e : Entry σ n} {h : History σ n} {s s₀ : Session σ}

/-! ## Books and histories -/

/-- The books are what the history says. This is the invariant of runs: each part of it is kept by a turn, with the
help of the others. -/
structure Kept (lex : Lexicon) (listeners : Listeners) (h : History σ n) (b : Books) : Prop where
  /-- the books are orderly -/
  orderly : Orderly lex n b
  /-- as many references are counted as were taken and not dropped -/
  count : ∀ {x}, x.Follows lex → (b.count x : Int) = balance x (tenure x h)
  /-- buffers have the references of the working copies on them -/
  shared : ∀ i, b.refs i = b.held i
  /-- working copies have the numbers of their registrations -/
  numbered : Numbered lex h b
  /-- callbacks have heard of all ends -/
  farewelled : Farewelled h b
  /-- all were answered as they had to be, and those were called who had to be -/
  proper : ∀ {e before}, e :: before <:+ h → e.Fitting before ∧ e.Proper listeners before

/-- One more entry changes the balance by what it takes or drops. The balance is a sum over the history, newest
entry first. -/
theorem balance_cons (x : Handle) (e : Entry σ n) (h : History σ n) :
    balance x (e :: h) =
      balance x h + (if e.takes x then 1 else 0) - (if e.drops x then 1 else 0) := by
  simp only [balance, List.countP_cons]
  split <;> split <;> omega

/-- An element that becomes a working copy was not referenced before. -/
theorem Orderly.count_of_begins (ho : Orderly lex n b) (hturn : Turn listeners b e b')
    (hfile : e.request.Follows lex) (hx : x.Follows lex) (hbegins : e.begins x = true) :
    b.count x = 0 := by
  cases hturn with
  | started status hopen hnone =>
    exact count_of_none (ho.copyOf?_eq_none hnone (hfile _ rfl) hx hbegins)
  | notOpenable | refused | joined | acquired | missed | unknown | kept | last | apart =>
    cases hbegins

/-- A turn answers as the references on the file call for: a start tells whether there were none before, and an
acquisition gets the working copy if there are any. -/
theorem Kept.fitting (hk : Kept lex listeners h b) (hturn : Turn listeners b e b')
    (hfile : e.request.Follows lex) : e.Fitting h := by
  have hnone : ∀ {file}, file.Follows lex → b.copyOf? file = none → balance file (tenure file h) = 0 := by
    intro file hf hid
    rw [← hk.count hf, Orderly.count_of_none hid]
    rfl
  have hsome : ∀ {file id c}, file.Follows lex → b.copyOf? file = some id → b.copies[id]? = some c →
      balance file (tenure file h) = c.refs ∧ 0 < c.refs := by
    intro file id c hf hid hc
    obtain ⟨k, c', -, -, hc', huse⟩ := hk.orderly.lookup hid
    cases hc.symm.trans hc'
    rw [← hk.count hf, Orderly.count_of_some hid hc]
    exact ⟨rfl, huse.referenced⟩
  cases hturn with
  | notOpenable hopen =>
    intro ho
    cases hopen.symm.trans ho
  | started status hopen hid => exact ⟨hopen, hnone (hfile _ rfl) hid⟩
  | refused hopen hid => exact fun _ => hnone (hfile _ rfl) hid
  | joined hopen hid hc =>
    obtain ⟨hbalance, hpos⟩ := hsome (hfile _ rfl) hid hc
    exact ⟨hopen, by omega⟩
  | acquired hid hc =>
    obtain ⟨hbalance, hpos⟩ := hsome (hfile _ rfl) hid hc
    simp only [Entry.Fitting]
    omega
  | missed hid => exact hnone (hfile _ rfl) hid
  | unknown hid => exact hnone (hfile _ rfl) hid
  | kept hid hc hrefs =>
    obtain ⟨hbalance, -⟩ := hsome (hfile _ rfl) hid hc
    simp only [Entry.Fitting]
    omega
  | last status hid hc hrefs =>
    obtain ⟨hbalance, -⟩ := hsome (hfile _ rfl) hid hc
    simp only [Entry.Fitting]
    omega
  | apart => trivial

/-- **One turn** keeps the books in step with the history. For the counts it has to be seen when a tenure begins: an
element that becomes a working copy was not referenced before, so nothing of its earlier tenures is left over. -/
theorem Kept.turn (hk : Kept lex listeners h b) (hturn : Turn listeners b e b')
    (hfile : e.request.Follows lex) : Kept lex listeners (e :: h) b' := by
  refine ⟨hk.orderly.turn hturn hfile, fun {x} hx => ?_, hk.orderly.shared_turn hk.shared hturn,
    hk.numbered.turn hk.orderly hturn hfile, hk.farewelled.turn hk.orderly hturn,
    fun {e' before} hsuffix => ?_⟩
  · have hcount := hk.orderly.count_turn hturn hfile hx
    rw [tenure]
    split
    · -- a new tenure starts from nothing
      rename_i hbegins
      rw [hk.orderly.count_of_begins hturn hfile hx hbegins] at hcount
      rw [hcount, balance_cons]
      rfl
    · rw [hcount, hk.count hx, balance_cons]
  · rcases List.suffix_cons_iff.mp hsuffix with heq | hsuffix
    · cases heq
      exact ⟨hk.fitting hturn hfile, hk.numbered.proper hturn hfile⟩
    · exact hk.proper hsuffix

/-! ## Sessions and histories -/

/-- The session has come from `s₀` through a history. -/
structure Reached (lex : Lexicon) (k : Minutes σ) (s₀ : Session σ) (h : History σ n) (s : Session σ) :
    Prop where
  /-- its books are what the history says -/
  kept : Kept lex s₀.listeners h (s.books k)
  /-- its listeners are who they were -/
  listeners : s.listeners = s₀.listeners
  /-- its world has taken down all calls -/
  calls : k.calls s.world = k.calls s₀.world ++ h.reverse.flatMap Entry.calls

/-- **One request** adds its entry to the history, and comes to a turn of the books, as these are usable. -/
theorem Reached.perform {r : Request σ n} (hs : Reached lex k s₀ h s) (hm : m.Attended k)
    (hfile : r.Follows lex) (haloof : r.Aloof k) :
    Reached lex k s₀ ((perform m k r s).1 :: h) (perform m k r s).2 := by
  have husable := hs.kept.orderly.usable hs.kept.shared
  obtain ⟨calls, hturn, hlisteners, hcalls⟩ := comes_serve hm husable haloof
  have hentry : (References.perform m k r s).1 = ⟨r, (serve m r s).1, calls⟩ := by
    simp [References.perform, hcalls]
  have hsession : (References.perform m k r s).2 = (serve m r s).2 := rfl
  rw [hs.listeners] at hturn
  rw [hentry, hsession]
  refine ⟨hs.kept.turn hturn hfile, hlisteners.trans hs.listeners, ?_⟩
  rw [hcalls, hs.calls]
  simp

/-- **A run** adds the entries of all its requests, by induction on their list. -/
theorem Reached.run {rs : List (Request σ n)} (hs : Reached lex k s₀ h s) (hm : m.Attended k)
    (hrs : ∀ r ∈ rs, r.Follows lex ∧ r.Aloof k) :
    Reached lex k s₀ (run m k rs (h, s)).1 (run m k rs (h, s)).2 := by
  induction rs generalizing h s with
  | nil => exact hs
  | cons r rs ih =>
    obtain ⟨hfile, haloof⟩ := hrs r (List.mem_cons_self ..)
    exact ih (hs.perform hm hfile haloof) fun r' hr' => hrs r' (List.mem_cons_of_mem _ hr')

/-- A session at its start has come through an empty history. -/
theorem reached_fresh (lex : Lexicon) (config : Config) {world : σ} (listeners : Listeners)
    {buffers : List Buffer} (arrangement : Arrangement)
    (howned : ∀ i, k.owned world i = (buffers[i]?).elim 0 Buffer.refs) :
    Reached (n := buffers.length) lex k (fresh config world listeners buffers arrangement) []
      (fresh config world listeners buffers arrangement) := by
  have hrefs : (fun i => (((buffers[i]?).elim 0 Buffer.refs : Nat) - k.owned world i : Int)) =
      fun _ => 0 := by
    funext i
    simp [howned]
  have hbooks : (fresh config world listeners buffers arrangement).books k =
      ⟨[], [], fun _ => 0, buffers.length, []⟩ :=
    congrArg (fun refs => (⟨[], [], refs, buffers.length, []⟩ : Books)) hrefs
  refine ⟨?_, rfl, by simp⟩
  rw [hbooks]
  exact ⟨⟨Table.distinct_nil, by simp, by simp, by simp, rfl, rfl⟩, fun _ => rfl, fun _ => rfl,
    ⟨rfl, fun _ hid => by cases hid⟩, ⟨by simp, by simp⟩, by simp⟩

/-! ## What the session counts -/

/-- The number of a registration leads to its working copy. -/
theorem Numbered.exists_copy {before : History σ n} {file : Handle} {callback : Option CallbackId}
    (hn : Numbered lex h b) (hsuffix : e :: before <:+ h)
    (he : e.registration? = some (file, callback)) :
    ∃ c, b.copies[(registrations before).length]? = some c ∧ c.callback = callback := by
  obtain ⟨after, rfl⟩ := hsuffix
  have hreg : registrations (after ++ e :: before) =
      registrations after ++ (file, callback) :: registrations before := by
    simp [registrations, List.filterMap_append, he]
  have htag : (b.copies.map fun c => (c.element, c.callback))[(registrations before).length]? =
      some (file, callback) := by
    rw [hn.copies, hreg, List.reverse_append, List.reverse_cons, List.append_assoc,
      List.getElem?_append_right (by simp)]
    simp
  obtain ⟨c, hc, heq⟩ : ∃ c, b.copies[(registrations before).length]? = some c ∧
      (c.element, c.callback) = (file, callback) := by simpa using htag
  exact ⟨c, hc, (Prod.mk.inj heq).2⟩

/-- The working copies in force are those that have not come to their end. -/
theorem Orderly.isInForce_eq {id : CopyId} {c : WorkingCopy} (ho : Orderly lex n (s.books k))
    (hc : (s.books k).copies[id]? = some c) : s.store.isInForce id = !c.disposed := by
  obtain ⟨c', hc', rfl⟩ := Store.exists_of_books hc
  have hforce : s.store.isInForce id = true ↔ (s.books k).copyOf? c'.element = some id := by
    simp only [Store.isInForce, hc', beq_iff_eq]
    rfl
  have hlive : c'.undated.disposed = c'.disposed := rfl
  rw [hlive, Bool.eq_iff_iff, hforce, Bool.not_eq_true']
  constructor
  · intro hid
    obtain ⟨l, c, -, -, hc₀, huse⟩ := ho.lookup hid
    cases hc.symm.trans hc₀
    exact huse.live
  · intro hdisposed
    have hm := ho.ended hc hdisposed
    exact ho.registry.get?_of_mem (ho.registry.follows _ hm) hm (Handle.same_refl _)

/-- **What the session counts** is what the history says. The history has requests, answers and calls, and knows
nothing of registries and counters. -/
structure Balanced (lex : Lexicon) (k : Minutes σ) (s₀ : Session σ) (h : History σ n) (s : Session σ) :
    Prop where
  /-- an element is registered as long as references on it were taken and not dropped -/
  registered : ∀ {x}, x.Follows lex →
    ((s.store.copyOf? x).isSome = true ↔ 0 < balance x (tenure x h))
  /-- and that many are counted -/
  counted : ∀ {x id}, x.Follows lex → s.store.copyOf? x = some id →
    ∃ c, s.store.copy? id = some c ∧ (c.refs : Int) = balance x (tenure x h)
  /-- a buffer has the references of the working copies on it, and those of its other owners -/
  shared : ∀ i : Fin n, ∃ b, s.store.buffer? i = some b ∧ b.refs = s.store.held i + k.owned s.world i
  /-- the pinned elements are the registered ones -/
  pinned : s.store.cache.pinned = s.store.workingCopies
  /-- the callback of a registration has heard of its end once, or not at all if it has not come -/
  once : ∀ {e before file callback}, e :: before <:+ h →
    e.registration? = some (file, some callback) →
    (h.flatMap Entry.farewells).count (callback, (registrations before).length) =
      if s.store.isInForce (registrations before).length then 0 else 1
  /-- each request was answered as the balance called for -/
  fitting : ∀ {e before}, e :: before <:+ h → e.Fitting before
  /-- each entry called those who had to be called then, and nobody else -/
  proper : ∀ {e before}, e :: before <:+ h → e.Proper s₀.listeners before
  /-- nobody was called besides -/
  calls : k.calls s.world = k.calls s₀.world ++ h.reverse.flatMap Entry.calls

/-- Where the books are what the history says, the session counts it. -/
theorem Reached.balanced (hs : Reached lex k s₀ h s) : Balanced lex k s₀ h s := by
  have hk := hs.kept
  refine ⟨fun {x} hx => ?_, fun {x id} hx hid => ?_, fun i => ?_, hk.orderly.pinned,
    fun {e before file callback} hsuffix he => ?_, fun hsuffix => (hk.proper hsuffix).1,
    fun hsuffix => (hk.proper hsuffix).2, hs.calls⟩
  · have hregistered : (s.store.copyOf? x).isSome = true ↔ 0 < (s.books k).count x :=
      hk.orderly.isSome_copyOf?_iff
    rw [hregistered, ← hk.count hx]
    omega
  · have hid' : (s.books k).copyOf? x = some id := hid
    obtain ⟨l, c, -, -, hc, -⟩ := hk.orderly.lookup hid'
    obtain ⟨c', hc', rfl⟩ := Store.exists_of_books hc
    refine ⟨c', hc', ?_⟩
    rw [← hk.count hx, Orderly.count_of_some hid' hc]
    rfl
  · have hlt : i.1 < s.store.buffers.length := Nat.lt_of_lt_of_eq i.2 hk.orderly.size.symm
    have hb : s.store.buffer? i = some s.store.buffers[i.1] := List.getElem?_eq_getElem hlt
    have hshared := hk.shared i
    rw [Session.books, Store.held_books] at hshared
    simp only [Store.books, hb, Option.elim_some] at hshared
    exact ⟨s.store.buffers[i.1], hb, by omega⟩
  · obtain ⟨c, hc, hcallback⟩ := hk.numbered.exists_copy hsuffix he
    rw [hk.farewelled.once hc hcallback, hk.orderly.isInForce_eq hc]
    cases c.disposed <;> rfl

/-- **Reference counting**: after every run from a fresh session, whatever its requests, and however builds and
callbacks fail, the session counts what the history says, and everybody was called who had to be. The run is reached
request by request, each of which is a turn of the books. -/
theorem balanced_run (hm : m.Attended k) (config : Config) {world : σ} (listeners : Listeners)
    {buffers : List Buffer} (arrangement : Arrangement)
    (howned : ∀ i, k.owned world i = (buffers[i]?).elim 0 Buffer.refs)
    {rs : List (Request σ buffers.length)} (hrs : ∀ r ∈ rs, r.Follows lex ∧ r.Aloof k) :
    let s := fresh config world listeners buffers arrangement
    Balanced lex k s (run m k rs ([], s)).1 (run m k rs ([], s)).2 :=
  ((reached_fresh lex config listeners arrangement howned).run hm hrs).balanced

/-! ## A run with failures -/

/-- A world that takes down calls, and the references of others. -/
structure Stage where
  /-- The calls made so far. -/
  calls : List Call := []
  /-- How many references others hold on a buffer. -/
  owned : BufferId → Nat := fun _ => 0

namespace Stage

/-- The minutes of the stage. -/
def minutes : Minutes Stage := ⟨calls, owned⟩

/-- Takes down a call. -/
def note (call : Call) : Action Stage Unit :=
  modify fun s => { s with world.calls := s.world.calls ++ [call] }

/-- Somebody else becomes an owner of a buffer. -/
def share (i : BufferId) : Action Stage Unit := modify fun s =>
  if i < s.store.buffers.length then
    { s with
      store := s.store.retainBuffer i
      world.owned := fun j => if i = j then s.world.owned j + 1 else s.world.owned j }
  else s

/-- Nothing is built from an empty text. Callback 9 refuses its working copies, and callback 7 becomes an
owner of the first buffer. -/
def model : Model Stage where
  validate _ _ := .ok ()
  build e snapshot :=
    if snapshot.map Snapshot.text = some [] then throw (.doesNotExist e) else putBody e {}
  onInit callback _ :=
    if callback = 9 then throw .canceled else if callback = 7 then share 0 else return ()
  onEvent l event := note (.told l event)
  onDispose callback id := note (.disposed callback id)

theorem only_note (call : Call) (s : Session Stage) : Only minutes [call] s (note call s).2 :=
  ⟨rfl, rfl, rfl⟩

theorem aloof_share (i : BufferId) : Action.Aloof minutes (share i) := by
  intro s
  have hrun : (share i s).2 = if i < s.store.buffers.length then
      { s with
        store := s.store.retainBuffer i
        world.owned := fun j => if i = j then s.world.owned j + 1 else s.world.owned j }
      else s := rfl
  rw [hrun]
  split
  · rename_i hi
    refine ⟨?_, rfl, by simp [minutes]⟩
    rw [Session.books, Session.books, Store.books_retainBuffer _ hi]
    refine congrArg (fun refs => { s.store.books s.world.owned with refs }) (funext fun j => ?_)
    simp only [Books.charge, Store.books, minutes]
    split <;> omega
  · exact Only.refl s

theorem attended_model : model.Attended minutes where
  build e snapshot := by
    simp only [model]
    split
    · exact Op.aloof_throw _
    · refine Op.aloof_modifyStore fun owned s => ?_
      rw [Store.modifyDraft]
      split <;> rfl
  onInit callback id := by
    simp only [model]
    split
    · exact Op.aloof_throw _
    · split
      · exact Op.aloof_lift (aloof_share 0)
      · exact Op.aloof_pure ()
  onClose _ _ := Only.refl
  onDispose callback id := only_note (.disposed callback id)
  onEvent l event := only_note (.told l event)

/-- Elements of every kind build their own structure. -/
def lexicon : Lexicon := fun name => { name, openable := true }

/-- A file of a name. -/
def file (name : String) : Handle := .top (lexicon "file") (some name)

/-- A session with a listener, a buffer and an empty buffer. -/
def opening : Session Stage := fresh {} {} [("outline", .postChange)] [⟨0, ['x'], 0, 0⟩, ⟨1, [], 0, 0⟩]

/-- Two files come to share a buffer with others, two set-ups fail, and all references on the first file are
dropped again. -/
def requests : List (Request Stage 2) :=
  [.start (file "a") 0 (some 1) false, .start (file "b") 0 (some 7) false,
    .start (file "a") 1 none false, .start (file "c") 1 (some 3) false,
    .start (file "c") 0 (some 9) false, .acquire (file "a"), .outside (share 0),
    .release (file "a"), .release (file "a"), .release (file "a")]

/-- The history and the session that the requests lead to. -/
def outcome : History Stage 2 × Session Stage := run model minutes requests ([], opening)

end Stage

/-- Of two files on one buffer with other owners one is left, and all that failed or ended was told. -/
theorem balanced_run_shared_buffer :
    (∀ r ∈ Stage.requests, r.Follows Stage.lexicon ∧ r.Aloof Stage.minutes) ∧
    Stage.outcome.1.flatMap Entry.farewells = [(1, 0), (9, 3), (3, 2)] ∧
    Stage.outcome.2.store.workingCopies = [Stage.file "b"] ∧
    Stage.outcome.2.store.buffers.map Buffer.refs = [3, 0] ∧
    Balanced Stage.lexicon Stage.minutes Stage.opening Stage.outcome.1 Stage.outcome.2 := by
  have hfollows : ∀ r ∈ Stage.requests, r.Follows Stage.lexicon := by decide
  have haloof : ∀ r ∈ Stage.requests, r.Aloof Stage.minutes := by
    simp [Stage.requests, Request.Aloof, Stage.aloof_share]
  have hrs : ∀ r ∈ Stage.requests, r.Follows Stage.lexicon ∧ r.Aloof Stage.minutes :=
    fun r hr => ⟨hfollows r hr, haloof r hr⟩
  have howned : ∀ i, Stage.minutes.owned {} i = (Stage.opening.store.buffers[i]?).elim 0 Buffer.refs := by
    rintro (_ | _ | i) <;> rfl
  refine ⟨hrs, ?_, ?_, ?_, balanced_run Stage.attended_model {} [("outline", .postChange)] .asBuilt howned hrs⟩ <;>
    decide +kernel

end References

end CodeModel
