import CodeModel.Proofs.References.Balance

/-!
# Releases that are refused

Each reference on a working copy goes together with one on its buffer. But buffers have other owners, and one of
these may let go of more references than it took. Then there may be none left on the buffer when the working copy
is released.

* A release **fails** for one of three reasons, each with what it leaves behind (`Store.Refusal`,
  `Store.release_eq_error_iff`).
* Whatever the reason, the registration, the pin and the bodies of the file stay, and so does everything else but
  the **count** of references. The count stays too as long as the buffer has references (`refused_release`).
* If the buffer has none, each attempt fails and takes **one reference** off (`attempts_of_isSpent`), and
  a single one is enough to lose it (`reference_lost`).
* None of this happens as long as the other owners let go of no more than they took: then a release fails only
  for **want of a working copy** (`Reached.release_eq_error`).
-/

namespace CodeModel

namespace WorkingCopy

/-- The working copy with `n` references fewer, or with none. -/
def dropping (n : Nat) (c : WorkingCopy) : WorkingCopy := { c with refs := c.refs - n }

theorem dropping_of_refs_eq_zero {c : WorkingCopy} (h : c.refs = 0) (n : Nat) : c.dropping n = c := by
  cases c
  cases h
  simp [dropping]

theorem dropping_one_of_refs {c : WorkingCopy} {k : Nat} (h : c.refs = k + 1) :
    c.dropping 1 = { c with refs := k } := by
  rw [dropping, h, Nat.add_sub_cancel]

end WorkingCopy

namespace Store

variable {s t : Store} {e : Handle} {i : BufferId} {id : CopyId} {c : WorkingCopy} {b : Buffer} {error : Error}

/-- The buffer has no references left. -/
def isSpent (s : Store) (i : BufferId) : Bool := (s.buffer? i).any (·.refs == 0)

theorem isSpent_of_buffer? (hb : s.buffer? i = some b) : s.isSpent i = (b.refs == 0) := by
  rw [isSpent, hb, Option.any_some]

theorem releaseBuffer_eq_error_iff : s.releaseBuffer i = (.error error, t) ↔
    ∃ b, s.buffer? i = some b ∧ b.refs = 0 ∧ error = .buffer (.notReferenced b.id) ∧ t = s := by
  rw [releaseBuffer]
  rcases hb : s.buffer? i with _ | b
  · simp
  · rcases hrefs : b.refs with _ | k
    · simp [Buffer.release, hrefs, eq_comm]
    · simp [Buffer.release, hrefs]

/-- **Why a release fails**, and what it leaves behind. -/
inductive Refusal (s : Store) (e : Handle) : Error → Store → Prop where
  /-- The element has no working copy. -/
  | unknown (hid : s.copyOf? e = none) : Refusal s e (.illegalState (.notWorkingCopy e)) s
  /-- There is no reference on the working copy. -/
  | unreferenced {id : CopyId} {c : WorkingCopy} (hid : s.copyOf? e = some id) (hc : s.copy? id = some c)
    (hrefs : c.refs = 0) : Refusal s e (.illegalState (.notReferenced c.element)) s
  /-- There is none on its buffer. The one on the working copy is gone by then. -/
  | spent {id : CopyId} {c : WorkingCopy} {k : Nat} {b : Buffer} (hid : s.copyOf? e = some id)
    (hc : s.copy? id = some c) (hrefs : c.refs = k + 1) (hb : s.buffer? c.buffer = some b)
    (hspent : b.refs = 0) :
    Refusal s e (.buffer (.notReferenced b.id)) (s.modifyCopy id fun c => { c with refs := k })

theorem releaseCopy_of_unreferenced (hc : s.copy? id = some c) (hrefs : c.refs = 0) :
    s.releaseCopy id = (.error (.illegalState (.notReferenced c.element)), s) := by
  simp only [releaseCopy, hc, hrefs]

theorem releaseCopy_of_referenced {k : Nat} (hc : s.copy? id = some c) (hrefs : c.refs = k + 1) :
    s.releaseCopy id =
      (((s.modifyCopy id fun c => { c with refs := k }).releaseBuffer c.buffer).1.map fun _ => k,
        ((s.modifyCopy id fun c => { c with refs := k }).releaseBuffer c.buffer).2) := by
  simp only [releaseCopy, hc, hrefs]

/-- A release fails if its working copy does not let a reference go. -/
theorem release_of_releaseCopy (hid : s.copyOf? e = some id) (h : s.releaseCopy id = (.error error, t)) :
    s.release e = (.error error, t) := by
  simp only [release, hid, h]

/-- A release fails for **no other reason**, and always leaves behind what the reason says. Each step of a release
that can fail is looked at: finding the working copy, dropping its reference, and dropping that on its buffer. -/
theorem release_eq_error_iff : s.release e = (.error error, t) ↔ Refusal s e error t := by
  constructor
  · intro h
    rw [release] at h
    split at h
    · next hid =>
      cases h
      exact .unknown hid
    next id hid =>
    split at h
    · next error' t' hcopy =>
      cases h
      rcases hc : s.copy? id with _ | c
      · simp [releaseCopy, hc] at hcopy
      rcases hrefs : c.refs with _ | k
      · rw [releaseCopy_of_unreferenced hc hrefs] at hcopy
        cases hcopy
        exact .unreferenced hid hc hrefs
      · rw [releaseCopy_of_referenced hc hrefs] at hcopy
        rcases hbuffer : (s.modifyCopy id fun c => { c with refs := k }).releaseBuffer c.buffer with
          ⟨cause | _, u⟩
        · rw [hbuffer] at hcopy
          cases hcopy
          obtain ⟨b, hb, hspent, rfl, rfl⟩ := releaseBuffer_eq_error_iff.mp hbuffer
          exact .spent hid hc hrefs hb hspent
        · rw [hbuffer] at hcopy
          cases hcopy
    · cases h
    · cases h
  · intro h
    cases h with
    | unknown hid => rw [release, hid]
    | unreferenced hid hc hrefs => exact release_of_releaseCopy hid (releaseCopy_of_unreferenced hc hrefs)
    | @spent id c k b hid hc hrefs hb hspent =>
      refine release_of_releaseCopy hid ?_
      have hbuffer : (s.modifyCopy id fun c => { c with refs := k }).releaseBuffer c.buffer =
          (.error (.buffer (.notReferenced b.id)), s.modifyCopy id fun c => { c with refs := k }) :=
        releaseBuffer_eq_error_iff.mpr ⟨b, hb, hspent, rfl, rfl⟩
      rw [releaseCopy_of_referenced hc hrefs, hbuffer]
      rfl

theorem copy?_modifyCopy (s : Store) (id id' : CopyId) (f : WorkingCopy → WorkingCopy) :
    (s.modifyCopy id f).copy? id' = (s.copy? id').map fun c => if id = id' then f c else c := by
  simp only [copy?, modifyCopy, List.getElem?_modify]
  split <;> simp

/-- No working copy is affected but the one whose release is refused. It keeps everything, unless its buffer is
spent: then it loses a reference, since that is dropped before the buffer is asked. -/
theorem Refusal.copy? (h : Refusal s e error t) (id : CopyId) :
    t.copy? id = (s.copy? id).map fun c =>
      if s.copyOf? e = some id ∧ s.isSpent c.buffer = true then c.dropping 1 else c := by
  cases h with
  | unknown hid => simp [hid]
  | @unreferenced id' c hid hc hrefs =>
    by_cases hsame : id' = id
    · subst hsame
      simp [hc, WorkingCopy.dropping_of_refs_eq_zero hrefs]
    · simp [hid, hsame]
  | @spent id' c k b hid hc hrefs hb hspent =>
    rw [copy?_modifyCopy]
    by_cases hsame : id' = id
    · subst hsame
      simp [hc, hid, WorkingCopy.dropping_one_of_refs hrefs, isSpent_of_buffer? hb, hspent]
    · simp [hid, hsame]

theorem Refusal.frame (h : Refusal s e error t) : t = { s with copies := t.copies } := by
  cases h <;> rfl

/-- While its buffer is spent a working copy cannot be released: each reference on it is one on the buffer, too, and
the buffer has none left to let go. -/
theorem exists_refusal_of_isSpent (hid : s.copyOf? e = some id) (hc : s.copy? id = some c)
    (hspent : s.isSpent c.buffer = true) : ∃ error t, Refusal s e error t := by
  rcases hb : s.buffer? c.buffer with _ | b
  · simp [isSpent, hb] at hspent
  rw [isSpent_of_buffer? hb, beq_iff_eq] at hspent
  rcases hrefs : c.refs with _ | k
  · exact ⟨_, _, .unreferenced hid hc hrefs⟩
  · exact ⟨_, _, .spent hid hc hrefs hb hspent⟩

end Store

namespace References

open Session

variable {σ : Type} {m : Model σ} {file : Handle} {s t : Session σ} {id : CopyId} {c : WorkingCopy}
  {error : Error}

/-- A release fails in the store, before any hook of the model is called. -/
theorem run_releaseWorkingCopy_eq_error_iff : (releaseWorkingCopy m file).run s = (.error error, t) ↔
    ∃ store, s.store.Refusal file error store ∧ t = { s with store } := by
  rw [run_releaseWorkingCopy]
  simp only [← Store.release_eq_error_iff]
  rcases s.store.release file with ⟨cause | _ | ⟨id, news⟩, u⟩
  · constructor
    · intro h
      cases h
      exact ⟨u, rfl, rfl⟩
    · rintro ⟨store, h, rfl⟩
      cases h
      rfl
  all_goals
    constructor
    · intro h
      cases h
    · rintro ⟨store, h, -⟩
      cases h

/-- **A release that fails** changes nothing but the count of references on the working copy of the file, whatever
the hooks of the model would have done. The count is one less if the buffer has no references left, and otherwise
nothing changes at all. -/
theorem refused_release (h : (releaseWorkingCopy m file).run s = (.error error, t)) :
    (∃ copies, t = { s with store := { s.store with copies } }) ∧
    (∀ id, t.store.copy? id = (s.store.copy? id).map fun c =>
      if s.store.copyOf? file = some id ∧ s.store.isSpent c.buffer = true then c.dropping 1 else c) ∧
    ((∀ id c, s.store.copyOf? file = some id → s.store.copy? id = some c → s.store.isSpent c.buffer = false) →
      t = s) := by
  obtain ⟨store, hrefusal, rfl⟩ := run_releaseWorkingCopy_eq_error_iff.mp h
  have hframe := congrArg (fun store => ({ s with store } : Session σ)) hrefusal.frame
  refine ⟨⟨store.copies, hframe⟩, hrefusal.copy?, fun hunspent => ?_⟩
  cases hrefusal with
  | unknown => rfl
  | unreferenced => rfl
  | spent hid hc _ hb hspent =>
    have habsurd := hunspent _ _ hid hc
    simp [Store.isSpent_of_buffer? hb, hspent] at habsurd

/-- The session after `n` attempts to release a file. -/
def attempts (m : Model σ) (file : Handle) : Nat → Session σ → Session σ
  | 0, s => s
  | n + 1, s => ((releaseWorkingCopy m file).run (attempts m file n s)).2

/-- While its buffer is spent, **every attempt** to release a working copy takes a reference off it and changes
nothing else. The file stays registered all the while, without a reference in the end. By induction on the attempts:
none of them changes what the buffer has. -/
theorem attempts_of_isSpent (m : Model σ) (hid : s.store.copyOf? file = some id)
    (hc : s.store.copy? id = some c) (hspent : s.store.isSpent c.buffer = true) (n : Nat) :
    (∃ copies, attempts m file n s = { s with store := { s.store with copies } }) ∧
    (attempts m file n s).store.copy? id = some (c.dropping n) := by
  induction n with
  | zero => exact ⟨⟨s.store.copies, rfl⟩, hc⟩
  | succ n ih =>
    obtain ⟨⟨copies, hn⟩, hcopy⟩ := ih
    -- neither the registration nor the buffer has changed so far
    have hid' : (attempts m file n s).store.copyOf? file = some id := by
      rw [hn]
      exact hid
    have hspent' : (attempts m file n s).store.isSpent (c.dropping n).buffer = true := by
      rw [hn]
      exact hspent
    obtain ⟨error, store, hrefusal⟩ := Store.exists_refusal_of_isSpent hid' hcopy hspent'
    have hrun : (releaseWorkingCopy m file).run (attempts m file n s) =
        (.error error, { attempts m file n s with store }) :=
      run_releaseWorkingCopy_eq_error_iff.mpr ⟨store, hrefusal, rfl⟩
    have hsucc : attempts m file (n + 1) s = { attempts m file n s with store } := congrArg Prod.snd hrun
    rw [hsucc]
    refine ⟨⟨store.copies, ?_⟩, ?_⟩
    · rw [hrefusal.frame, hn]
    · show store.copy? id = some (c.dropping (n + 1))
      rw [hrefusal.copy? id, hcopy, Option.map_some, if_pos ⟨hid', hspent'⟩]
      rfl

theorem error_of_attempts (m : Model σ) (hid : s.store.copyOf? file = some id)
    (hc : s.store.copy? id = some c) (hspent : s.store.isSpent c.buffer = true) (n : Nat) :
    ∃ error, ((releaseWorkingCopy m file).run (attempts m file n s)).1 = .error error := by
  obtain ⟨⟨copies, hn⟩, hcopy⟩ := attempts_of_isSpent m hid hc hspent n
  rw [hn] at hcopy ⊢
  obtain ⟨error, store, hrefusal⟩ :=
    Store.exists_refusal_of_isSpent (s := { s.store with copies }) hid hcopy hspent
  exact ⟨error, congrArg Prod.fst (run_releaseWorkingCopy_eq_error_iff.mpr ⟨store, hrefusal, rfl⟩)⟩

/-- Where other owners let go of no more references than they took, a release fails only if the file is no
working copy, and nothing has changed then. -/
theorem Reached.release_eq_error {lex : Lexicon} {n : Nat} {k : Minutes σ} {s₀ : Session σ} {h : History σ n}
    (hs : Reached lex k s₀ h s) (hrun : (releaseWorkingCopy m file).run s = (.error error, t)) :
    error = .illegalState (.notWorkingCopy file) ∧ t = s := by
  have husable : ∀ {id c}, s.store.copyOf? file = some id → s.store.copy? id = some c →
      0 < c.refs ∧ 0 < (s.books k).refs c.buffer := by
    intro id c hid hc
    obtain ⟨c', hc', -, -, hrefs, -, hbuffer⟩ := (hs.kept.orderly.usable hs.kept.shared).registered hid
    obtain ⟨c'', hc'', rfl⟩ := Store.exists_of_books hc'
    obtain rfl := Option.some.inj (hc.symm.trans hc'')
    exact ⟨hrefs, hbuffer⟩
  obtain ⟨store, hrefusal, rfl⟩ := run_releaseWorkingCopy_eq_error_iff.mp hrun
  cases hrefusal with
  | unknown => exact ⟨rfl, rfl⟩
  | unreferenced hid hc hrefs =>
    have hpos := (husable hid hc).1
    omega
  | spent hid hc _ hb hspent =>
    have hpos := (husable hid hc).2
    simp only [Session.books, Store.books, hb, Option.elim_some, hspent] at hpos
    omega

/-! ## Other owners of a buffer -/

/-- Another owner of a buffer takes a reference. -/
def takeBuffer (i : BufferId) : Action σ Unit := modify fun s => { s with store := s.store.retainBuffer i }

/-- Another owner of a buffer lets a reference go, be it one that it never took. -/
def letBufferGo (i : BufferId) : Action σ Unit := modify fun s => { s with store := (s.store.releaseBuffer i).2 }

/-- Outside nothing happens but that other owners take references on buffers and let them go. -/
def Request.OnlyOwners {n : Nat} : Request σ n → Prop
  | .outside action => ∃ i, action = takeBuffer i ∨ action = letBufferGo i
  | _ => True

/-- The session that requests lead to. -/
def after {n : Nat} (m : Model σ) (rs : List (Request σ n)) (s : Session σ) : Session σ :=
  rs.foldl (fun s r => (serve m r s).2) s

namespace Stage

/-- A file becomes a working copy, and the other owner of its buffer lets go of a reference it never took. -/
def overdraft : List (Request Stage 2) :=
  [.start (Stage.file "a") ⟨0, Nat.zero_lt_two⟩ none false, .outside (letBufferGo 0)]

/-- The session after that. -/
def overdrawn : Session Stage := after model overdraft opening

/-- The session after an attempt to release the file. -/
def stranded : Session Stage := ((releaseWorkingCopy model (Stage.file "a")).run overdrawn).2

theorem run_releaseWorkingCopy_overdrawn :
    (releaseWorkingCopy model (Stage.file "a")).run overdrawn =
      (.error (.buffer (.notReferenced 0)), stranded) := rfl

end Stage

/-- The buffer refuses, and the reference on the working copy is gone, though the file is still registered and
pinned and has its body. -/
theorem refused_release_overdrawn :
    (releaseWorkingCopy Stage.model (Stage.file "a")).run Stage.overdrawn =
      (.error (.buffer (.notReferenced 0)), Stage.stranded) ∧
    (∃ copies, Stage.stranded = { Stage.overdrawn with store := { Stage.overdrawn.store with copies } }) ∧
    Stage.stranded.store.workingCopies = [Stage.file "a"] ∧
    Stage.stranded.store.cache.pinned = [Stage.file "a"] ∧
    Stage.stranded.store.isCached (Stage.file "a") = true ∧
    Stage.overdrawn.store.copies.map WorkingCopy.refs = [1] ∧
    Stage.stranded.store.copies.map WorkingCopy.refs = [0] := by
  have hrun := Stage.run_releaseWorkingCopy_overdrawn
  exact ⟨hrun, (refused_release hrun).1, by decide +kernel⟩

/-- A release that fails is **not without effect**: it may take the reference that it fails to drop. All it needs is
one other owner of the buffer that lets go of a reference which it never took. -/
theorem reference_lost : ¬ ∀ (m : Model Stage) (listeners : Listeners) (buffers : List Buffer)
    (rs : List (Request Stage buffers.length)) (file : Handle) (error : Error) (t : Session Stage),
    (∀ r ∈ rs, r.OnlyOwners) →
    (releaseWorkingCopy m file).run (after m rs (fresh {} {} listeners buffers)) = (.error error, t) →
    t.store.registry = (after m rs (fresh {} {} listeners buffers)).store.registry ∧
    t.store.copies.map WorkingCopy.refs =
      (after m rs (fresh {} {} listeners buffers)).store.copies.map WorkingCopy.refs ∧
    t.store.cache = (after m rs (fresh {} {} listeners buffers)).store.cache := by
  intro h
  have howners : ∀ r ∈ Stage.overdraft, r.OnlyOwners := by
    simp only [Stage.overdraft, List.mem_cons, List.not_mem_nil, or_false, forall_eq_or_imp, forall_eq]
    exact ⟨trivial, 0, .inr rfl⟩
  obtain ⟨-, hrefs, -⟩ := h Stage.model [("outline", .postChange)] [⟨0, ['x'], 0, 0⟩, ⟨1, [], 0, 0⟩]
    Stage.overdraft (Stage.file "a") (.buffer (.notReferenced 0)) Stage.stranded howners
    Stage.run_releaseWorkingCopy_overdrawn
  exact absurd hrefs (by decide +kernel)

end References

end CodeModel
