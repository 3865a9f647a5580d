import CodeModel.Text.Buffer

/-!
# Versions name texts

Two snapshots of one version of one buffer are taken for equal without a look at their texts. That is right
because of all that has happened to the buffer before.

* A buffer only ever **goes on**: its version grows, and a version has one text (`Later`). An empty change is
  no modification; every other success is one, even if the text stays the same.
* Of buffers that lie on one **shelf**, whatever is done to them, any two snapshots agree exactly if they show
  the same text, and no snapshot changes after it was taken (`Shelf.agrees_iff_text_eq`).
* The version of a buffer is the number of its modifications (`Shelf.version_run`), so a counter of 64 bits
  does as well for fewer than 2 ^ 64 of them.
-/

namespace CodeModel

/-! ## Buffers that go on -/

/-- The buffer `b` may become `b'` by edits, and by coming and going of its owners. That a version has one text is
part of it, and so it is kept through whatever happens to a buffer. -/
structure Later (b b' : Buffer) : Prop where
  /-- it stays the buffer it is -/
  id : b'.id = b.id
  /-- versions grow -/
  version : b.version ≤ b'.version
  /-- a version has one text -/
  text : b'.version = b.version → b'.text = b.text

theorem Later.refl (b : Buffer) : Later b b := ⟨rfl, Nat.le_refl _, fun _ => rfl⟩

/-- A buffer goes on from where it has gone to: where its version is the same at the end, it was the same in
between. -/
theorem Later.trans {b b' b'' : Buffer} (h : Later b b') (k : Later b' b'') : Later b b'' := by
  refine ⟨k.id.trans h.id, Nat.le_trans h.version k.version, fun heq => ?_⟩
  have hmid : b'.version = b.version := Nat.le_antisymm (heq ▸ k.version) h.version
  rw [k.text (heq.trans hmid.symm), h.text hmid]

theorem later_setText (b : Buffer) (text : Text) : Later b (b.setText text) := by
  refine ⟨rfl, Nat.le_succ _, fun h => ?_⟩
  have hne : b.version + 1 ≠ b.version := Nat.succ_ne_self _
  exact absurd h hne

/-- **A change that is accepted** makes a new version, unless it is empty. -/
theorem Buffer.applyChange_eq_ok {b b' : Buffer} {change : Change} (h : b.applyChange change = .ok b') :
    b' = if change.edits.isEmpty then b else b.setText (change.apply b.text) := by
  have hedit : Buffer.applyChange.edit b change = .ok b' := by
    rw [Buffer.applyChange] at h
    split at h
    · split at h
      · exact h
      · cases h
    · exact h
  rw [Buffer.applyChange.edit] at hedit
  rcases hv : change.validate b.text.length with error | _
  · rw [hv] at hedit
    cases hedit
  · rw [hv] at hedit
    by_cases hempty : change.edits.isEmpty = true
    · rw [if_pos hempty] at hedit ⊢
      cases hedit
      rfl
    · rw [if_neg hempty] at hedit ⊢
      cases hedit
      rfl

/-- A change that is accepted lets the buffer go on: the version is the next one, or text and version are as they
were. -/
theorem later_applyChange {b b' : Buffer} {change : Change} (h : b.applyChange change = .ok b') :
    Later b b' := by
  rw [Buffer.applyChange_eq_ok h]
  split
  · exact Later.refl b
  · exact later_setText b _

theorem later_retain (b : Buffer) : Later b b.retain := ⟨rfl, Nat.le_refl _, fun _ => rfl⟩

theorem later_release {b b' : Buffer} (h : b.release = .ok b') : Later b b' := by
  rw [Buffer.release] at h
  split at h
  · cases h
  · cases h
    exact ⟨rfl, Nat.le_refl _, fun _ => rfl⟩

/-- The snapshot as it is with a counter of 64 bits for the versions. -/
def Snapshot.wrapped (s : Snapshot) : Snapshot := { s with version := s.version % UInt64.size }

/-! ## The shelf -/

/-- Buffers under edit, and the snapshots that were taken of them. -/
structure Shelf where
  /-- The buffers, by number. -/
  buffers : List Buffer := []
  /-- The snapshots, in the order in which they were taken. -/
  taken : List Snapshot := []

namespace Shelf

/-- What can be done at the shelf; buffers go by their numbers. -/
inductive Task where
  /-- Put a new buffer up. -/
  | create (text : Text)
  /-- Apply a change. -/
  | change (id : BufferId) (c : Change)
  /-- Replace the whole text. -/
  | setText (id : BufferId) (text : Text)
  /-- Register an owner. -/
  | retain (id : BufferId)
  /-- Let an owner go. -/
  | release (id : BufferId)
  /-- Take a snapshot. -/
  | snapshot (id : BufferId)
  /-- Take a snapshot of a text that belongs to no buffer. -/
  | detached (text : Text)

/-- The shelf after a step of one buffer; a step that is refused has no effect. -/
def revise (s : Shelf) (id : BufferId) (step : Buffer → Except BufferError Buffer) : Shelf :=
  { s with buffers := s.buffers.modify id fun b => (step b).toOption.getD b }

/-- Does one task. -/
def perform (s : Shelf) : Task → Shelf
  | .create text => { s with buffers := s.buffers ++ [{ id := s.buffers.length, text }] }
  | .change id c => s.revise id (·.applyChange c)
  | .setText id text => s.revise id fun b => .ok (b.setText text)
  | .retain id => s.revise id fun b => .ok b.retain
  | .release id => s.revise id Buffer.release
  | .snapshot id => { s with taken := s.taken ++ (s.buffers[id]?.map Buffer.snapshot).toList }
  | .detached text => { s with taken := s.taken ++ [.detached text] }

/-- Does one task after the other. -/
def run (tasks : List Task) (s : Shelf) : Shelf := tasks.foldl perform s

/-- The task modifies the buffer: the buffer takes a text that is set, or a change that has edits. -/
def Task.modifies (s : Shelf) (id : BufferId) : Task → Bool
  | .setText i _ => i == id && s.buffers[id]?.isSome
  | .change i c => i == id && !c.edits.isEmpty && s.buffers[id]?.any fun b => (b.applyChange c).isOk
  | _ => false

/-- How often the tasks modify a buffer. -/
def modifications (id : BufferId) : List Task → Shelf → Nat
  | [], _ => 0
  | t :: ts, s => (t.modifies s id).toNat + modifications id ts (s.perform t)

/-- The version of a buffer; 0 as long as it is not there. -/
def version (s : Shelf) (id : BufferId) : Nat := (s.buffers[id]?.map Buffer.version).getD 0

variable {s : Shelf} {t : Task} {ts : List Task} {id : BufferId} {b : Buffer}
  {step : Buffer → Except BufferError Buffer}

/-- A step of one buffer leaves the others alone, and this one as well if the step fails. -/
theorem getElem?_revise (s : Shelf) (id i : BufferId) (step : Buffer → Except BufferError Buffer) :
    (s.revise id step).buffers[i]? =
      s.buffers[i]?.map fun b => if id = i then (step b).toOption.getD b else b := by
  rw [revise, List.getElem?_modify]
  rcases s.buffers[i]? with _ | b
  · rfl
  · by_cases h : id = i <;> simp [h]

theorem run_append (ts us : List Task) (s : Shelf) : run (ts ++ us) s = run us (run ts s) :=
  List.foldl_append

/-! ## Versions count modifications -/

theorem version_revise (s : Shelf) (id i : BufferId) (step : Buffer → Except BufferError Buffer) :
    (s.revise id step).version i =
      (s.buffers[i]?.map fun b => if id = i then ((step b).toOption.getD b).version else b.version).getD 0 := by
  rw [version, getElem?_revise]
  rcases s.buffers[i]? with _ | b
  · rfl
  · by_cases h : id = i <;> simp [h]

/-- A step that keeps the versions modifies nothing. -/
theorem version_revise_of_eq (hstep : ∀ b, ((step b).toOption.getD b).version = b.version) (i : BufferId) :
    (s.revise id step).version i = s.version i := by
  rw [version_revise, version]
  simp only [hstep, ite_self]

/-- **One task** counts one up exactly if it modifies the buffer. So versions are counts of modifications, and
nothing else moves them. -/
theorem version_perform (s : Shelf) (t : Task) (i : BufferId) :
    (s.perform t).version i = s.version i + (t.modifies s i).toNat := by
  cases t with
  | create text =>
    -- a new buffer has version 0, like one that is not there
    simp only [perform, version, Task.modifies, Bool.toNat_false, Nat.add_zero, List.getElem?_append]
    split
    · rfl
    · rename_i h
      rw [List.getElem?_eq_none (Nat.le_of_not_lt h)]
      rcases i - s.buffers.length with _ | n <;> rfl
  | change id c =>
    rw [perform, version_revise, version, Task.modifies]
    rcases hb : s.buffers[i]? with _ | b
    · simp
    · by_cases hi : id = i
      · rcases happly : b.applyChange c with error | b'
        · simp [happly, Except.toOption, Except.isOk, Except.toBool]
        · rcases hempty : c.edits.isEmpty <;>
            simp [happly, hi, Except.toOption, Except.isOk, Except.toBool, hempty,
              Buffer.applyChange_eq_ok happly, Buffer.setText]
      · simp [hi]
  | setText id text =>
    rw [perform, version_revise, version, Task.modifies]
    rcases hb : s.buffers[i]? with _ | b
    · simp
    · by_cases hi : id = i <;> simp [hi, Except.toOption, Buffer.setText]
  | retain id => exact version_revise_of_eq (fun b => rfl) i
  | release id =>
    refine version_revise_of_eq (fun b => ?_) i
    rw [Buffer.release]
    split <;> rfl
  | snapshot id => rfl
  | detached text => rfl

/-- **The version** of a buffer is the number of its modifications, by induction on the tasks. So it can be told
from what was done, without the buffer. -/
theorem version_run (ts : List Task) (s : Shelf) (i : BufferId) :
    (run ts s).version i = s.version i + modifications i ts s := by
  induction ts generalizing s with
  | nil => rfl
  | cons t ts ih =>
    rw [show run (t :: ts) s = run ts (s.perform t) from rfl, ih, version_perform, modifications,
      Nat.add_assoc]

/-- There are no more modifications than tasks. -/
theorem modifications_le_length (i : BufferId) (ts : List Task) (s : Shelf) :
    modifications i ts s ≤ ts.length := by
  induction ts generalizing s with
  | nil => exact Nat.le_refl _
  | cons t ts ih =>
    have hrest := ih (s.perform t)
    have hone : (t.modifies s i).toNat ≤ 1 := Bool.toNat_le _
    rw [modifications, List.length_cons]
    omega

/-! ## Snapshots stay true -/

/-- The snapshot was taken of a buffer on the shelf, at this moment or before. -/
def Recalls (s : Shelf) (sn : Snapshot) : Prop :=
  ∃ b b' : Buffer, sn = b.snapshot ∧ s.buffers[b.id]? = some b' ∧ Later b b'

/-- What holds of the shelf at every moment. The middle part connects each snapshot with its buffer as it is now,
which may have gone on; the last one follows from it whenever a snapshot is taken. -/
structure Truthful (s : Shelf) : Prop where
  /-- buffers know their numbers -/
  numbered : ∀ (i : BufferId) (b : Buffer), s.buffers[i]? = some b → b.id = i
  /-- snapshots are of buffers of the shelf, or of none -/
  recalls : ∀ sn ∈ s.taken, sn.origin = none ∨ s.Recalls sn
  /-- a version of a buffer has one text -/
  single : ∀ sn ∈ s.taken, ∀ sn' ∈ s.taken, sn.sameVersion sn' = true → sn.text = sn'.text

/-- Snapshots are of one version if they were taken of one buffer at one version. -/
theorem sameVersion_iff (sn sn' : Snapshot) :
    sn.sameVersion sn' = true ↔
      sn.origin.isSome = true ∧ sn.origin = sn'.origin ∧ sn.version = sn'.version := by
  simp [Snapshot.sameVersion, and_assoc]

/-- It does not matter which of two snapshots is asked, as both have to come from one buffer and have one version.
-/
theorem sameVersion_comm (sn sn' : Snapshot) : sn.sameVersion sn' = sn'.sameVersion sn := by
  rw [Bool.eq_iff_iff, sameVersion_iff, sameVersion_iff]
  constructor <;> exact fun ⟨h, ho, hv⟩ => ⟨ho ▸ h, ho.symm, hv.symm⟩

/-- A step of one buffer leaves all snapshots true. The text of an earlier version is not affected, and the present
one is not changed without a new version. -/
theorem Truthful.revise (h : s.Truthful) (id : BufferId) (hstep : ∀ b b', step b = .ok b' → Later b b') :
    (s.revise id step).Truthful := by
  have hlater : ∀ (i : BufferId) (b : Buffer), s.buffers[i]? = some b →
      ∃ b', (s.revise id step).buffers[i]? = some b' ∧ Later b b' := by
    intro i b hb
    have hstep' : Later b ((step b).toOption.getD b) := by
      rcases hok : step b with error | b'
      · exact Later.refl b
      · exact hstep b b' hok
    refine ⟨if id = i then (step b).toOption.getD b else b, by rw [getElem?_revise, hb, Option.map_some], ?_⟩
    split
    · exact hstep'
    · exact Later.refl b
  refine ⟨fun i b hb => ?_, fun sn hsn => ?_, h.single⟩
  · rw [getElem?_revise] at hb
    obtain ⟨b₀, hb₀, -⟩ := Option.map_eq_some_iff.mp hb
    obtain ⟨b', hb', hl⟩ := hlater i b₀ hb₀
    rw [getElem?_revise] at hb'
    obtain rfl := Option.some.inj (hb.symm.trans hb')
    exact hl.id.trans (h.numbered i b₀ hb₀)
  · refine (h.recalls sn hsn).imp_right fun ⟨b, b', hb, hb', hl⟩ => ?_
    obtain ⟨b'', hb'', hl'⟩ := hlater _ b' hb'
    exact ⟨b, b'', hb, hb'', hl.trans hl'⟩

/-- **A snapshot of the moment** has the text of every earlier one of its version: the buffer has gone on from the
earlier one, and as its version is the same, so is its text. -/
theorem Truthful.text_of_sameVersion {sn : Snapshot} (h : s.Truthful) (hb : s.buffers[id]? = some b)
    (hsn : sn ∈ s.taken) (hsame : b.snapshot.sameVersion sn = true) : b.snapshot.text = sn.text := by
  obtain ⟨-, horigin, hversion⟩ := (sameVersion_iff _ _).mp hsame
  rcases h.recalls sn hsn with hnone | ⟨b₀, b', rfl, hb', hlater⟩
  · rw [hnone] at horigin
    cases horigin
  · have hid : b.id = b₀.id := Option.some.inj horigin
    have hb₀ : s.buffers[b₀.id]? = some b := by rw [← hid, h.numbered id b hb, hb]
    obtain rfl := Option.some.inj (hb'.symm.trans hb₀)
    exact hlater.text hversion

/-- One more snapshot, of a buffer of the shelf or of none. -/
theorem Truthful.take (h : s.Truthful) {sn : Snapshot}
    (hsn : sn.origin = none ∨ ∃ (id : BufferId) (b : Buffer), s.buffers[id]? = some b ∧ sn = b.snapshot) :
    ({ s with taken := s.taken ++ [sn] } : Shelf).Truthful := by
  have hnew : ∀ sn' ∈ s.taken, sn.sameVersion sn' = true → sn.text = sn'.text := by
    intro sn' hsn' hsame
    rcases hsn with hnone | ⟨id, b, hb, rfl⟩
    · rw [sameVersion_iff, hnone] at hsame
      cases hsame.1
    · exact h.text_of_sameVersion hb hsn' hsame
  refine ⟨h.numbered, fun sn' hsn' => ?_, fun sn₁ h₁ sn₂ h₂ hsame => ?_⟩
  · rcases List.mem_append.mp hsn' with hsn' | hsn'
    · exact h.recalls sn' hsn'
    · obtain rfl := List.mem_singleton.mp hsn'
      refine hsn.imp_right fun ⟨id, b, hb, hbs⟩ => ⟨b, b, hbs, ?_, Later.refl b⟩
      rw [h.numbered id b hb, hb]
  · -- two earlier ones, or the new one with an earlier one on either side
    rcases List.mem_append.mp h₁ with hold₁ | hnew₁ <;> rcases List.mem_append.mp h₂ with hold₂ | hnew₂
    · exact h.single sn₁ hold₁ sn₂ hold₂ hsame
    · obtain rfl := List.mem_singleton.mp hnew₂
      exact (hnew sn₁ hold₁ (sameVersion_comm sn₁ sn₂ ▸ hsame)).symm
    · obtain rfl := List.mem_singleton.mp hnew₁
      exact hnew sn₂ hold₂ hsame
    · rw [List.mem_singleton.mp hnew₁, List.mem_singleton.mp hnew₂]

/-- **Every task** leaves the shelf truthful: buffers go on, and a snapshot that is taken agrees with those before.
-/
theorem Truthful.perform (h : s.Truthful) (t : Task) : (s.perform t).Truthful := by
  cases t with
  | create text =>
    refine ⟨fun i b hb => ?_, fun sn hsn => ?_, h.single⟩
    · rw [Shelf.perform, List.getElem?_append] at hb
      split at hb
      · exact h.numbered i b hb
      · rename_i hi
        obtain ⟨hlt, rfl⟩ := List.getElem?_eq_some_iff.mp hb
        have hle : i ≤ s.buffers.length := Nat.sub_eq_zero_iff_le.mp (Nat.lt_one_iff.mp hlt)
        have hlast : i = s.buffers.length := Nat.le_antisymm hle (Nat.le_of_not_lt hi)
        simp [hlast]
    · refine (h.recalls sn hsn).imp_right fun ⟨b, b', hb, hb', hl⟩ => ⟨b, b', hb, ?_, hl⟩
      rw [Shelf.perform, List.getElem?_append_left (List.getElem?_eq_some_iff.mp hb').1]
      exact hb'
  | change id c => exact h.revise id fun b b' => later_applyChange
  | setText id text =>
    refine h.revise id fun b b' hb => ?_
    obtain rfl := Except.ok.inj hb
    exact later_setText b text
  | retain id =>
    refine h.revise id fun b b' hb => ?_
    obtain rfl := Except.ok.inj hb
    exact later_retain b
  | release id => exact h.revise id fun b b' => later_release
  | snapshot id =>
    rw [Shelf.perform]
    rcases hb : s.buffers[id]? with _ | b
    · simpa using h
    · exact h.take (.inr ⟨id, b, hb, rfl⟩)
  | detached text => exact h.take (.inl rfl)

theorem Truthful.run (h : s.Truthful) (ts : List Task) : (Shelf.run ts s).Truthful := by
  induction ts generalizing s with
  | nil => exact h
  | cons t ts ih => exact ih (h.perform t)

theorem taken_perform (s : Shelf) (t : Task) : s.taken <+: (s.perform t).taken := by
  cases t with
  | snapshot id => exact List.prefix_append ..
  | detached text => exact List.prefix_append ..
  | create text => exact List.prefix_rfl
  | change id c => exact List.prefix_rfl
  | setText id text => exact List.prefix_rfl
  | retain id => exact List.prefix_rfl
  | release id => exact List.prefix_rfl

/-- **Snapshots stay** as they were taken, and where they were put: tasks only ever add to what was taken, so each
snapshot keeps its place in the list. -/
theorem taken_run (ts : List Task) (s : Shelf) : s.taken <+: (run ts s).taken := by
  induction ts generalizing s with
  | nil => exact List.prefix_rfl
  | cons t ts ih => exact (taken_perform s t).trans (ih _)

/-- Snapshots agree exactly if they show the same text. Where the shortcut by versions is taken, one version of one
buffer has one text. -/
theorem Truthful.agrees_iff {sn sn' : Snapshot} (h : s.Truthful) (hsn : sn ∈ s.taken) (hsn' : sn' ∈ s.taken) :
    sn.agrees sn' = true ↔ sn.text = sn'.text := by
  rw [Snapshot.agrees, Bool.or_eq_true, beq_iff_eq]
  exact or_iff_right_of_imp (h.single sn hsn sn' hsn')

/-- A snapshot has no higher version than its buffer, which only goes on to later ones. -/
theorem Truthful.version_le {sn : Snapshot} {id : BufferId} (h : s.Truthful) (hsn : sn ∈ s.taken)
    (ho : sn.origin = some id) : sn.version ≤ s.version id := by
  rcases h.recalls sn hsn with hnone | ⟨b, b', rfl, hb', hlater⟩
  · rw [hnone] at ho
    cases ho
  · obtain rfl : b.id = id := Option.some.inj ho
    rw [version, hb']
    exact hlater.version

/-- A counter of 64 bits has the versions of snapshots right, as long as no buffer is modified too often. -/
theorem Truthful.wrapped_eq {sn : Snapshot} (h : s.Truthful) (hcount : ∀ id, s.version id < UInt64.size)
    (hsn : sn ∈ s.taken) (ho : sn.origin.isSome = true) : sn.wrapped = sn := by
  obtain ⟨id, ho⟩ := Option.isSome_iff_exists.mp ho
  rw [Snapshot.wrapped, Nat.mod_eq_of_lt (Nat.lt_of_le_of_lt (h.version_le hsn ho) (hcount id))]

/-- So snapshots agree with such a counter if they do without; those that belong to no buffer are not compared
by their versions. -/
theorem Truthful.agrees_wrapped {sn sn' : Snapshot} (h : s.Truthful)
    (hcount : ∀ id, s.version id < UInt64.size) (hsn : sn ∈ s.taken) (hsn' : sn' ∈ s.taken) :
    sn.wrapped.agrees sn'.wrapped = sn.agrees sn' := by
  have hsame : sn.wrapped.sameVersion sn'.wrapped = sn.sameVersion sn' := by
    by_cases ho : sn.origin.isSome = true
    · by_cases ho' : sn'.origin.isSome = true
      · rw [h.wrapped_eq hcount hsn ho, h.wrapped_eq hcount hsn' ho']
      · have hne : (sn.origin == sn'.origin) = false := beq_eq_false_iff_ne.mpr fun heq => ho' (heq ▸ ho)
        simp [Snapshot.sameVersion, Snapshot.wrapped, hne]
    · simp [Snapshot.sameVersion, Snapshot.wrapped, ho]
  rw [Snapshot.agrees, hsame]
  rfl

/-- **Snapshots agree exactly if they show the same text**, whatever was done before and between, and also with a
counter of 64 bits for fewer than 2 ^ 64 modifications. And every snapshot still is what the buffer was when it was
taken. The comparison looks at texts only where versions do not decide, and where they do they decide rightly, since
a version of a buffer has one text. -/
theorem agrees_iff_text_eq {tasks : List Task} (hcount : ∀ id, modifications id tasks {} < UInt64.size) :
    (∀ s ∈ (run tasks {}).taken, ∀ t ∈ (run tasks {}).taken,
      (s.agrees t = true ↔ s.text = t.text) ∧ (s.wrapped.agrees t.wrapped = true ↔ s.text = t.text)) ∧
    ∀ before id after b, tasks = before ++ .snapshot id :: after → (run before {}).buffers[id]? = some b →
      (run tasks {}).taken[(run before {}).taken.length]? = some b.snapshot := by
  have hempty : ({} : Shelf).Truthful := ⟨by simp, by simp, by simp⟩
  have htruthful : (run tasks {}).Truthful := hempty.run tasks
  have hversion : ∀ id, (run tasks {}).version id < UInt64.size := by
    intro id
    rw [version_run, show version {} id = 0 from rfl, Nat.zero_add]
    exact hcount id
  refine ⟨fun s hs t ht => ⟨htruthful.agrees_iff hs ht, ?_⟩, ?_⟩
  · rw [htruthful.agrees_wrapped hversion hs ht]
    exact htruthful.agrees_iff hs ht
  · rintro before id after b rfl hb
    have htaken : ((run before {}).perform (.snapshot id)).taken = (run before {}).taken ++ [b.snapshot] := by
      rw [perform, hb]
      rfl
    obtain ⟨rest, hrest⟩ := taken_run after ((run before {}).perform (.snapshot id))
    rw [run_append, show run (.snapshot id :: after) (run before {}) =
      run after ((run before {}).perform (.snapshot id)) from rfl, ← hrest, htaken]
    simp

/-- A change that puts back what was there, an empty one and a stale one: four snapshots, of which the first
and the third show one text and have different versions, and the third and the fourth have one version. -/
theorem agrees_iff_text_eq_put_back :
    let tasks : List Task :=
      [.create ['a'], .snapshot 0, .change 0 ⟨[.insertion 1 ['b']], none⟩, .snapshot 0, .setText 0 ['a'],
        .snapshot 0, .change 0 ⟨[], none⟩, .change 0 ⟨[.deletion 0 1], some 1⟩, .snapshot 0]
    (∀ id, modifications id tasks {} < UInt64.size) ∧
      (run tasks {}).taken.map (·.version) = [0, 1, 2, 2] ∧
      (∀ s ∈ (run tasks {}).taken, ∀ t ∈ (run tasks {}).taken, s.agrees t = true ↔ s.text = t.text) ∧
      (run tasks {}).taken[0]? = some ⟨some 0, 0, ['a']⟩ := by
  intro tasks
  have hcount : ∀ id, modifications id tasks {} < UInt64.size := fun id =>
    Nat.lt_of_le_of_lt (modifications_le_length id tasks {}) (by decide)
  obtain ⟨hagrees, htaken⟩ := agrees_iff_text_eq hcount
  exact ⟨hcount, by decide, fun s hs t ht => (hagrees s hs t ht).1,
    htaken [.create ['a']] 0 _ ⟨0, ['a'], 0, 0⟩ rfl (by decide)⟩

end Shelf

end CodeModel
