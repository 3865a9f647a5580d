import CodeModel.Proofs.Text.Versions

/-!
# Changes are simultaneous

The edits of a change all speak of the text as it was before. They are carried out back to front, and there are
two other ways to come to the same text.

* **Side by side**: the stretches that no edit touches and the replacements between them, put together in the
  order of the edits (`Change.apply_eq_flatten`). So insertions at one place stay in order
  (`Change.flatten_insertions`).
* **Front to back**, each edit moved by what the edits before it have put in and taken out
  (`Change.applyForward_eq_flatten`).

A change is accepted exactly if it speaks of the present version and its edits are in order and within the text;
a change that is refused leaves no trace (`Shelf.change_simultaneous`).
-/

namespace CodeModel

namespace Change

variable {b : Buffer} {c : Change} {e : Edit} {edits rest : List Edit} {t done : Text}
  {length seen added removed offset : Nat}

/-! ## Acceptance -/

/-- **The change goes with the buffer.** -/
structure Accepted (c : Change) (b : Buffer) : Prop where
  /-- it speaks of the present version, if of any -/
  base : ∀ v, c.base = some v → v = b.version
  /-- every edit is a stretch of the text -/
  bounded : ∀ e ∈ c.edits, e.start ≤ e.stop ∧ e.stop ≤ b.text.length
  /-- no edit starts before the end of an earlier one -/
  ordered : c.edits.Pairwise fun e f => e.stop ≤ f.start

/-- Validation asks for what is asked of each two edits by asking it of neighbours. That is enough, as every edit
ends where it starts or later. -/
theorem validateFrom_eq_ok_iff :
    validateFrom length seen edits = .ok () ↔
      (∀ e ∈ edits, seen ≤ e.start) ∧ (∀ e ∈ edits, e.start ≤ e.stop ∧ e.stop ≤ length) ∧
        edits.Pairwise fun e f => e.stop ≤ f.start := by
  induction edits generalizing seen with
  | nil => simp [validateFrom]
  | cons e rest ih =>
    rw [validateFrom_cons_eq_ok_iff, ih, List.pairwise_cons, List.forall_mem_cons, List.forall_mem_cons]
    constructor
    · rintro ⟨hseen, hle, hlen, hstop, hbounded, hordered⟩
      refine ⟨⟨hseen, fun f hf => ?_⟩, ⟨⟨hle, hlen⟩, hbounded⟩, hstop, hordered⟩
      -- what lies behind this edit lies behind what was seen before it
      exact Nat.le_trans hseen (Nat.le_trans hle (hstop f hf))
    · rintro ⟨⟨hseen, -⟩, ⟨⟨hle, hlen⟩, hbounded⟩, hstop, hordered⟩
      exact ⟨hseen, hle, hlen, hstop, hbounded, hordered⟩

/-- A change is valid if its edits are stretches of the text and in order. -/
theorem validate_eq_ok_iff :
    c.validate length = .ok () ↔
      (∀ e ∈ c.edits, e.start ≤ e.stop ∧ e.stop ≤ length) ∧ c.edits.Pairwise fun e f => e.stop ≤ f.start := by
  rw [validate, validateFrom_eq_ok_iff]
  exact and_iff_right fun e _ => Nat.zero_le _

/-! ## Side by side -/

/-- The stretches of a text that the edits leave, from the position that was seen last, and the replacements
between them. -/
def pieces (t : Text) : Nat → List Edit → List Text
  | seen, [] => [t.drop seen]
  | seen, e :: rest => (t.take e.start).drop seen :: e.replacement :: pieces t e.stop rest

theorem take_append_drop_take {a n : Nat} (h : a ≤ n) (t : Text) : t.take a ++ (t.take n).drop a = t.take n := by
  have htake : t.take a = (t.take n).take a := by rw [List.take_take, Nat.min_eq_left h]
  rw [htake, List.take_append_drop]

/-- **Back to front** one comes to the pieces side by side. By induction on the edits: the later ones are carried
out first and do not reach the text in front of them, so positions still are those of the text as it was. -/
theorem apply_eq_flatten (base : Option Nat) (h : validateFrom t.length seen edits = .ok ()) :
    apply ⟨edits, base⟩ t = t.take seen ++ (pieces t seen edits).flatten := by
  induction edits generalizing seen with
  | nil => simp [pieces]
  | cons e rest ih =>
    obtain ⟨hseen, hle, hlen, hrest⟩ := (validateFrom_cons_eq_ok_iff ..).mp h
    have hfront : (t.take e.stop).length = e.stop := List.length_take_of_le hlen
    -- the edits behind this one leave the text up to its end alone
    have htake : (t.take e.stop ++ (pieces t e.stop rest).flatten).take e.start = t.take e.start := by
      rw [List.take_append_of_le_length (by omega), List.take_take, Nat.min_eq_left hle]
    have hdrop : (t.take e.stop ++ (pieces t e.stop rest).flatten).drop e.stop =
        (pieces t e.stop rest).flatten := List.drop_left' hfront
    rw [apply_cons, ih hrest, Edit.splice, htake, hdrop, pieces, List.flatten_cons, List.flatten_cons,
      ← List.append_assoc (t.take seen), take_append_drop_take hseen, List.append_assoc]

/-- **Insertions at one place** stay in order, though they are carried out back to front. -/
theorem flatten_insertions (t : Text) (texts : List Text) (h : seen ≤ offset) :
    (pieces t seen (texts.map (Edit.insertion offset))).flatten =
      if texts.isEmpty then t.drop seen else (t.take offset).drop seen ++ (texts.flatten ++ t.drop offset) := by
  induction texts generalizing seen with
  | nil => simp [pieces]
  | cons text texts ih =>
    have hempty : (t.take offset).drop offset = [] :=
      List.drop_eq_nil_of_le (List.length_take_le offset t)
    rw [List.map_cons, pieces, List.flatten_cons, List.flatten_cons,
      show (Edit.insertion offset text).stop = offset from rfl, ih (Nat.le_refl offset)]
    cases texts with
    | nil => simp [Edit.insertion]
    | cons text' texts => simp [Edit.insertion, hempty]

/-! ## Front to back -/

/-- The edit moved by what has been put in and taken out in front of it. -/
def moved (added removed : Nat) (e : Edit) : Edit :=
  { e with start := e.start + added - removed, stop := e.stop + added - removed }

/-- Carries out the edits front to back, when so many characters have been put in and taken out already. -/
def applyForward (added removed : Nat) : List Edit → Text → Text
  | [], t => t
  | e :: rest, t =>
    applyForward (added + e.replacement.length) (removed + (e.stop - e.start)) rest
      ((moved added removed e).splice t)

/-- **Front to back** one comes to the pieces side by side as well: what is done stays in front of what is left of
the text, and how far it reaches is told by what has been put in and taken out. -/
theorem applyForward_eq_flatten (h : validateFrom t.length seen edits = .ok ())
    (hdone : done.length + removed = seen + added) :
    applyForward added removed edits (done ++ t.drop seen) = done ++ (pieces t seen edits).flatten := by
  induction edits generalizing seen added removed done with
  | nil => simp [applyForward, pieces]
  | cons e rest ih =>
    obtain ⟨hseen, hle, hlen, hrest⟩ := (validateFrom_cons_eq_ok_iff ..).mp h
    have hstart : e.start + added - removed = done.length + (e.start - seen) := by omega
    have hstop : e.stop + added - removed = done.length + (e.stop - seen) := by omega
    have hstretch : (t.drop seen).take (e.start - seen) = (t.take e.start).drop seen := List.drop_take.symm
    have hspliced : (moved added removed e).splice (done ++ t.drop seen) =
        (done ++ (t.take e.start).drop seen ++ e.replacement) ++ t.drop e.stop := by
      rw [Edit.splice, moved, hstart, hstop, List.take_length_add_append, List.drop_length_add_append,
        hstretch, List.drop_drop, Nat.add_sub_cancel' (Nat.le_trans hseen hle)]
    have hlength : ((t.take e.start).drop seen).length = e.start - seen := by
      rw [List.length_drop, List.length_take_of_le (Nat.le_trans hle hlen)]
    rw [applyForward, hspliced, ih hrest (by simp only [List.length_append, hlength]; omega), pieces,
      List.flatten_cons, List.flatten_cons, List.append_assoc, List.append_assoc]

end Change

/-! ## Changes of a buffer -/

namespace Buffer

variable {b b' : Buffer} {c : Change}

/-- Once the version is right it is the edits that decide: they are validated against the text, and an empty change
leaves even the version as it is. -/
theorem applyChange_of_base (h : ∀ v, c.base = some v → v = b.version) :
    b.applyChange c =
      (c.validate b.text.length).map fun _ => if c.edits.isEmpty then b else b.setText (c.apply b.text) := by
  have hedit : b.applyChange c = applyChange.edit b c := by
    rw [applyChange]
    rcases hbase : c.base with _ | v
    · rfl
    · exact if_pos (h v hbase)
  rw [hedit, applyChange.edit]
  rcases c.validate b.text.length with _ | _
  · rfl
  · cases c.edits.isEmpty <;> rfl

/-- **A change that goes with the buffer** is carried out, and makes a new version unless it has no edits. -/
theorem applyChange_of_accepted (h : c.Accepted b) :
    b.applyChange c = .ok (if c.edits.isEmpty then b else b.setText (c.apply b.text)) := by
  rw [applyChange_of_base h.base, Change.validate_eq_ok_iff.mpr ⟨h.bounded, h.ordered⟩]
  rfl

/-- **No other change** is carried out: each of the checks that are made before asks for a part of what it means to
go with the buffer. -/
theorem accepted_of_applyChange (h : b.applyChange c = .ok b') : c.Accepted b := by
  have hbase : ∀ v, c.base = some v → v = b.version := by
    intro v hv
    rw [applyChange, hv] at h
    exact Classical.byContradiction fun hne => by simp [if_neg hne] at h
  rw [applyChange_of_base hbase] at h
  rcases hvalid : c.validate b.text.length with _ | _
  · rw [hvalid] at h
    cases h
  · obtain ⟨hbounded, hordered⟩ := Change.validate_eq_ok_iff.mp hvalid
    exact ⟨hbase, hbounded, hordered⟩

/-- A change is accepted exactly if it goes with the buffer, that is if its base is the current version and its
edits are in order and within the text. -/
theorem isOk_applyChange_iff : (b.applyChange c).isOk = true ↔ c.Accepted b := by
  constructor
  · intro h
    rcases happly : b.applyChange c with _ | b'
    · rw [happly] at h
      cases h
    · exact accepted_of_applyChange happly
  · intro h
    rw [applyChange_of_accepted h]
    rfl

end Buffer

namespace Shelf

open Change

variable {s : Shelf} {id : BufferId} {b b' : Buffer} {c : Change}

/-- A change of one buffer, refused or not, is about that buffer alone. -/
theorem perform_change (hb : s.buffers[id]? = some b) (c : Change) :
    s.perform (.change id c) =
      { s with buffers := s.buffers.set id ((b.applyChange c).toOption.getD b) } := by
  obtain ⟨hid, hbuffer⟩ := List.getElem?_eq_some_iff.mp hb
  have hset : (s.revise id (·.applyChange c)).buffers =
      s.buffers.set id ((b.applyChange c).toOption.getD b) := by
    refine List.ext_getElem? fun i => ?_
    rw [getElem?_revise, List.getElem?_set]
    by_cases hi : id = i
    · subst hi
      simp [hid, hbuffer]
    · simp [hi]
  rw [perform, ← hset]
  rfl

theorem set_self (hb : s.buffers[id]? = some b) : { s with buffers := s.buffers.set id b } = s := by
  obtain ⟨hid, rfl⟩ := List.getElem?_eq_some_iff.mp hb
  rw [List.set_getElem_self hid]

/-- **A change is simultaneous and atomic.** It is accepted exactly if it goes with the buffer; the text is then
that of the pieces side by side, and that of the edits one after the other, and the version grows by one, unless
there is no edit. A change that is refused leaves the whole shelf as it was. The pieces refer to the text as it was
before, so no edit can see what another one has done. -/
theorem change_simultaneous (hb : s.buffers[id]? = some b) (c : Change) :
    ((b.applyChange c).isOk = true ↔ c.Accepted b) ∧
    (c.Accepted b → c.edits ≠ [] →
      (∃ b', b.applyChange c = .ok b' ∧ s.perform (.change id c) = { s with buffers := s.buffers.set id b' } ∧
        b'.text = (pieces b.text 0 c.edits).flatten ∧ b'.version = b.version + 1 ∧ b'.refs = b.refs ∧
        b'.id = b.id) ∧
      applyForward 0 0 c.edits b.text = (pieces b.text 0 c.edits).flatten ∧
      ∀ offset (texts : List Text), c.edits = texts.map (Edit.insertion offset) →
        (pieces b.text 0 c.edits).flatten = b.text.take offset ++ (texts.flatten ++ b.text.drop offset)) ∧
    (c.Accepted b → c.edits = [] → b.applyChange c = .ok b ∧ s.perform (.change id c) = s) ∧
    (¬ c.Accepted b → ∃ error, b.applyChange c = .error error ∧ s.perform (.change id c) = s) := by
  refine ⟨Buffer.isOk_applyChange_iff, fun h hne => ⟨?_, ?_, ?_⟩, fun h hnil => ?_, fun h => ?_⟩
  · have hvalid := validate_eq_ok_iff.mpr ⟨h.bounded, h.ordered⟩
    have happly : b.applyChange c = .ok (b.setText (c.apply b.text)) := by
      rw [Buffer.applyChange_of_accepted h, if_neg (by simpa using hne)]
    refine ⟨_, happly, ?_, apply_eq_flatten c.base hvalid, rfl, rfl, rfl⟩
    rw [perform_change hb, happly]
    rfl
  · have hnone : ([] : Text).length + 0 = 0 + 0 := rfl
    exact applyForward_eq_flatten (validate_eq_ok_iff.mpr ⟨h.bounded, h.ordered⟩) hnone
  · rintro offset texts htexts
    have hsome : texts.isEmpty = false := by
      rw [List.isEmpty_eq_false_iff]
      rintro rfl
      exact hne htexts
    rw [htexts, flatten_insertions b.text texts (Nat.zero_le offset), hsome]
    rfl
  · have hkept : b.applyChange c = .ok b := by
      rw [Buffer.applyChange_of_accepted h, hnil]
      rfl
    rw [perform_change hb, hkept]
    exact ⟨rfl, set_self hb⟩
  · rcases happly : b.applyChange c with error | b'
    · rw [perform_change hb, happly]
      exact ⟨error, rfl, set_self hb⟩
    · exact absurd (Buffer.accepted_of_applyChange happly) h

/-- Two insertions at one place next to a deletion, in a buffer with an owner; and the same with the edits
turned round, which is refused. -/
theorem change_simultaneous_crowded :
    let b : Buffer := ⟨0, ['a', 'b', 'c'], 4, 1⟩
    let s : Shelf := ⟨[b], []⟩
    let edits : List Edit := [⟨0, 1, []⟩, .insertion 1 ['x'], .insertion 1 ['y'], ⟨1, 3, ['z']⟩]
    s.buffers[0]? = some b ∧ (⟨edits, some 4⟩ : Change).Accepted b ∧
      (∃ b', b.applyChange ⟨edits, some 4⟩ = .ok b' ∧ b'.text = ['x', 'y', 'z'] ∧ b'.version = 5 ∧ b'.refs = 1) ∧
      applyForward 0 0 edits b.text = ['x', 'y', 'z'] ∧
      ¬ (⟨edits.reverse, some 4⟩ : Change).Accepted b ∧ s.perform (.change 0 ⟨edits.reverse, some 4⟩) = s := by
  intro b s edits
  have hb : s.buffers[0]? = some b := rfl
  have haccepted : (⟨edits, some 4⟩ : Change).Accepted b := ⟨by simp [b], by decide, by decide⟩
  have hrefused : ¬ (⟨edits.reverse, some 4⟩ : Change).Accepted b := fun h =>
    absurd h.ordered (by decide)
  obtain ⟨-, hedited, -, -⟩ := change_simultaneous hb ⟨edits, some 4⟩
  obtain ⟨-, -, -, hkept⟩ := change_simultaneous hb ⟨edits.reverse, some 4⟩
  obtain ⟨⟨b', happly, -, htext, hversion, hrefs, -⟩, hforward, -⟩ := hedited haccepted (by simp [edits])
  obtain ⟨error, -, hsame⟩ := hkept hrefused
  exact ⟨hb, haccepted, ⟨b', happly, htext, hversion, hrefs⟩, hforward, hrefused, hsame⟩

end Shelf

end CodeModel
