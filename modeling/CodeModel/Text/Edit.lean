import CodeModel.Text.Basic

/-!
# Edits and changes

A change is a list of edits that all speak of the text as it was before the change.

* **Validation** walks the edits front to back and demands that each one is ordered, lies within the
  text and starts no earlier than the end of the one before.
* **Application** splices the replacements in back to front, so that no splice moves the offsets of
  an edit still to come.
-/

namespace CodeModel

/-- Names a buffer within one workspace. -/
abbrev BufferId := Nat

/-- Why a buffer refuses an operation. -/
inductive BufferError where
  /-- An edit reaches past the end of the text. -/
  | outOfBounds (start stop length : Nat)
  /-- An edit starts before the end of an earlier one. -/
  | overlapping (offset : Nat)
  /-- An edit starts behind its own end. -/
  | inverted (start stop : Nat)
  /-- The change was made for another version of the buffer. -/
  | staleBase (expected actual : Nat)
  /-- The buffer has no owner left that could let go of it. -/
  | notReferenced (buffer : BufferId)
deriving DecidableEq

/-- The sentence that reports the error. -/
def BufferError.message : BufferError → String
  | .outOfBounds start stop length =>
    s!"edit range {start}..{stop} out of bounds (buffer length {length})"
  | .overlapping offset => s!"edits overlap or are out of order at offset {offset}"
  | .inverted start stop => s!"inverted edit range {start}..{stop}"
  | .staleBase expected actual => s!"change based on version {expected}, buffer is at {actual}"
  | .notReferenced buffer => s!"buffer {buffer} has no outstanding references"

/-- An **edit** puts `replacement` in place of the characters from `start` up to `stop`. -/
structure Edit where
  /-- Where the replaced characters begin. -/
  start : Nat
  /-- Where the replaced characters end. -/
  stop : Nat
  /-- What stands there afterwards. -/
  replacement : Text
deriving DecidableEq

namespace Edit

/-- Puts `text` in at `offset` and removes nothing. -/
def insertion (offset : Nat) (text : Text) : Edit := ⟨offset, offset, text⟩

/-- Removes the characters from `start` up to `stop`. -/
def deletion (start stop : Nat) : Edit := ⟨start, stop, []⟩

/-- Carries out one edit. -/
def splice (e : Edit) (t : Text) : Text := t.take e.start ++ e.replacement ++ t.drop e.stop

end Edit

/-- A **change**: edits of one version of a text. -/
structure Change where
  /-- The edits, in the order of the text. -/
  edits : List Edit
  /-- The version the change was made for, if it insists on one. -/
  base : Option Nat := none
deriving DecidableEq

namespace Change

/-- Checks the edits of a text with `length` characters when the edits before them end at
`lastStop`. -/
def validateFrom (length : Nat) : Nat → List Edit → Except BufferError Unit
  | _, [] => .ok ()
  | lastStop, e :: rest =>
    if e.stop < e.start then .error (.inverted e.start e.stop)
    else if length < e.stop then .error (.outOfBounds e.start e.stop length)
    else if e.start < lastStop then .error (.overlapping e.start)
    else validateFrom length e.stop rest

/-- Checks that all edits fit a text of the given length; the first fault from the front is
reported. -/
def validate (c : Change) (length : Nat) : Except BufferError Unit := validateFrom length 0 c.edits

/-- Carries out the edits, the last one first. -/
def apply (c : Change) (t : Text) : Text := c.edits.foldr Edit.splice t

@[simp] theorem validateFrom_nil (length lastStop : Nat) :
    validateFrom length lastStop [] = .ok () := rfl

/-- The front edit is accepted exactly if it is ordered, within bounds and behind `lastStop`. -/
theorem validateFrom_cons_eq_ok_iff (length lastStop : Nat) (e : Edit) (rest : List Edit) :
    validateFrom length lastStop (e :: rest) = .ok () ↔
      lastStop ≤ e.start ∧ e.start ≤ e.stop ∧ e.stop ≤ length ∧
        validateFrom length e.stop rest = .ok () := by
  simp only [validateFrom]
  split
  · constructor
    · intro h; simp at h
    · omega
  · split
    · constructor
      · intro h; simp at h
      · omega
    · split
      · constructor
        · intro h; simp at h
        · omega
      · constructor
        · intro h; exact ⟨by omega, by omega, by omega, h⟩
        · exact fun h => h.2.2.2

@[simp] theorem apply_nil (base : Option Nat) (t : Text) : apply ⟨[], base⟩ t = t := rfl

@[simp] theorem apply_cons (e : Edit) (rest : List Edit) (base : Option Nat) (t : Text) :
    apply ⟨e :: rest, base⟩ t = e.splice (apply ⟨rest, base⟩ t) := rfl

end Change

end CodeModel
