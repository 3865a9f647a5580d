import CodeModel.Text.Edit

/-!
# Buffers and snapshots

A buffer is a text under edit: it counts its versions and its owners. A snapshot is the text of a
buffer at one version, or a text that belongs to no buffer.

* A change is **atomic**: it is checked against version and text first, and a refused change leaves
  the buffer as it was.
* An **empty change** keeps the version; every other success makes a new one.
* Two snapshots of **one version of one buffer** are equal without a look at their texts.
-/

namespace CodeModel

/-- An unchanging view of a text. -/
structure Snapshot where
  /-- The buffer it was taken from, if any. -/
  origin : Option BufferId
  /-- The version of that buffer; 0 without one. -/
  version : Nat
  /-- The characters seen. -/
  text : Text
deriving DecidableEq

namespace Snapshot

/-- A snapshot that belongs to no buffer. -/
def detached (text : Text) : Snapshot := ⟨none, 0, text⟩

/-- The characters from `start` up to `stop`, if there are such. -/
def slice? (s : Snapshot) (start stop : Nat) : Option Text := Text.slice? s.text start stop

/-- Both snapshots were taken from one version of one buffer. -/
def sameVersion (s t : Snapshot) : Bool :=
  s.origin.isSome && s.origin == t.origin && s.version == t.version

/-- Whether both snapshots show the same text; **one version of one buffer** settles it without a
comparison. -/
def agrees (s t : Snapshot) : Bool := s.sameVersion t || s.text == t.text

@[simp] theorem text_detached (text : Text) : (detached text).text = text := rfl

theorem agrees_of_text_eq {s t : Snapshot} (h : s.text = t.text) : s.agrees t = true := by
  simp [agrees, h]

end Snapshot

/-- A text under edit. -/
structure Buffer where
  /-- Tells the buffer apart from others. -/
  id : BufferId
  /-- The present text. -/
  text : Text
  /-- How often the text has been replaced or edited. -/
  version : Nat := 0
  /-- How many owners have registered. -/
  refs : Nat := 0
deriving DecidableEq

namespace Buffer

/-- The present text as a snapshot. -/
def snapshot (b : Buffer) : Snapshot := ⟨some b.id, b.version, b.text⟩

/-- Replaces the whole text. -/
def setText (b : Buffer) (text : Text) : Buffer := { b with text, version := b.version + 1 }

/-- Carries out a change. A wrong base version is reported before any fault of the edits. -/
def applyChange (b : Buffer) (c : Change) : Except BufferError Buffer :=
  match c.base with
  | some expected =>
    if expected = b.version then edit else .error (.staleBase expected b.version)
  | none => edit
where
  /-- The change without its demand on the version. -/
  edit : Except BufferError Buffer := do
    c.validate b.text.length
    if c.edits.isEmpty then return b else return b.setText (c.apply b.text)

/-- Registers one more owner. -/
def retain (b : Buffer) : Buffer := { b with refs := b.refs + 1 }

/-- Lets one owner go. -/
def release (b : Buffer) : Except BufferError Buffer :=
  match b.refs with
  | 0 => .error (.notReferenced b.id)
  | n + 1 => .ok { b with refs := n }

@[simp] theorem text_snapshot (b : Buffer) : b.snapshot.text = b.text := rfl

@[simp] theorem version_snapshot (b : Buffer) : b.snapshot.version = b.version := rfl

@[simp] theorem refs_retain (b : Buffer) : b.retain.refs = b.refs + 1 := rfl

theorem release_retain (b : Buffer) : b.retain.release = .ok b := rfl

/-- Only a buffer without owners refuses a release. -/
theorem release_eq_error_iff (b : Buffer) (e : BufferError) :
    b.release = .error e ↔ b.refs = 0 ∧ e = .notReferenced b.id := by
  unfold release
  split <;> simp_all [eq_comm]

end Buffer

end CodeModel
