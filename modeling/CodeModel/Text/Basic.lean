/-!
# Texts and ranges

A text is the sequence of its characters, so every offset and length of the library counts
characters.

* `Range` is a stretch of a text given by its offset and length; its end belongs to it when a
  position is looked up (`Range.covers`), so that a caret right behind a declaration still hits it.
* `Text.slice?` cuts a stretch out of a text and refuses bounds that are inverted or too large.
-/

namespace CodeModel

/-- A **text** is the list of its characters. -/
abbrev Text := List Char

/-- A **stretch of a text**, given by where it starts and how many characters it has. -/
structure Range where
  /-- The number of characters before the stretch. -/
  offset : Nat
  /-- The number of characters in the stretch. -/
  length : Nat
deriving DecidableEq, Inhabited

namespace Range

/-- The range from `start` to `stop`; it is empty when the bounds are inverted. -/
def ofBounds (start stop : Nat) : Range := ⟨start, stop - start⟩

/-- The position right behind the range. -/
def stop (r : Range) : Nat := r.offset + r.length

/-- A range **covers** the positions from its offset to its end, the end included. -/
def covers (r : Range) (position : Nat) : Bool :=
  r.offset ≤ position && position ≤ r.stop

@[simp] theorem covers_iff (r : Range) (position : Nat) :
    r.covers position = true ↔ r.offset ≤ position ∧ position ≤ r.stop := by
  simp [covers]

@[simp] theorem offset_ofBounds (start stop : Nat) : (ofBounds start stop).offset = start := rfl

theorem stop_ofBounds {start stop : Nat} (h : start ≤ stop) : (ofBounds start stop).stop = stop := by
  simp [Range.stop, ofBounds]; omega

end Range

namespace Text

/-- The characters of `t` from `start` up to `stop`, or `none` if the bounds are inverted or reach
past the end. -/
def slice? (t : Text) (start stop : Nat) : Option Text :=
  if start ≤ stop ∧ stop ≤ t.length then some ((t.drop start).take (stop - start)) else none

/-- A slice exists exactly for ordered bounds within the text. -/
theorem isSome_slice? (t : Text) (start stop : Nat) :
    (slice? t start stop).isSome = true ↔ start ≤ stop ∧ stop ≤ t.length := by
  unfold slice?; split <;> simp_all

end Text

end CodeModel
