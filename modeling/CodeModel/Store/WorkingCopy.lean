import CodeModel.Element.Handle
import CodeModel.Text.Edit

/-!
# Working copies

A working copy is an element whose structure comes from a buffer rather than from its resource. It
lives through three stages of its set-up and is disposed once.
-/

namespace CodeModel

/-- Names a working copy within one session. -/
abbrev CopyId := Nat

/-- Names what is to be called at the turning points of a working copy. -/
abbrev CallbackId := Nat

/-- How far the set-up of a working copy has come. -/
inductive InitState where
  /-- The first structure is being built. -/
  | pending
  /-- The working copy can be used. -/
  | ready
  /-- The set-up failed. -/
  | failed
deriving DecidableEq

/-- An element whose structure comes from a buffer. -/
structure WorkingCopy where
  /-- The element. -/
  element : Handle
  /-- The buffer. -/
  buffer : BufferId
  /-- What is to be called at its turning points, if anything. -/
  callback : Option CallbackId := none
  /-- How many references there are. -/
  refs : Nat := 0
  /-- How far the set-up has come. -/
  init : InitState := .pending
  /-- The version of the buffer from which the structure was built last. -/
  reconciled : Option Nat := none
  /-- The end of the working copy has been announced. -/
  disposed : Bool := false
deriving DecidableEq

namespace WorkingCopy

/-- The working copy can be used. -/
def isReady (c : WorkingCopy) : Bool := c.init == .ready

/-- Takes one more reference. -/
def retain (c : WorkingCopy) : WorkingCopy := { c with refs := c.refs + 1 }

end WorkingCopy

end CodeModel
