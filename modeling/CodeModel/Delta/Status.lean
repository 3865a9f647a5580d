/-!
# Change status

What happened to an element between two states of a model.
-/

namespace CodeModel

/-- What happened to an element. -/
inductive Status where
  /-- Nothing has been reported. -/
  | unchanged
  /-- The element came into being, with all that is below it. -/
  | added
  /-- The element went away, with all that was below it. -/
  | removed
  /-- The element is there before and after, and something about it is different. -/
  | changed
deriving DecidableEq, Inhabited

namespace Status

/-- The element as a whole came or went. -/
def isWhole : Status → Bool
  | .added | .removed => true
  | .unchanged | .changed => false

/-- The character that stands for the status in a rendered change tree. -/
def symbol : Status → Char
  | .unchanged => '?'
  | .added => '+'
  | .removed => '-'
  | .changed => '*'

/-- The word that stands for the status in messages. -/
def word : Status → String
  | .unchanged => "NoChange"
  | .added => "Added"
  | .removed => "Removed"
  | .changed => "Changed"

end Status

end CodeModel
