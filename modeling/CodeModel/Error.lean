import CodeModel.Decimal.Shortest
import CodeModel.Delta.Status
import CodeModel.Element.Handle
import CodeModel.Text.Edit

/-!
# Errors

Why an operation on a code model fails. Each cause is a constructor with the values that make up its
report; the wording stands in the `message` functions alone.

A model that is plugged into the library may fail in the same ways for reasons of its own, which it
words itself (`custom`).
-/

namespace CodeModel

/-- An argument does not fit the operation. -/
inductive ArgumentError where
  /-- A change is reported for an element outside the tree of the root. -/
  | outsideRoot (element root : Handle)
  /-- A delta of another element is to be merged in. -/
  | mergeMismatch (incoming target : Handle)
  /-- A delta of another element is to be copied in. -/
  | copyMismatch (incoming target : Handle)
  /-- Two deltas report different things about one element. -/
  | statusMismatch (element : Handle) (target incoming : Status)
  /-- Only an openable element can have a working copy. -/
  | notSourceFile (element : Handle)
  /-- A model cannot build elements of this kind. -/
  | notOpenable (element : Handle)
  /-- A reason of the model. -/
  | custom (text : String)
deriving DecidableEq

/-- The sentence that reports the fault. -/
def ArgumentError.message : ArgumentError → String
  | .outsideRoot element root =>
    s!"{element.describe} is not within the delta root {root.describe}"
  | .mergeMismatch incoming target =>
    s!"cannot merge delta for {incoming.describe} into delta for {target.describe}"
  | .copyMismatch incoming target =>
    s!"cannot copy delta for {incoming.describe} into delta for {target.describe}"
  | .statusMismatch element target incoming =>
    s!"incompatible delta kinds for {element.describe}: {target.word} vs {incoming.word}"
  | .notSourceFile element => s!"{element.describe} is not an openable source file"
  | .notOpenable element => s!"{element.describe} is not openable"
  | .custom text => text

/-- The operation does not fit the present state. -/
inductive StateError where
  /-- Markers can be attached to an element once only. -/
  | markersAttached (element : Handle)
  /-- A recorder records one change at a time. -/
  | alreadyRecording
  /-- There is no recording to finish. -/
  | notRecording
  /-- The element is being built already. -/
  | recursiveBuild (element : Handle)
  /-- There is no draft to take off. -/
  | noDraft
  /-- The element has no working copy. -/
  | notWorkingCopy (element : Handle)
  /-- The working copy has no reference left to release. -/
  | notReferenced (element : Handle)
  /-- A working copy cannot be closed. -/
  | closingWorkingCopy (element : Handle)
  /-- The working copy is still being set up. -/
  | stillInitializing (element : Handle)
  /-- A reason of the model. -/
  | custom (text : String)
deriving DecidableEq

/-- The sentence that reports the fault. -/
def StateError.message : StateError → String
  | .markersAttached element => s!"marker deltas already attached to {element.describe}"
  | .alreadyRecording => "recording already in progress"
  | .notRecording => "no recording in progress"
  | .recursiveBuild element => s!"recursive build of {element.describe}"
  | .noDraft => "temporary cache stack is empty"
  | .notWorkingCopy element => s!"{element.describe} is not a working copy"
  | .notReferenced element => s!"working copy {element.describe} is not referenced"
  | .closingWorkingCopy element => s!"cannot close working copy {element.describe}"
  | .stillInitializing element => s!"working copy {element.describe} is still being initialized"
  | .custom text => text

/-- A configuration cannot be used. -/
inductive ConfigError where
  /-- The cache would hold nothing. -/
  | zeroCacheSize
  /-- The load factor is no share of the cache. -/
  | loadFactorRange (value : Float)
  /-- The text is no configuration. -/
  | unreadable
  /-- A reason of the model. -/
  | custom (text : String)

/-- The sentence that reports the fault. -/
def ConfigError.message : ConfigError → String
  | .zeroCacheSize => "cache_size must be positive"
  | .loadFactorRange value => "load_factor must be in (0, 1], got " ++ Decimal.render value
  | .unreadable => "not a configuration"
  | .custom text => text

/-- How an access to files fails. -/
inductive FileError where
  /-- There is nothing of that name. -/
  | notFound
  /-- The bytes of the file are no text. -/
  | invalidData
  /-- A directory stands where a file is read. -/
  | isDirectory
  /-- A file stands where a directory is read. -/
  | notDirectory
deriving DecidableEq

/-- Why an operation on a code model fails. -/
inductive Error where
  /-- The element does not exist. -/
  | doesNotExist (element : Handle)
  /-- An argument does not fit. -/
  | illegalArgument (cause : ArgumentError)
  /-- The state does not fit. -/
  | illegalState (cause : StateError)
  /-- The structure was built from another text than the caller's. -/
  | staleSnapshot
  /-- The caller gave up. -/
  | canceled
  /-- A callback of a working copy refused. -/
  | callback (text : String)
  /-- A buffer refused. -/
  | buffer (cause : BufferError)
  /-- Files could not be read. -/
  | file (cause : FileError)
  /-- The configuration is unusable. -/
  | config (cause : ConfigError)

namespace Error

/-- The sentence that reports the error. -/
def message : Error → String
  | .doesNotExist element => s!"element {element.describe} does not exist"
  | .illegalArgument cause => "illegal argument: " ++ cause.message
  | .illegalState cause => "illegal state: " ++ cause.message
  | .staleSnapshot => "snapshot is stale"
  | .canceled => "operation canceled"
  | .callback text => "working copy callback failed: " ++ text
  | .buffer cause => cause.message
  | .file .notFound => "file not found"
  | .file .invalidData => "file is not valid text"
  | .file .isDirectory => "file is a directory"
  | .file .notDirectory => "not a directory"
  | .config cause => "invalid configuration: " ++ cause.message

/-- The error says that something is missing, rather than broken. -/
def isMissing : Error → Bool
  | .doesNotExist _ => true
  | .file .notFound => true
  | _ => false

end Error

end CodeModel
