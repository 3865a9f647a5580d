import CodeModel.Delta.Builder
import CodeModel.Element.Body
import CodeModel.Recorder.Subsequence

/-!
# Recording changes

Compares the bodies below an element before and after, and reports the differences to a delta
builder.

* Above the **depth limit** the report is fine grained: content, children that came, went or changed
  places, and then each child that is there on both sides. An element with any difference is marked
  by `Flags.fineGrained`.
* **At the limit** any difference below an element is a change of its content.
* An openable child that lacks a body on one side is **unknown**: it has simply not been opened, and
  nothing is reported about it.

A recording begins with a **copy** of what is below its input, and the comparison looks at nothing else
of the earlier state. Bodies refer to their children by handle, so both walks are bounded by fuel. Below
an element every level uses up another body of the earlier state, so the number of those bodies is enough.
-/

namespace CodeModel

/-- The bodies of a state, by element. -/
abbrev Bodies := Table Body

namespace Recorder

/-- The child has not been opened on one side. -/
def isUnopened (old new : Bodies) (child : Handle) : Bool :=
  child.openable && (!Table.contains old child || !Table.contains new child)

/-- Both lists have the same handles in the same order. -/
def sameChildren : List Handle → List Handle → Bool
  | [], [] => true
  | a :: as, b :: bs => a.same b && sameChildren as bs
  | _, _ => false

/-- Something is different in the bodies or anywhere below. -/
def treeDiffers (old new : Bodies) : Nat → Body → Body → Bool
  | 0, _, _ => false
  | fuel + 1, o, n =>
    n.contentDiffers o || !sameChildren o.children n.children ||
      n.children.any fun child =>
        !isUnopened old new child &&
          match Table.get? old child, Table.get? new child with
          | none, none => false
          | some o, some n => treeDiffers old new fuel o n
          | _, _ => true

/-- The children that both bodies have, in the order of the later one. -/
def commonChildren (o n : Body) : List Handle :=
  n.children.filter (HandleSet.contains (HandleSet.ofList o.children))

/-- The common children that changed their place: those outside a longest common subsequence. -/
def reordered (o n : Body) : List Handle :=
  let oldCommon := o.children.filter (HandleSet.contains (HandleSet.ofList n.children))
  let newCommon := commonChildren o n
  let stable := Subsequence.stable Handle.same oldCommon newCommon
  (newCommon.zipIdx.filter fun (_, i) => !stable.contains i).map Prod.fst

/-- The reports that two bodies of one element give rise to by themselves: about its content and about
children that went, came or changed places. -/
def levelReports (e : Handle) (o n : Body) : List Report :=
  (if n.contentDiffers o then [.changed e (n.contentChange o)] else []) ++
    (o.children.filter fun c => !HandleSet.contains (HandleSet.ofList n.children) c).map (.removed ·) ++
    (n.children.filter fun c => !HandleSet.contains (HandleSet.ofList o.children) c).map (.added ·) ++
    (reordered o n).map (.changed · Flags.reorder)

/-- Reports the differences below `e`, which is `depth` levels below the input. The answer tells
whether there were any. -/
def compare (old new : Bodies) (limit : Nat) :
    Nat → Nat → Handle → Builder → Except Error (Builder × Bool)
  | 0, _, _, b => .ok (b, false)
  | fuel + 1, depth, e, b =>
    match Table.get? old e, Table.get? new e with
    | none, none => .ok (b, false)
    | none, some _ => do return (← b.report (.added e), true)
    | some _, none => do return (← b.report (.removed e), true)
    | some o, some n =>
      if limit ≤ depth then
        if treeDiffers old new (old.length + 1) o n then do
          return (← b.report (.changed e Flags.content), true)
        else .ok (b, false)
      else do
        let own := levelReports e o n
        let b ← own.foldlM Builder.report b
        let (b, below) ← (commonChildren o n).foldlM
          (fun (b, changed) child => do
            if isUnopened old new child then return (b, changed)
            else
              let (b, differs) ← compare old new limit fuel (depth + 1) child b
              return (b, changed || differs))
          (b, false)
        if !own.isEmpty || below then return (← b.report (.changed e Flags.fineGrained), true)
        else return (b, false)

/-- Copies the body of `e` and those of all that is below it from a state into another one, children before
their parent. An element without a body ends the walk, whatever stands below it. -/
def snapshot (t : Bodies) : Nat → Handle → Bodies → Bodies
  | 0, _, copy => copy
  | fuel + 1, e, copy =>
    match Table.get? t e with
    | none => copy
    | some b => Table.insert (b.children.foldl (fun copy c => snapshot t fuel c copy) copy) e b

/-- A recording in progress. -/
structure Recording where
  /-- The element whose changes are recorded. -/
  input : Handle
  /-- Where the differences are reported. -/
  builder : Builder
  /-- The depth limit. -/
  limit : Nat
  /-- The earlier bodies, as far as they are below the input. -/
  old : Bodies

/-- Begins a recording: what is below the input in the present state is copied. -/
def Recording.begun (t : Bodies) (input : Handle) (builder : Builder) (limit : Nat) : Recording :=
  { input, builder, limit, old := snapshot t t.length input [] }

/-- Reports all differences between the earlier bodies and the present ones. -/
def Recording.finish (r : Recording) (new : Bodies) : Except Error Builder :=
  (compare r.old new r.limit (r.old.length + 1) 0 r.input r.builder).map Prod.fst

end Recorder

/-- Records one change at a time. -/
structure Recorder where
  /-- The recording in progress, if any. -/
  recording : Option Recorder.Recording := none

namespace Recorder

/-- A recording is in progress. -/
def isRecording (r : Recorder) : Bool := r.recording.isSome

/-- Starts to record. Without a builder one for the input is made. -/
def start (r : Recorder) (old : Bodies) (input : Handle) (builder : Option Builder) (limit : Nat) :
    Except Error Recorder :=
  match r.recording with
  | some _ => .error (.illegalState .alreadyRecording)
  | none => .ok ⟨some (.begun old input (builder.getD (Builder.new input)) limit)⟩

/-- Ends the recording, whatever comes of it, and gives the builder with the differences. -/
def finish (r : Recorder) (new : Bodies) : Except Error Builder × Recorder :=
  match r.recording with
  | none => (.error (.illegalState .notRecording), r)
  | some recording => (recording.finish new, {})

end Recorder

end CodeModel
