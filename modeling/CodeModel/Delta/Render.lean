import CodeModel.Delta.Basic

/-!
# Rendering deltas

The text of a delta: one line per node, `name[symbol]: \x7bflags\x7d`, children two spaces further in,
and behind them the resource changes ordered by path.

Flags are written as tokens that account for **every bit once**: the flags with a fixed meaning come
first, in a fixed order; then the names that the caller gives to sets of the other bits, each used if
all its bits are still left; then the positions of the bits that nobody named.
-/

namespace CodeModel

/-- A token of the written form of a set of flags. -/
inductive FlagToken where
  /-- A flag with a fixed meaning, given by its position. -/
  | standard (position : Nat)
  /-- Flags that the caller has a name for. -/
  | custom (flags : Flags) (name : String)
  /-- A flag without a name. -/
  | unnamed (position : Nat)
deriving DecidableEq

namespace FlagToken

/-- The flags that the token stands for. -/
def flags : FlagToken → Flags
  | .standard position => Flags.bit position
  | .custom flags _ => flags
  | .unnamed position => Flags.bit position

/-- The positions of the flags with a fixed meaning, in the order in which they are written. -/
def standardOrder : List Nat := [1, 0, 3, 2, 4, 5, 6, 7, 8, 9, 10, 11]

/-- The tokens for bits without a fixed meaning. -/
def rest : Flags → List (Flags × String) → List FlagToken
  | remaining, [] => remaining.positions.map .unnamed
  | remaining, (flags, name) :: names =>
    if !flags.isEmpty && remaining.contains flags then
      .custom flags name :: rest (remaining \ flags) names
    else rest remaining names

/-- The tokens of a set of flags, given the names of the caller. -/
def ofFlags (f : Flags) (names : List (Flags × String)) : List FlagToken :=
  (standardOrder.filter fun n => f.contains (Flags.bit n)).map .standard ++
    rest (f \ Flags.standard) names

end FlagToken

namespace Delta

/-- The written form of a token in the report `d`, which knows where elements were moved. -/
def tokenText (d : Delta) : FlagToken → String
  | .standard 1 => "CHILDREN"
  | .standard 0 => "CONTENT"
  | .standard 3 => "MOVED_TO(" ++ (d.movedTo.map Handle.path).getD "" ++ ")"
  | .standard 2 => "MOVED_FROM(" ++ (d.movedFrom.map Handle.path).getD "" ++ ")"
  | .standard 4 => "REORDERED"
  | .standard 5 => "FINE GRAINED"
  | .standard 6 => "OPEN"
  | .standard 7 => "DESCRIPTION"
  | .standard 8 => "WORKING COPY"
  | .standard 9 => "UNDERLYING_RESOURCE"
  | .standard 10 => "MARKERS"
  | .standard 11 => "SYNC"
  | .standard position => "FLAG(" ++ position.repr ++ ")"
  | .custom _ name => name
  | .unnamed position => "FLAG(" ++ position.repr ++ ")"

/-- The flags of a report, divided by bars. -/
def flagsText (names : List (Flags × String)) (d : Delta) : String :=
  "|".intercalate ((FlagToken.ofFlags d.flags names).map d.tokenText)

/-- Two spaces per level. -/
def indent (depth : Nat) : String := String.ofList (List.replicate (2 * depth) ' ')

/-- The line of a resource change. -/
def resourceLine (depth : Nat) (r : ResourceChange) : String :=
  indent depth ++ "ResourceDelta(" ++ r.path ++ ")[" ++ r.status.toStatus.symbol.toString ++ "]"

/-- The lines of the resource changes, ordered by path; equal paths keep their order. -/
def resourceLines (depth : Nat) (d : Delta) : List String :=
  (d.resources.mergeSort fun a b => !(b.path < a.path)).map (resourceLine depth)

/-- The line of the node itself. -/
def headLine (names : List (Flags × String)) (depth : Nat) (d : Delta) : String :=
  indent depth ++ d.element.label ++ "[" ++ d.status.symbol.toString ++ "]: \x7b" ++
    flagsText names d ++ "\x7d"

mutual

/-- The lines of a delta at a depth. -/
def lines (names : List (Flags × String)) (depth : Nat) : Delta → List String
  | ⟨element, status, flags, movedFrom, movedTo, markers, resources, children⟩ =>
    let d : Delta := ⟨element, status, flags, movedFrom, movedTo, markers, resources, children⟩
    headLine names depth d :: (linesOfAll names (depth + 1) children ++ resourceLines (depth + 1) d)

/-- The lines of sibling deltas. -/
def linesOfAll (names : List (Flags × String)) (depth : Nat) : List Delta → List String
  | [] => []
  | d :: ds => lines names depth d ++ linesOfAll names depth ds

end

/-- The text of a delta, given names for flags without a fixed meaning. -/
def render (d : Delta) (names : List (Flags × String) := []) : String :=
  "\n".intercalate (lines names 0 d)

end Delta

end CodeModel
