import CodeModel.Text.Basic

/-!
# What a Foo text declares

The result of parsing a Foo text: its declarations with their places, and the problems met on the way.
A problem is a cause with a position; the wording stands in `Fault.message` alone.
-/

namespace CodeModel.Foo

/-- What a declaration declares. -/
inductive DeclarationKind where
  /-- A variable. -/
  | var
  /-- A function with its parameters, in order. -/
  | function (parameters : List String)
deriving DecidableEq, Inhabited

/-- One declaration of a text. -/
structure Declaration where
  /-- What is declared. -/
  kind : DeclarationKind
  /-- The name. -/
  name : String
  /-- The stretch from the keyword up to and including the closing semicolon or brace. -/
  fullRange : Range
  /-- The stretch of the name. -/
  nameRange : Range
deriving DecidableEq, Inhabited

/-- What is wrong at some position of a text. `none` for what was found is the end of the text. -/
inductive Fault where
  /-- Another character should stand there. -/
  | expectedSymbol (expected : Char) (found : Option Char)
  /-- A name should stand there. -/
  | expectedName (found : Option Char)
  /-- A name stands there that begins no declaration. -/
  | expectedKeyword (found : String)
  /-- The parameters should go on or end there. -/
  | expectedSeparator (found : Option Char)
  /-- The text ends within a block. -/
  | unterminatedBlock
deriving DecidableEq

namespace Fault

/-- How a report quotes what it found. -/
def quote : Option Char → String
  | some c => "'" ++ c.toString ++ "'"
  | none => "end of input"

/-- The sentence that reports the fault. At the end of the text only the closing parenthesis is
missed. -/
def message : Fault → String
  | .expectedSymbol expected found => s!"expected '{expected}', found " ++ quote found
  | .expectedName found => "expected identifier, found " ++ quote found
  | .expectedKeyword found => s!"expected 'var' or 'def', found '{found}'"
  | .expectedSeparator (some c) => "expected ',' or ')', found " ++ quote (some c)
  | .expectedSeparator none => "expected ')', found " ++ quote none
  | .unterminatedBlock => "unterminated block"

end Fault

/-- A fault and where it is. -/
structure Problem where
  /-- How many characters stand before it. -/
  position : Nat
  /-- What is wrong. -/
  fault : Fault
deriving DecidableEq

namespace Problem

/-- The fault in words. -/
def message (p : Problem) : String := p.fault.message

/-- The full report. -/
def describe (p : Problem) : String := s!"Parse error at position {p.position}: {p.message}"

end Problem

/-- What a text declares, and what is wrong with it. -/
structure Outline where
  /-- The declarations, in the order of the text. -/
  declarations : List Declaration := []
  /-- The problems, in the order of the text. -/
  problems : List Problem := []
deriving DecidableEq

end CodeModel.Foo
