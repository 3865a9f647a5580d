import CodeModel.Foo.Cursor

/-!
# Parsing Foo texts

A Foo text is a sequence of declarations, `var x;` or `def f(a, b) { … }`. Blanks and line comments may
stand between any two tokens. Names are taken as long as they go. The block of a function is any text
whose braces are balanced, where braces in comments do not count.

A malformed declaration is reported as a problem and skipped up to and including the next semicolon or
closing brace at or behind the fault; parsing goes on from there. So `parse` answers for every text.
-/

namespace CodeModel.Foo

namespace Parser

/-! ## Tokens -/

/-- Consumes the expected character. -/
def symbol (expected : Char) : Parser Unit := do
  trivia
  fun c =>
    if c.rest.head? = some expected then .ok ((), c.advance 1)
    else .error ⟨c, .expectedSymbol expected c.rest.head?⟩

/-- Consumes a name, the longest one that stands there. -/
def name : Parser (String × Range) := do
  trivia
  fun c =>
    if c.rest.head?.any CharClass.startsName then
      let chars := c.rest.takeWhile CharClass.continuesName
      .ok ((String.ofList chars, ⟨c.position, chars.length⟩), c.advance chars.length)
    else .error ⟨c, .expectedName c.rest.head?⟩

/-- Consumes what stands behind a parameter; the answer is whether another parameter follows. -/
def separator : Parser Bool := do
  trivia
  fun c =>
    if c.rest.head? = some ',' then .ok (true, c.advance 1)
    else if c.rest.head? = some ')' then .ok (false, c.advance 1)
    else .error ⟨c, .expectedSeparator c.rest.head?⟩

/-- Consumes the rest of a block whose opening brace has been consumed. -/
def blockTail : Parser Unit := fun c =>
  match blockLength 0 false c.rest with
  | some n => .ok ((), c.advance n)
  | none => .error ⟨c.advance c.rest.length, .unterminatedBlock⟩

theorem moves_symbol (expected : Char) : Moves 1 (symbol expected) := by
  refine Moves.afterTrivia fun c => ?_
  split
  · next h => exact Reaches.one _ h
  · exact Reaches.fail _ _

theorem moves_name : Moves 1 name := by
  refine Moves.afterTrivia fun c => ?_
  split
  · next h =>
    refine ⟨_, ?_, (List.takeWhile_sublist _).length_le, rfl⟩
    cases e : c.rest with
    | nil => simp [e] at h
    | cons x xs =>
      simp only [e, List.head?_cons, Option.any_some] at h
      simp [List.takeWhile, CharClass.continuesName_of_startsName h]
  · exact Reaches.fail _ _

theorem moves_separator : Moves 1 separator := by
  refine Moves.afterTrivia fun c => ?_
  split
  · next h => exact Reaches.one _ h
  · split
    · next h => exact Reaches.one _ h
    · exact Reaches.fail _ _

theorem moves_blockTail : Moves 0 blockTail := by
  intro c
  unfold blockTail
  split
  · next n e => exact ⟨n, Nat.zero_le _, blockLength_le e, rfl⟩
  · exact ⟨_, Nat.le_refl _, rfl⟩

/-! ## Declarations -/

/-- Parameters up to and including the closing parenthesis; at least one is expected. -/
def parameterList (c : Cursor) : Except Failure (List String × Cursor) :=
  match _hn : name c with
  | .error f => .error f
  | .ok ((first, _), d) =>
    match _hs : separator d with
    | .error f => .error f
    | .ok (false, d) => .ok ([first], d)
    | .ok (true, d) =>
      match parameterList d with
      | .error f => .error f
      | .ok (others, d) => .ok (first :: others, d)
termination_by c.rest.length
decreasing_by
  exact Nat.lt_trans (moves_separator.length_lt _hs) (moves_name.length_lt _hn)

/-- The parameters of a function with their parentheses. -/
def parameters : Parser (List String) := do
  symbol '('
  trivia
  fun c =>
    if c.rest.head? = some ')' then .ok ([], c.advance 1) else parameterList c

/-- A block with its braces. -/
def block : Parser Unit := do
  symbol '\x7b'
  blockTail

/-- A variable, behind its keyword. -/
def variableTail (start : Nat) : Parser Declaration := do
  let (name, nameRange) ← name
  symbol ';'
  return { kind := .var, name, fullRange := .ofBounds start (← position), nameRange }

/-- A function, behind its keyword. -/
def functionTail (start : Nat) : Parser Declaration := do
  let (name, nameRange) ← name
  let parameters ← parameters
  block
  return { kind := .function parameters, name, fullRange := .ofBounds start (← position), nameRange }

theorem moves_parameterList : Moves 1 parameterList := by
  intro c
  fun_induction parameterList c with
  | case1 c f hn => exact (moves_name.reaches hn).forward
  | case2 c first _ d hn f hs => exact ((moves_name.reaches hn).trans (moves_separator.reaches hs)).forward
  | case3 c first _ d hn d' hs =>
    exact (((moves_name.reaches hn).trans (moves_separator.reaches hs)).mono (by omega)).answer _
  | case4 c first _ d hn d' hs f hp ih =>
    exact (((moves_name.reaches hn).trans (moves_separator.reaches hs)).trans (hp ▸ ih)).forward
  | case5 c first _ d hn d' hs others d'' hp ih =>
    exact ((((moves_name.reaches hn).trans (moves_separator.reaches hs)).trans (hp ▸ ih)).mono
      (by omega)).answer _

theorem moves_parameters : Moves 1 parameters := by
  refine (moves_symbol _).andThen (j := 1) fun _ => Moves.afterTrivia fun c => ?_
  split
  · next h => exact Reaches.one _ h
  · exact moves_parameterList c

theorem moves_block : Moves 1 block := (moves_symbol _).andThen fun _ => moves_blockTail

theorem moves_variableTail (start : Nat) : Moves 1 (variableTail start) :=
  moves_name.andThen fun _ => (moves_symbol _).andThen fun _ =>
    Moves.position.andThen fun _ => Moves.pure _

theorem moves_functionTail (start : Nat) : Moves 1 (functionTail start) :=
  moves_name.andThen fun _ => moves_parameters.andThen fun _ => moves_block.andThen fun _ =>
    Moves.position.andThen fun _ => Moves.pure _

/-- One declaration, from its keyword on. -/
def declaration : Parser Declaration := fun c =>
  match name c with
  | .error f => .error f
  | .ok ((keyword, _), d) =>
    if keyword = "var" then variableTail c.position d
    else if keyword = "def" then functionTail c.position d
    else .error ⟨c, .expectedKeyword keyword⟩

theorem moves_declaration : Moves 1 declaration := by
  intro c
  unfold declaration
  split
  · next f hn => exact (moves_name.reaches hn).forward
  · next keyword _ d hn =>
    split
    · exact ((moves_name.reaches hn).trans (moves_variableTail _ d)).mono (by omega)
    · split
      · exact ((moves_name.reaches hn).trans (moves_functionTail _ d)).mono (by omega)
      · exact Reaches.fail _ _

end Parser

/-! ## Texts -/

namespace Outline

/-- Puts a declaration in front. -/
def consDeclaration (d : Declaration) (o : Outline) : Outline :=
  { o with declarations := d :: o.declarations }

/-- Puts a problem in front. -/
def consProblem (p : Problem) (o : Outline) : Outline := { o with problems := p :: o.problems }

end Outline

/-- The declarations and problems of the text behind a cursor. -/
def parseFrom (c : Cursor) : Outline :=
  if _h : c.skipTrivia.rest = [] then {}
  else
    match _hd : Parser.declaration c.skipTrivia with
    | .ok (d, c') => (parseFrom c').consDeclaration d
    | .error f => (parseFrom f.place.recover).consProblem ⟨f.place.position, f.fault⟩
termination_by c.rest.length
decreasing_by
  · exact Nat.lt_of_lt_of_le (Parser.moves_declaration.length_lt _hd) c.length_rest_skipTrivia
  · have := Parser.moves_declaration.length_le_of_error _hd
    have := c.length_rest_skipTrivia
    have nonempty := List.length_pos_iff.2 _h
    by_cases hf : f.place.rest = []
    · simp only [Cursor.recover, Cursor.length_rest_advance, hf, List.length_nil]
      omega
    · have := f.place.length_rest_recover hf
      omega

/-- The declarations and problems of a text. -/
def parse (t : Text) : Outline := parseFrom ⟨0, t⟩

end CodeModel.Foo
