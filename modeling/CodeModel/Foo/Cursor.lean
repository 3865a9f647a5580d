import CodeModel.Foo.Syntax
import CodeModel.Text.CharClass

/-!
# Cursors

A cursor is a position in a text together with the text that is left there. Parsing moves a cursor
forward, so every function of the parser takes a cursor to a cursor `c.advance n`.

* `triviaLength`, `blockLength` and `recoveryLength` say **how far** to move; each is a recursion on
  the text that is left.
* A `Parser` fails at a cursor, and that is where the recovery starts.
* `Moves k p` says that `p` moves forward by at least `k` characters and not past the end. Moves add up
  along sequences (`Moves.bind`), and that is why the parser ends.
-/

namespace CodeModel.Foo

/-- A position in a text, with the text that is left. -/
structure Cursor where
  /-- How many characters stand before the cursor. -/
  position : Nat
  /-- The characters behind the cursor. -/
  rest : Text
deriving DecidableEq

namespace Cursor

/-- Moves forward by `n` characters. -/
def advance (c : Cursor) (n : Nat) : Cursor := ⟨c.position + n, c.rest.drop n⟩

@[simp] theorem advance_zero (c : Cursor) : c.advance 0 = c := rfl

@[simp] theorem advance_advance (c : Cursor) (m n : Nat) :
    (c.advance m).advance n = c.advance (m + n) := by
  simp [advance, Nat.add_assoc]

@[simp] theorem length_rest_advance (c : Cursor) (n : Nat) :
    (c.advance n).rest.length = c.rest.length - n := by
  simp [advance]

end Cursor

/-! ## How far to move -/

/-- How many characters of the text are blanks and line comments before the first other character.
The switch tells whether the text starts within a comment, which goes on to the end of its line. -/
def triviaLength : Bool → Text → Nat
  | _, [] => 0
  | true, c :: cs => triviaLength (c != '\n') cs + 1
  | false, c :: cs =>
    if CharClass.isBlank c then triviaLength false cs + 1
    else if c == '/' && cs.head? == some '/' then triviaLength true cs + 1
    else 0

/-- How many characters there are up to and including the brace that closes `depth + 1` open blocks;
`none` if it is missing. Braces within comments do not count; the switch tells whether the text starts
within a comment. -/
def blockLength : Nat → Bool → Text → Option Nat
  | _, _, [] => none
  | depth, true, c :: cs => (blockLength depth (c != '\n') cs).map (· + 1)
  | depth, false, c :: cs =>
    if c == '/' && cs.head? == some '/' then (blockLength depth true cs).map (· + 1)
    else if c == '\x7b' then (blockLength (depth + 1) false cs).map (· + 1)
    else if c == '\x7d' then
      match depth with
      | 0 => some 1
      | depth + 1 => (blockLength depth false cs).map (· + 1)
    else (blockLength depth false cs).map (· + 1)

/-- How many characters there are up to and including the first semicolon or closing brace, or up to
the end. -/
def recoveryLength : Text → Nat
  | [] => 0
  | c :: cs => if c == ';' || c == '\x7d' then 1 else recoveryLength cs + 1

theorem triviaLength_le (inComment : Bool) (t : Text) : triviaLength inComment t ≤ t.length := by
  induction t generalizing inComment with
  | nil => simp [triviaLength]
  | cons c cs ih =>
    cases inComment with
    | true => simpa [triviaLength] using ih _
    | false =>
      unfold triviaLength
      split
      · simpa using ih _
      · split
        · simpa using ih _
        · simp

theorem blockLength_le {depth : Nat} {inComment : Bool} {t : Text} {n : Nat}
    (h : blockLength depth inComment t = some n) : n ≤ t.length := by
  induction t generalizing depth inComment n with
  | nil => simp [blockLength] at h
  | cons c cs ih =>
    have step {d : Nat} {b : Bool} (h : (blockLength d b cs).map (· + 1) = some n) :
        n ≤ (c :: cs).length := by
      obtain ⟨m, hm, rfl⟩ := Option.map_eq_some_iff.1 h
      simpa using ih hm
    cases inComment with
    | true => exact step h
    | false =>
      unfold blockLength at h
      split at h
      · exact step h
      · split at h
        · exact step h
        · split at h
          · split at h
            · simp at h; simp [← h]
            · exact step h
          · exact step h

theorem recoveryLength_le (t : Text) : recoveryLength t ≤ t.length := by
  induction t with
  | nil => simp [recoveryLength]
  | cons c cs ih => unfold recoveryLength; split <;> simp [ih]

theorem recoveryLength_pos {t : Text} (h : t ≠ []) : 0 < recoveryLength t := by
  cases t with
  | nil => exact absurd rfl h
  | cons c cs => unfold recoveryLength; split <;> omega

namespace Cursor

/-- Skips blanks and comments. -/
def skipTrivia (c : Cursor) : Cursor := c.advance (triviaLength false c.rest)

/-- Skips the rest of a malformed declaration. -/
def recover (c : Cursor) : Cursor := c.advance (recoveryLength c.rest)

theorem length_rest_skipTrivia (c : Cursor) : c.skipTrivia.rest.length ≤ c.rest.length := by
  simp [skipTrivia]

/-- A recovery ends before the end of the text only behind something skipped. -/
theorem length_rest_recover (c : Cursor) (h : c.rest ≠ []) :
    c.recover.rest.length < c.rest.length := by
  have := recoveryLength_pos h
  have := List.length_pos_iff.2 h
  simp [recover]; omega

end Cursor

/-! ## Parsers -/

/-- A fault at a cursor. -/
structure Failure where
  /-- Where the fault is. -/
  place : Cursor
  /-- What is wrong. -/
  fault : Fault

/-- A function that moves a cursor and answers, or fails. -/
abbrev Parser := StateT Cursor (Except Failure)

namespace Parser

/-- Skips blanks and comments. -/
def trivia : Parser Unit := fun c => .ok ((), c.skipTrivia)

/-- The position of the cursor. -/
def position : Parser Nat := fun c => .ok (c.position, c)

end Parser

/-- The result of a parser that was at `c`: on success the cursor has moved forward by at least `k`
characters, and in no case has it gone back or past the end. -/
def Reaches {α : Type} (k : Nat) (c : Cursor) : Except Failure (α × Cursor) → Prop
  | .ok (_, d) => ∃ n, k ≤ n ∧ n ≤ c.rest.length ∧ d = c.advance n
  | .error f => ∃ n, n ≤ c.rest.length ∧ f.place = c.advance n

/-- The parser moves forward by at least `k` characters if it succeeds; in no case does it go back or
past the end. -/
def Moves {α : Type} (k : Nat) (p : Parser α) : Prop := ∀ c : Cursor, Reaches k c (p c)

namespace Reaches

variable {α : Type} {k j : Nat} {c d : Cursor}

theorem stay (a : α) (c : Cursor) : Reaches 0 c (.ok (a, c)) :=
  ⟨0, Nat.le_refl _, Nat.zero_le _, rfl⟩

theorem fail (c : Cursor) (fault : Fault) :
    Reaches (α := α) k c (.error ⟨c, fault⟩) :=
  ⟨0, Nat.zero_le _, rfl⟩

/-- Consuming a character that is there is a move. -/
theorem one {x : Char} (a : α) (h : c.rest.head? = some x) : Reaches 1 c (.ok (a, c.advance 1)) :=
  ⟨1, Nat.le_refl _, List.length_pos_of_mem (List.mem_of_head? h), rfl⟩

theorem mono {r : Except Failure (α × Cursor)} (h : Reaches k c r) (hj : j ≤ k) :
    Reaches j c r := by
  match r, h with
  | .ok _, ⟨n, hk, hn, hd⟩ => exact ⟨n, Nat.le_trans hj hk, hn, hd⟩
  | .error _, h => exact h

/-- What is reached from a place further on is reached from here. -/
theorem trans {β : Type} {a : β} {r : Except Failure (α × Cursor)}
    (h : Reaches k c (.ok (a, d))) (h' : Reaches j d r) : Reaches (k + j) c r := by
  obtain ⟨n, hk, hn, rfl⟩ := h
  have length := c.length_rest_advance n
  match r, h' with
  | .ok _, ⟨m, hj, hm, hd⟩ =>
    exact ⟨n + m, by omega, by omega, by rw [hd, Cursor.advance_advance]⟩
  | .error _, ⟨m, hm, hf⟩ => exact ⟨n + m, by omega, by rw [hf, Cursor.advance_advance]⟩

/-- Another answer at the same place is reached just as well. -/
theorem answer {β : Type} {a : α} (h : Reaches k c (.ok (a, d))) (b : β) :
    Reaches k c (.ok (b, d)) := h

theorem forward {β : Type} {f : Failure} (h : Reaches (α := α) k c (.error f)) :
    Reaches (α := β) j c (.error f) := h

end Reaches

namespace Moves

variable {α β : Type} {k j : Nat}

theorem reaches {p : Parser α} (h : Moves k p) {c : Cursor} {r : Except Failure (α × Cursor)}
    (e : p c = r) : Reaches k c r := e ▸ h c

/-- A parser that moves makes the rest shorter. -/
theorem length_lt {p : Parser α} (h : Moves (k + 1) p) {c d : Cursor} {a : α}
    (e : p c = .ok (a, d)) : d.rest.length < c.rest.length := by
  obtain ⟨n, hk, hn, rfl⟩ := h.reaches e
  rw [Cursor.length_rest_advance]; omega

theorem length_le_of_error {p : Parser α} (h : Moves k p) {c : Cursor} {f : Failure}
    (e : p c = .error f) : f.place.rest.length ≤ c.rest.length := by
  obtain ⟨n, hn, hf⟩ := h.reaches e
  simp [hf]

theorem mono {p : Parser α} (h : Moves k p) (hj : j ≤ k) : Moves j p := fun c => (h c).mono hj

theorem pure (a : α) : Moves 0 (Pure.pure a : Parser α) := Reaches.stay a

theorem bind {p : Parser α} {f : α → Parser β} (h : Moves k p) (g : ∀ a, Moves j (f a)) :
    Moves (k + j) (p >>= f) := by
  intro c
  show Reaches (k + j) c (p c >>= fun r => f r.1 r.2)
  cases e : p c with
  | error failure => exact (h.reaches e).forward
  | ok r => exact (h.reaches e).trans (g r.1 r.2)

theorem trivia : Moves 0 Parser.trivia :=
  fun _ => ⟨_, Nat.zero_le _, triviaLength_le _ _, rfl⟩

/-- Skipping blanks and comments first takes nothing away. -/
theorem afterTrivia {p : Parser α} (h : Moves k p) : Moves k (Parser.trivia >>= fun _ => p) :=
  (Moves.trivia.bind fun _ => h).mono (by omega)

/-- The first part of a sequence moves, and the second one does not go back. -/
theorem andThen {p : Parser α} {f : α → Parser β} (h : Moves k p) (g : ∀ a, Moves j (f a)) :
    Moves k (p >>= f) :=
  (h.bind g).mono (Nat.le_add_right _ _)

theorem position : Moves 0 Parser.position := fun _ => Reaches.stay _ _

end Moves

end CodeModel.Foo
