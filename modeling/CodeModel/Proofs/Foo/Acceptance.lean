import CodeModel.Foo.Parser
import CodeModel.Proofs.Foo.Grammar
import Mathlib.Data.List.TakeWhile

/-!
# What the parser accepts

The parser reports no problem exactly for the texts of the grammar, and then it gives the declarations of
their trees.

* `Cursor.Spans` says **what stands between** two places of a text. Each part of the parser moves its cursor
  past a piece of the grammar, and past nothing else (`symbol_eq_ok_iff`, `name_eq_ok_iff`,
  `parameters_eq_ok_iff`, `block_eq_ok_iff`, `declaration_eq_ok_iff`).
* A comment without the end of its line takes the rest of the text along, so that no token can follow it
  (`spans_skipTrivia`). It is accepted at the very end only.
* A text **without problems** has a tree (`exists_source`), and the tree of a text is what the parser
  **finds** (`parseFrom_text`).

The parts of the parser are characterised by equivalences, in the order in which the grammar is built up: each is
an existence statement about a piece of the tree, from which both directions of the result are assembled. Nothing
is assumed of what follows a piece except where a name has to end.
-/

namespace CodeModel.Foo

open Grammar

/-! ## Places in a text -/

namespace Cursor

variable {c d e : Cursor} {t u : Text}

/-- The text `t` stands between the two cursors. Cursors know their position as well as what is left of the text,
and the two have to go together. -/
structure Spans (c : Cursor) (t : Text) (d : Cursor) : Prop where
  /-- it is what is left at the first one, up to the second one -/
  rest : c.rest = t ++ d.rest
  /-- positions count its characters -/
  position : d.position = c.position + t.length

theorem Spans.trans (h : c.Spans t d) (h' : d.Spans u e) : c.Spans (t ++ u) e :=
  ⟨by rw [h.rest, h'.rest, List.append_assoc], by
    rw [h'.position, h.position, List.length_append, Nat.add_assoc]⟩

theorem spans_advance (h : c.rest = t ++ u) : c.Spans t (c.advance t.length) :=
  ⟨by simp [advance, h], rfl⟩

/-- A cursor behind a text is the one that is reached by advancing past it. -/
theorem Spans.advance_eq (h : c.Spans t d) : c.advance t.length = d := by
  cases d
  simp [advance, h.rest, ← h.position]

/-- Between two pieces of a text there is a cursor: where the first ends and the second begins. -/
theorem Spans.split (h : c.Spans (t ++ u) e) : ∃ d, c.Spans t d ∧ d.Spans u e := by
  have hrest := h.rest
  rw [List.append_assoc] at hrest
  have hd := spans_advance hrest
  refine ⟨_, hd, ?_, ?_⟩
  · exact List.append_cancel_left (hd.rest.symm.trans hrest)
  · rw [h.position, hd.position, List.length_append, Nat.add_assoc]

end Cursor

open Cursor

/-! ## Gaps -/

theorem triviaLength_comment (line : Line) (t : Text) :
    triviaLength true (line.1 ++ '\n' :: t) = line.1.length + 1 + triviaLength false t := by
  obtain ⟨line, hline⟩ := line
  induction line with
  | nil => simp [triviaLength, Nat.add_comm]
  | cons c line ih =>
    obtain ⟨hc, hline⟩ := not_or.mp fun h => hline (List.mem_cons.mpr h)
    have hnewline : (c != '\n') = true := by simpa using Ne.symm hc
    simp only [List.cons_append, triviaLength, hnewline, ih hline, List.length_cons]
    omega

/-- A comment without the end of its line goes on to the end of the text. -/
theorem triviaLength_line (line : Line) : triviaLength true line.1 = line.1.length := by
  obtain ⟨line, hline⟩ := line
  induction line with
  | nil => rfl
  | cons c line ih =>
    obtain ⟨hc, hline⟩ := not_or.mp fun h => hline (List.mem_cons.mpr h)
    have hnewline : (c != '\n') = true := by simpa using Ne.symm hc
    simp only [triviaLength, hnewline, ih hline, List.length_cons]

theorem triviaLength_slashes (t : Text) : triviaLength false ('/' :: '/' :: t) = triviaLength true t + 2 := by
  have hblank : CharClass.isBlank '/' = false := by decide
  simp [triviaLength, hblank]

/-- A filler is skipped as a whole, and then what follows it. A filler that is a comment includes the end of its
line, so nothing that follows can belong to it. -/
theorem triviaLength_filler (f : Filler) (t : Text) :
    triviaLength false (f.text ++ t) = f.text.length + triviaLength false t := by
  cases f with
  | blank c hc => simp [Filler.text, triviaLength, hc, Nat.add_comm]
  | comment line =>
    simp only [Filler.text, List.cons_append, List.append_assoc, List.nil_append, triviaLength_slashes,
      triviaLength_comment, List.length_cons, List.length_append, List.length_nil]
    omega

/-- **Gaps are skipped**, and then what follows them may be skipped as well. Each filler of the gap is skipped as a
whole, so the scanner comes to its end as if it had started there. -/
theorem triviaLength_gap (g : Gap) (t : Text) :
    triviaLength false (g.text ++ t) = g.text.length + triviaLength false t := by
  induction g with
  | nil => simp
  | cons f g ih =>
    rw [Gap.text_cons, List.append_assoc, triviaLength_filler, ih, List.length_append, Nat.add_assoc]

/-- A comment at the end of the text is skipped as a whole. -/
theorem triviaLength_remark (line : Line) :
    triviaLength false (remarkText (some line)) = (remarkText (some line)).length := by
  rw [remarkText, triviaLength_slashes, triviaLength_line]
  rfl

/-- Every text begins with a gap, behind which there is nothing to skip or a comment up to the end. The induction
follows the scanner, character by character. -/
theorem exists_gap (t : Text) : ∃ (g : Gap) (rest : Text), t = g.text ++ rest ∧
    (triviaLength false rest = 0 ∨ ∃ line, rest = remarkText (some line)) := by
  match t with
  | [] => exact ⟨[], [], rfl, .inl rfl⟩
  | c :: t =>
    by_cases hblank : CharClass.isBlank c = true
    · obtain ⟨g, rest, rfl, hrest⟩ := exists_gap t
      exact ⟨.blank c hblank :: g, rest, rfl, hrest⟩
    by_cases hslash : c = '/' ∧ t.head? = some '/'
    · obtain ⟨rfl, hhead⟩ := hslash
      obtain ⟨u, hu⟩ := List.head?_eq_some_iff.mp hhead
      by_cases hline : '\n' ∈ u
      · obtain ⟨line, after, hafter, hfree⟩ := List.eq_append_cons_of_mem hline
        have hlt : after.length < t.length := by
          simp only [hu, hafter, List.length_cons, List.length_append]
          omega
        obtain ⟨g, rest, hgap, hrest⟩ := exists_gap after
        exact ⟨.comment ⟨line, hfree⟩ :: g, rest, by simp [Filler.text, hu, hafter, hgap], hrest⟩
      · exact ⟨[], _, rfl, .inr ⟨⟨u, hline⟩, by rw [hu]; rfl⟩⟩
    · refine ⟨[], _, rfl, .inl ?_⟩
      simp only [triviaLength, hblank]
      simpa using hslash
termination_by t.length
decreasing_by all_goals simp only [List.length_cons]; omega

/-- Nothing is skipped where neither a blank nor a slash stands. -/
theorem triviaLength_cons {x : Char} (t : Text) (hblank : CharClass.isBlank x = false) (hslash : x ≠ '/') :
    triviaLength false (x :: t) = 0 := by
  simp [triviaLength, hblank, hslash]

theorem triviaLength_name (n : Name) (t : Text) : triviaLength false (n.text ++ t) = 0 :=
  triviaLength_cons _ (isBlank_of_continuesName (CharClass.continuesName_of_startsName n.starts))
    (n.first_ne (by decide))

/-- Only the empty gap stands where there is nothing to skip, for blanks and comments are skipped. -/
theorem gap_eq_nil {g : Gap} {t : Text} (h : triviaLength false (g.text ++ t) = 0) : g = [] := by
  cases g with
  | nil => rfl
  | cons f g =>
    rw [triviaLength_gap, Gap.text_cons] at h
    cases f <;> simp [Filler.text] at h

namespace Cursor

variable {c d : Cursor} {g : Gap}

/-- Skipping leads behind a gap, if there is nothing to skip behind it. -/
theorem skipTrivia_eq (hspan : c.Spans g.text d) (hd : triviaLength false d.rest = 0) :
    c.skipTrivia = d := by
  rw [skipTrivia, hspan.rest, triviaLength_gap, hd]
  exact hspan.advance_eq

/-- **What is skipped** is a gap, or all that is left: in the second case a comment goes on to the end, and no token
can follow. -/
theorem spans_skipTrivia (c : Cursor) :
    (∃ g : Gap, c.Spans g.text c.skipTrivia ∧ triviaLength false c.skipTrivia.rest = 0) ∨
      c.skipTrivia.rest = [] ∧ ∃ (g : Gap) (line : Line), c.rest = g.text ++ remarkText (some line) := by
  obtain ⟨g, rest, hc, hrest | ⟨line, rfl⟩⟩ := exists_gap c.rest
  · have hspan := spans_advance hc
    have hcancel := List.append_cancel_left (hspan.rest.symm.trans hc)
    have hskip := skipTrivia_eq hspan (by rw [hcancel, hrest])
    exact .inl ⟨g, hskip ▸ hspan, by rw [hskip, hcancel, hrest]⟩
  · refine .inr ⟨?_, g, line, hc⟩
    rw [skipTrivia, hc, triviaLength_gap, triviaLength_remark, ← List.length_append, advance, hc]
    exact List.drop_length

/-- A mark behind a gap is a mark behind what is skipped. A mark is neither a blank nor a slash, so skipping ends
just before it. -/
theorem skipTrivia_mark_iff {x : Char} (hblank : CharClass.isBlank x = false) (hslash : x ≠ '/') :
    c.skipTrivia.rest.head? = some x ∧ c.skipTrivia.advance 1 = d ↔
      ∃ g : Gap, c.Spans (g.text ++ [x]) d := by
  constructor
  · rintro ⟨hhead, rfl⟩
    rcases c.spans_skipTrivia with ⟨g, hspan, -⟩ | ⟨hnil, -⟩
    · obtain ⟨t, ht⟩ : ∃ t, c.skipTrivia.rest = [x] ++ t := List.head?_eq_some_iff.mp hhead
      exact ⟨g, hspan.trans (spans_advance ht)⟩
    · rw [hnil] at hhead
      cases hhead
  · rintro ⟨g, hspan⟩
    obtain ⟨e, hgap, hmark⟩ := hspan.split
    rw [skipTrivia_eq hgap (by rw [hmark.rest]; exact triviaLength_cons _ hblank hslash)]
    exact ⟨by rw [hmark.rest]; rfl, hmark.advance_eq⟩

end Cursor

/-! ## Tokens -/

namespace Parser

variable {α β : Type} {c d : Cursor}

/-- A sequence of parsers succeeds if both do, the second one from where the first one stopped. -/
theorem bind_eq_ok_iff {p : Parser α} {f : α → Parser β} {b : β} :
    (p >>= f) c = .ok (b, d) ↔ ∃ a e, p c = .ok (a, e) ∧ f a e = .ok (b, d) := by
  have hbind : (p >>= f) c = p c >>= fun r => f r.1 r.2 := rfl
  rw [hbind]
  rcases p c with failure | ⟨a, e⟩
  · simp [bind, Except.bind]
  · simp [bind, Except.bind]

/-- A mark of the grammar is neither a blank nor the beginning of a comment, so nothing of it is skipped. -/
def IsMark (x : Char) : Prop := CharClass.isBlank x = false ∧ x ≠ '/'

instance (x : Char) : Decidable (IsMark x) :=
  inferInstanceAs (Decidable (CharClass.isBlank x = false ∧ x ≠ '/'))

/-- **A mark** is read behind a gap, which may be empty. What follows the mark does not matter, since the scanner
stops at the first character that it cannot skip. -/
theorem symbol_eq_ok_iff {x : Char} (hx : IsMark x) :
    symbol x c = .ok ((), d) ↔ ∃ g : Gap, c.Spans (g.text ++ [x]) d := by
  have hsymbol : symbol x c =
      if c.skipTrivia.rest.head? = some x then .ok ((), c.skipTrivia.advance 1)
      else .error ⟨c.skipTrivia, .expectedSymbol x c.skipTrivia.rest.head?⟩ := rfl
  rw [hsymbol, ← skipTrivia_mark_iff hx.1 hx.2]
  split
  · next h => simp [h]
  · next h => simp [h]

/-- The mark behind a parameter. -/
def separatorMark (more : Bool) : Char := if more then ',' else ')'

/-- Behind a parameter there is a comma or a parenthesis, which tells whether more parameters follow. -/
theorem separator_eq_ok_iff {more : Bool} :
    separator c = .ok (more, d) ↔ ∃ g : Gap, c.Spans (g.text ++ [separatorMark more]) d := by
  have hseparator : separator c =
      if c.skipTrivia.rest.head? = some ',' then .ok (true, c.skipTrivia.advance 1)
      else if c.skipTrivia.rest.head? = some ')' then .ok (false, c.skipTrivia.advance 1)
      else .error ⟨c.skipTrivia, .expectedSeparator c.skipTrivia.rest.head?⟩ := rfl
  have hmark : IsMark (separatorMark more) := by cases more <;> decide
  rw [hseparator, ← skipTrivia_mark_iff hmark.1 hmark.2]
  split
  · next h => cases more <;> simp [h, separatorMark]
  · next h =>
    split
    · next h' => cases more <;> simp [h', separatorMark]
    · next h' => cases more <;> simp [h, h', separatorMark]

/-- **A name** is read as far as it goes: what follows does not continue it, and its range is where it stands. -/
theorem name_eq_ok_iff {s : String} {r : Range} :
    name c = .ok ((s, r), d) ↔ ∃ (g : Gap) (n : Name), c.Spans (g.text ++ n.text) d ∧ Ends d.rest ∧
      s = String.ofList n.text ∧ r = ⟨c.position + g.text.length, n.text.length⟩ := by
  have hname : name c =
      if c.skipTrivia.rest.head?.any CharClass.startsName then
        .ok ((String.ofList (c.skipTrivia.rest.takeWhile CharClass.continuesName),
          ⟨c.skipTrivia.position, (c.skipTrivia.rest.takeWhile CharClass.continuesName).length⟩),
          c.skipTrivia.advance (c.skipTrivia.rest.takeWhile CharClass.continuesName).length)
      else .error ⟨c.skipTrivia, .expectedName c.skipTrivia.rest.head?⟩ := rfl
  rw [hname]
  constructor
  · intro h
    split at h
    · next hstarts =>
      rcases c.spans_skipTrivia with ⟨g, hspan, -⟩ | ⟨hnil, -⟩
      · cases hrest : c.skipTrivia.rest with
        | nil => simp [hrest] at hstarts
        | cons x t =>
          have hx : CharClass.startsName x = true := by simpa [hrest] using hstarts
          let n : Name := ⟨x, t.takeWhile CharClass.continuesName, hx, fun y hy => List.mem_takeWhile_imp hy⟩
          have htake : c.skipTrivia.rest.takeWhile CharClass.continuesName = n.text := by
            rw [hrest, List.takeWhile_cons_of_pos (CharClass.continuesName_of_startsName hx)]
            rfl
          rw [htake] at h
          cases h
          have hsplit : c.skipTrivia.rest = n.text ++ t.dropWhile CharClass.continuesName := by
            rw [hrest, Name.text, List.cons_append, List.takeWhile_append_dropWhile]
          have hn := spans_advance hsplit
          refine ⟨g, n, hspan.trans hn, ?_, rfl, by rw [hspan.position]⟩
          rw [List.append_cancel_left (hn.rest.symm.trans hsplit)]
          intro y hy
          have hnot := List.head?_dropWhile_not CharClass.continuesName t
          rw [Option.mem_def.mp hy] at hnot
          exact hnot
      · simp [hnil] at hstarts
    · cases h
  · rintro ⟨g, n, hspan, hends, rfl, rfl⟩
    obtain ⟨e, hgap, hn⟩ := hspan.split
    have hskip := skipTrivia_eq hgap (by rw [hn.rest]; exact triviaLength_name n _)
    have htake : e.rest.takeWhile CharClass.continuesName = n.text := by
      rw [hn.rest, n.takeWhile_text hends]
    have hstarts : e.rest.head?.any CharClass.startsName = true := by
      rw [hn.rest]
      exact n.starts
    rw [hskip, if_pos hstarts, htake, hn.advance_eq, hgap.position]

/-! ## Blocks -/

end Parser

/-- Within a comment of a block nothing counts but the end of its line. -/
theorem blockLength_comment (depth : Nat) (line : Line) (t : Text) :
    blockLength depth true (line.1 ++ '\n' :: t) =
      (blockLength depth false t).map (· + (line.1.length + 1)) := by
  obtain ⟨line, hline⟩ := line
  induction line with
  | nil => rfl
  | cons c line ih =>
    obtain ⟨hc, hline⟩ := not_or.mp fun h => hline (List.mem_cons.mpr h)
    have hnewline : (c != '\n') = true := by simpa using Ne.symm hc
    simp only [List.cons_append, blockLength, hnewline, ih hline, Option.map_map, List.length_cons]
    rfl

/-- A character that is neither a brace nor the beginning of a comment takes the scanner one further. -/
theorem blockLength_other {depth : Nat} {c : Char} {t : Text} (hopen : c ≠ '\x7b') (hclose : c ≠ '\x7d')
    (hslash : ¬ (c = '/' ∧ t.head? = some '/')) :
    blockLength depth false (c :: t) = (blockLength depth false t).map (· + 1) := by
  have hcomment : ¬ (c == '/' && t.head? == some '/') = true := by simpa using hslash
  rw [blockLength.eq_def]
  dsimp only
  rw [if_neg hcomment, if_neg (by simpa using hopen), if_neg (by simpa using hclose)]

/-- Braces that are **balanced** make no difference to where a block ends. The induction follows the balanced text;
each block within it opens one level and closes it again. -/
theorem blockLength_balanced {t : Text} (ht : Balanced t) (depth : Nat) (rest : Text) :
    blockLength depth false (t ++ '\x7d' :: rest) =
      (blockLength depth false ('\x7d' :: rest)).map (· + t.length) := by
  induction ht generalizing depth rest with
  | nil => simp
  | @block inner tail hi hr ihi ihr =>
    have hopen : blockLength depth false ('\x7b' :: (inner ++ '\x7d' :: (tail ++ '\x7d' :: rest))) =
        (blockLength (depth + 1) false (inner ++ '\x7d' :: (tail ++ '\x7d' :: rest))).map (· + 1) := rfl
    have hclose : blockLength (depth + 1) false ('\x7d' :: (tail ++ '\x7d' :: rest)) =
        (blockLength depth false (tail ++ '\x7d' :: rest)).map (· + 1) := rfl
    rw [List.cons_append, List.append_assoc, List.cons_append, hopen, ihi, hclose, ihr]
    simp only [Option.map_map, List.length_cons, List.length_append]
    congr 1
    funext n
    simp only [Function.comp]
    omega
  | @comment line tail hr ih =>
    have hslashes : blockLength depth false ('/' :: '/' :: (line.1 ++ '\n' :: (tail ++ '\x7d' :: rest))) =
        ((blockLength depth true (line.1 ++ '\n' :: (tail ++ '\x7d' :: rest))).map (· + 1)).map (· + 1) :=
      rfl
    rw [List.cons_append, List.cons_append, List.append_assoc, List.cons_append, hslashes,
      blockLength_comment, ih]
    simp only [Option.map_map, List.length_cons, List.length_append]
    congr 1
    funext n
    simp only [Function.comp]
    omega
  | @other c tail hopen hclose hslash hr ih =>
    have hhead : ¬ (c = '/' ∧ (tail ++ '\x7d' :: rest).head? = some '/') := by
      cases tail with
      | nil => simp
      | cons => exact hslash
    rw [List.cons_append, blockLength_other hopen hclose hhead, ih, Option.map_map]
    rfl

/-- A comment within a block that ends has an end itself. -/
theorem exists_line_of_blockLength {depth n : Nat} {t : Text} (h : blockLength depth true t = some n) :
    ∃ (line : Line) (rest : Text), t = line.1 ++ '\n' :: rest := by
  induction t generalizing n with
  | nil => cases h
  | cons c t ih =>
    by_cases hc : c = '\n'
    · exact ⟨⟨[], List.not_mem_nil⟩, t, by rw [hc]; rfl⟩
    · have hnewline : (c != '\n') = true := by simpa using hc
      rw [blockLength, hnewline] at h
      obtain ⟨m, hm, -⟩ := Option.map_eq_some_iff.mp h
      obtain ⟨line, rest, rfl⟩ := ih hm
      exact ⟨⟨c :: line.1, by simpa [Ne.symm hc] using line.2⟩, rest, rfl⟩

/-- A block that **ends** has balanced braces. What the scanner has passed is put together to a balanced text, along
its recursion. -/
theorem exists_balanced {depth n : Nat} {t : Text} (h : blockLength depth false t = some n) :
    ∃ inner rest, Balanced inner ∧ t = inner ++ '\x7d' :: rest := by
  match t with
  | [] => cases h
  | c :: t =>
    by_cases hslash : c = '/' ∧ t.head? = some '/'
    · obtain ⟨rfl, hhead⟩ := hslash
      obtain ⟨u, hu⟩ := List.head?_eq_some_iff.mp hhead
      have hslashes : blockLength depth false ('/' :: '/' :: u) =
          ((blockLength depth true u).map (· + 1)).map (· + 1) := rfl
      rw [hu, hslashes, Option.map_map] at h
      obtain ⟨m, hm, -⟩ := Option.map_eq_some_iff.mp h
      obtain ⟨line, after, rfl⟩ := exists_line_of_blockLength hm
      rw [blockLength_comment] at hm
      obtain ⟨k, hk, -⟩ := Option.map_eq_some_iff.mp hm
      have hlt : after.length < t.length := by
        simp only [hu, List.length_cons, List.length_append]
        omega
      obtain ⟨inner, rest, hinner, rfl⟩ := exists_balanced hk
      exact ⟨_, rest, hinner.comment line, by simp [hu]⟩
    have hstep : ∀ {e : Nat}, (blockLength e false t).map (· + 1) = some n →
        ∃ m, blockLength e false t = some m := by
      intro e he
      obtain ⟨m, hm, -⟩ := Option.map_eq_some_iff.mp he
      exact ⟨m, hm⟩
    by_cases hopen : c = '\x7b'
    · subst hopen
      obtain ⟨m, hm⟩ := hstep h
      obtain ⟨inner, after, hinner, hafter⟩ := exists_balanced hm
      rw [hafter, blockLength_balanced hinner] at hm
      obtain ⟨k, hk, -⟩ := Option.map_eq_some_iff.mp hm
      obtain ⟨j, hj, -⟩ := Option.map_eq_some_iff.mp (show (blockLength depth false after).map (· + 1) =
        some k from hk)
      have hlt : after.length < t.length := by
        simp only [hafter, List.length_cons, List.length_append]
        omega
      obtain ⟨inner', rest, hinner', rfl⟩ := exists_balanced hj
      exact ⟨_, rest, hinner.block hinner', by simp [hafter]⟩
    by_cases hclose : c = '\x7d'
    · exact ⟨[], t, .nil, by rw [hclose]; rfl⟩
    · obtain ⟨m, hm⟩ := hstep ((blockLength_other hopen hclose hslash).symm.trans h)
      obtain ⟨inner, rest, hinner, rfl⟩ := exists_balanced hm
      refine ⟨c :: inner, rest, hinner.other hopen hclose ?_, rfl⟩
      rintro ⟨rfl, hhead⟩
      exact hslash ⟨rfl, by rw [List.head?_append, hhead]; rfl⟩
termination_by t.length
decreasing_by all_goals simp only [List.length_cons]; omega

namespace Parser

variable {c d : Cursor}

/-- **A block** is read from its opening brace to the one that closes it, with balanced braces in between. Both
directions follow the scanner: what it passes is balanced, and it passes what is balanced. -/
theorem block_eq_ok_iff : block c = .ok ((), d) ↔
    ∃ (g : Gap) (inner : Text), Balanced inner ∧
      c.Spans (g.text ++ '\x7b' :: (inner ++ ['\x7d'])) d := by
  have htail : ∀ {e : Cursor}, blockTail e = .ok ((), d) ↔
      ∃ inner, Balanced inner ∧ e.Spans (inner ++ ['\x7d']) d := by
    intro e
    constructor
    · intro h
      rw [blockTail] at h
      split at h
      · next n hn =>
        cases h
        obtain ⟨inner, rest, hinner, hrest⟩ := exists_balanced hn
        rw [hrest, blockLength_balanced hinner] at hn
        obtain rfl : 1 + inner.length = n := by simpa [blockLength] using hn
        refine ⟨inner, hinner, ?_⟩
        have hspan := spans_advance (c := e) (t := inner ++ ['\x7d']) (u := rest) (by simpa using hrest)
        rwa [List.length_append, List.length_singleton, Nat.add_comm] at hspan
      · cases h
    · rintro ⟨inner, hinner, hspan⟩
      have hrest : e.rest = inner ++ '\x7d' :: d.rest := by simpa using hspan.rest
      have hlength : blockLength 0 false e.rest = some (inner ++ ['\x7d']).length := by
        rw [hrest, blockLength_balanced hinner]
        simp [blockLength, Nat.add_comm]
      rw [blockTail, hlength]
      exact congrArg _ (congrArg _ hspan.advance_eq)
  rw [block, bind_eq_ok_iff]
  constructor
  · rintro ⟨⟨⟩, e, hopen, hinner⟩
    obtain ⟨g, hg⟩ := (symbol_eq_ok_iff (by decide)).mp hopen
    obtain ⟨inner, hbalanced, hspan⟩ := htail.mp hinner
    exact ⟨g, inner, hbalanced, by simpa using hg.trans hspan⟩
  · rintro ⟨g, inner, hbalanced, hspan⟩
    rw [List.append_cons] at hspan
    obtain ⟨e, hopen, hinner⟩ := hspan.split
    exact ⟨(), e, (symbol_eq_ok_iff (by decide)).mpr ⟨g, hopen⟩, htail.mpr ⟨inner, hbalanced, hinner⟩⟩

/-! ## Parameters -/

/-- What stands behind a name, if it is a gap and a mark, ends the name. -/
theorem ends_of_spans {g : Gap} {x : Char} {t : Text} (h : c.Spans (g.text ++ x :: t) d)
    (hx : CharClass.continuesName x = false) : Ends c.rest := by
  rw [h.rest, List.append_assoc]
  exact g.ends (ends_cons _ hx)

theorem parameter_eq_ok_iff {s : String} (more : Bool) :
    (∃ r e, name c = .ok ((s, r), e) ∧ separator e = .ok (more, d)) ↔
      ∃ p : Parameter, s = String.ofList p.name.text ∧ c.Spans (p.text ++ [separatorMark more]) d := by
  constructor
  · rintro ⟨r, e, hname, hseparator⟩
    obtain ⟨before, n, hn, -, rfl, -⟩ := name_eq_ok_iff.mp hname
    obtain ⟨after, hafter⟩ := separator_eq_ok_iff.mp hseparator
    exact ⟨⟨before, n, after⟩, rfl, by simpa [Parameter.text] using hn.trans hafter⟩
  · rintro ⟨p, rfl, hspan⟩
    obtain ⟨before, n, after⟩ := p
    have hassoc : Parameter.text ⟨before, n, after⟩ ++ [separatorMark more] =
        before.text ++ n.text ++ (after.text ++ [separatorMark more]) := by simp [Parameter.text]
    rw [hassoc] at hspan
    obtain ⟨e, hn, hafter⟩ := hspan.split
    have hends : Ends e.rest := ends_of_spans hafter (by cases more <;> decide)
    exact ⟨_, e, name_eq_ok_iff.mpr ⟨before, n, hn, hends, rfl, rfl⟩, separator_eq_ok_iff.mpr ⟨after, hafter⟩⟩

/-- Parameters without a look at how far they go. The definition has to see that the rest gets shorter, which plays
no part in what is read. -/
theorem parameterList_eq_match (c : Cursor) :
    parameterList c = match name c with
      | .error f => .error f
      | .ok ((first, _), d) => match separator d with
        | .error f => .error f
        | .ok (false, d) => .ok ([first], d)
        | .ok (true, d) => (parameterList d).map fun r => (first :: r.1, r.2) := by
  rw [parameterList]
  split <;> rename_i hname <;> simp only [hname]
  split <;> rename_i hseparator <;> simp only [hseparator]
  split <;> rename_i hothers <;> simp only [hothers, Except.map]

/-- A parameter is the last one, or more parameters follow. -/
theorem parameterList_eq {s : String} {r : Range} {e : Cursor} {more : Bool}
    (hname : name c = .ok ((s, r), e)) (hseparator : separator e = .ok (more, d)) :
    parameterList c = match more with
      | false => .ok ([s], d)
      | true => match parameterList d with
        | .error f => .error f
        | .ok (others, e) => .ok (s :: others, e) := by
  rw [parameterList_eq_match, hname]
  simp only [hseparator]
  cases more with
  | false => rfl
  | true => cases hothers : parameterList d <;> simp only [hothers, Except.map]

/-- Where parameters are read, there are parameters of the grammar. The induction follows the parser from one
parameter to the next. -/
theorem exists_parameters {names : List String} (h : parameterList c = .ok (names, d)) :
    ∃ (first : Parameter) (others : List Parameter), names = (Parameters.list first others).names ∧
      c.Spans (first.text ++ (othersText others ++ [')'])) d := by
  fun_induction parameterList c generalizing names with
  | case1 | case2 | case4 => cases h
  | case3 c s r e hname e' hseparator =>
    cases h
    obtain ⟨p, rfl, hspan⟩ := (parameter_eq_ok_iff _).mp ⟨r, e, hname, hseparator⟩
    exact ⟨p, [], rfl, hspan⟩
  | case5 c s r e hname e' hseparator others e'' hothers ih =>
    cases h
    obtain ⟨p, rfl, hspan⟩ := (parameter_eq_ok_iff _).mp ⟨r, e, hname, hseparator⟩
    obtain ⟨q, qs, rfl, hrest⟩ := ih hothers
    exact ⟨p, q :: qs, rfl, by simpa [separatorMark] using hspan.trans hrest⟩

/-- Parameters of the grammar are read, one after the other. The induction is on the list of those that follow the
first one. -/
theorem parameterList_text (first : Parameter) (others : List Parameter)
    (h : c.Spans (first.text ++ (othersText others ++ [')'])) d) :
    parameterList c = .ok ((Parameters.list first others).names, d) := by
  induction others generalizing c first with
  | nil =>
    obtain ⟨r, e, hname, hseparator⟩ := (parameter_eq_ok_iff false).mpr ⟨first, rfl, h⟩
    rw [parameterList_eq hname hseparator]
    rfl
  | cons q qs ih =>
    have hassoc : first.text ++ (othersText (q :: qs) ++ [')']) =
        first.text ++ [','] ++ (q.text ++ (othersText qs ++ [')'])) := by simp
    rw [hassoc] at h
    obtain ⟨e', hfirst, hothers⟩ := h.split
    obtain ⟨r, e, hname, hseparator⟩ := (parameter_eq_ok_iff true).mpr ⟨first, rfl, hfirst⟩
    rw [parameterList_eq hname hseparator, ih q hothers]
    rfl

/-- What stands between the parentheses of a function. A gap before the first parameter is part of it. -/
theorem parametersTail_eq_ok_iff {names : List String} :
    (if c.skipTrivia.rest.head? = some ')' then .ok ([], c.skipTrivia.advance 1)
      else parameterList c.skipTrivia) = Except.ok (names, d) ↔
      ∃ ps : Parameters, names = ps.names ∧ c.Spans (ps.text ++ [')']) d := by
  constructor
  · intro h
    split at h
    · next hhead =>
      cases h
      obtain ⟨g, hg⟩ := (skipTrivia_mark_iff (by decide) (by decide)).mp ⟨hhead, rfl⟩
      exact ⟨.none g, rfl, hg⟩
    · obtain ⟨first, others, rfl, hspan⟩ := exists_parameters h
      rcases c.spans_skipTrivia with ⟨g, hg, -⟩ | ⟨hnil, -⟩
      · refine ⟨.list ⟨g ++ first.before, first.name, first.after⟩ others, rfl, ?_⟩
        simpa [Parameters.text, Parameter.text] using hg.trans hspan
      · have hrest := hspan.rest
        simp [hnil, Parameter.text, Name.text] at hrest
  · rintro ⟨ps, rfl, hspan⟩
    cases ps with
    | none g =>
      obtain ⟨hhead, hadvance⟩ := (skipTrivia_mark_iff (by decide) (by decide)).mpr ⟨g, hspan⟩
      rw [if_pos hhead, hadvance]
      rfl
    | list first others =>
      simp only [Parameters.text, Parameter.text, List.append_assoc] at hspan
      obtain ⟨e, hbefore, hlist⟩ := hspan.split
      have hskip := skipTrivia_eq hbefore (by rw [hlist.rest, List.append_assoc]; exact triviaLength_name _ _)
      have hhead : e.rest.head? ≠ some ')' := by
        rw [hlist.rest]
        exact fun h => first.name.first_ne (by decide) (Option.some.inj h)
      rw [hskip, if_neg hhead]
      exact parameterList_text ⟨[], first.name, first.after⟩ others (by simpa [Parameter.text] using hlist)

/-- **Parameters** with their parentheses: the two directions come from `exists_parameters` and
`parameterList_text`. -/
theorem parameters_eq_ok_iff {names : List String} : parameters c = .ok (names, d) ↔
    ∃ (g : Gap) (ps : Parameters), names = ps.names ∧ c.Spans (g.text ++ '(' :: (ps.text ++ [')'])) d := by
  rw [parameters, bind_eq_ok_iff]
  constructor
  · rintro ⟨⟨⟩, e, hopen, htail⟩
    obtain ⟨g, hg⟩ := (symbol_eq_ok_iff (by decide)).mp hopen
    obtain ⟨ps, hnames, hspan⟩ := parametersTail_eq_ok_iff.mp htail
    exact ⟨g, ps, hnames, by simpa using hg.trans hspan⟩
  · rintro ⟨g, ps, hnames, hspan⟩
    rw [List.append_cons] at hspan
    obtain ⟨e, hopen, hps⟩ := hspan.split
    exact ⟨(), e, (symbol_eq_ok_iff (by decide)).mpr ⟨g, hopen⟩,
      parametersTail_eq_ok_iff.mpr ⟨ps, hnames, hps⟩⟩

/-! ## Declarations -/

/-- What follows the keyword of a variable: its name and a semicolon. -/
theorem variableTail_eq_ok_iff {start : Nat} {x : Declaration} :
    variableTail start c = .ok (x, d) ↔ ∃ (gap : Gap) (n : Name) (last : Gap),
      c.Spans (gap.text ++ (n.text ++ (last.text ++ [';']))) d ∧
      x = ⟨.var, String.ofList n.text, .ofBounds start d.position,
        ⟨c.position + gap.text.length, n.text.length⟩⟩ := by
  rw [variableTail, bind_eq_ok_iff]
  constructor
  · rintro ⟨⟨s, r⟩, e, hname, htail⟩
    obtain ⟨⟨⟩, e', hsymbol, hpure⟩ := bind_eq_ok_iff.mp htail
    cases hpure
    obtain ⟨gap, n, hn, -, rfl, rfl⟩ := name_eq_ok_iff.mp hname
    obtain ⟨last, hlast⟩ := (symbol_eq_ok_iff (by decide)).mp hsymbol
    exact ⟨gap, n, last, by simpa using hn.trans hlast, rfl⟩
  · rintro ⟨gap, n, last, hspan, rfl⟩
    rw [← List.append_assoc] at hspan
    obtain ⟨e, hn, hlast⟩ := hspan.split
    have hends : Ends e.rest := ends_of_spans hlast (by decide)
    exact ⟨_, e, name_eq_ok_iff.mpr ⟨gap, n, hn, hends, rfl, rfl⟩,
      bind_eq_ok_iff.mpr ⟨(), d, (symbol_eq_ok_iff (by decide)).mpr ⟨last, hlast⟩, rfl⟩⟩

/-- What follows the keyword of a function: its name, its parameters and its block. -/
theorem functionTail_eq_ok_iff {start : Nat} {x : Declaration} :
    functionTail start c = .ok (x, d) ↔ ∃ (gap : Gap) (n : Name) (next : Gap) (ps : Parameters) (last : Gap)
      (inner : Text), Balanced inner ∧
      c.Spans (gap.text ++ (n.text ++ (next.text ++
        '(' :: (ps.text ++ ')' :: (last.text ++ '\x7b' :: (inner ++ ['\x7d'])))))) d ∧
      x = ⟨.function ps.names, String.ofList n.text, .ofBounds start d.position,
        ⟨c.position + gap.text.length, n.text.length⟩⟩ := by
  rw [functionTail, bind_eq_ok_iff]
  constructor
  · rintro ⟨⟨s, r⟩, e, hname, htail⟩
    obtain ⟨names, e', hparameters, htail'⟩ := bind_eq_ok_iff.mp htail
    obtain ⟨⟨⟩, e'', hblock, hpure⟩ := bind_eq_ok_iff.mp htail'
    cases hpure
    obtain ⟨gap, n, hn, -, rfl, rfl⟩ := name_eq_ok_iff.mp hname
    obtain ⟨next, ps, rfl, hps⟩ := parameters_eq_ok_iff.mp hparameters
    obtain ⟨last, inner, hinner, hlast⟩ := block_eq_ok_iff.mp hblock
    exact ⟨gap, n, next, ps, last, inner, hinner, by simpa using (hn.trans hps).trans hlast, rfl⟩
  · rintro ⟨gap, n, next, ps, last, inner, hinner, hspan, rfl⟩
    have hassoc : gap.text ++ (n.text ++ (next.text ++
        '(' :: (ps.text ++ ')' :: (last.text ++ '\x7b' :: (inner ++ ['\x7d']))))) =
        gap.text ++ n.text ++ ((next.text ++ '(' :: (ps.text ++ [')'])) ++
          (last.text ++ '\x7b' :: (inner ++ ['\x7d']))) := by simp
    rw [hassoc] at hspan
    obtain ⟨e, hn, htail⟩ := hspan.split
    obtain ⟨e', hps, hblock⟩ := htail.split
    have hends : Ends e.rest := ends_of_spans hps (by decide)
    exact ⟨_, e, name_eq_ok_iff.mpr ⟨gap, n, hn, hends, rfl, rfl⟩,
      bind_eq_ok_iff.mpr ⟨_, e', parameters_eq_ok_iff.mpr ⟨next, ps, rfl, hps⟩,
        bind_eq_ok_iff.mpr ⟨(), d, block_eq_ok_iff.mpr ⟨last, inner, hinner, hblock⟩, rfl⟩⟩⟩

/-- A declaration is its keyword, read as a name, and what the keyword asks for. -/
theorem keyword_eq_ok_iff {x : Declaration} (hc : triviaLength false c.rest = 0) :
    declaration c = .ok (x, d) ↔ ∃ e, Ends e.rest ∧
      (c.Spans ['v', 'a', 'r'] e ∧ variableTail c.position e = .ok (x, d) ∨
        c.Spans ['d', 'e', 'f'] e ∧ functionTail c.position e = .ok (x, d)) := by
  have hname : ∀ (word : Name) {e : Cursor}, c.Spans word.text e → Ends e.rest →
      name c = .ok ((String.ofList word.text, ⟨c.position, word.text.length⟩), e) := by
    intro word e hword hends
    exact name_eq_ok_iff.mpr ⟨[], word, hword, hends, rfl, rfl⟩
  constructor
  · intro h
    rw [declaration] at h
    split at h
    · cases h
    · next keyword r e hkeyword =>
      obtain ⟨g, n, hn, hends, rfl, -⟩ := name_eq_ok_iff.mp hkeyword
      obtain rfl : g = [] := gap_eq_nil (t := n.text ++ e.rest) (by
        rw [← List.append_assoc, ← hn.rest, hc])
      split at h
      · next hvar => exact ⟨e, hends, .inl ⟨by simpa [String.ofList_injective hvar] using hn, h⟩⟩
      · split at h
        · next hdef => exact ⟨e, hends, .inr ⟨by simpa [String.ofList_injective hdef] using hn, h⟩⟩
        · cases h
  · rintro ⟨e, hends, ⟨hvar, htail⟩ | ⟨hdef, htail⟩⟩
    · have hkeyword := hname ⟨'v', ['a', 'r'], by decide, List.all_eq_true.mp (by decide)⟩ hvar hends
      rw [declaration, hkeyword]
      exact htail
    · have hkeyword := hname ⟨'d', ['e', 'f'], by decide, List.all_eq_true.mp (by decide)⟩ hdef hends
      rw [declaration, hkeyword]
      exact htail

/-- The first character of a name ends what stands before it, or it does not, whatever follows. -/
theorem ends_name_iff (g : Gap) (n : Name) (t : Text) :
    Ends (g.text ++ (n.text ++ t)) ↔ Ends (g.text ++ n.text) := by
  have hhead : (g.text ++ (n.text ++ t)).head? = (g.text ++ n.text).head? := by
    simp [List.head?_append, Name.text]
  rw [Ends, hhead, Ends]

/-- **A declaration** is read where nothing is to be skipped. What is read is a declaration of the grammar, and it
says what its tree says, ranges included. -/
theorem declaration_eq_ok_iff {x : Declaration} (hc : triviaLength false c.rest = 0) :
    declaration c = .ok (x, d) ↔ ∃ i : Item, c.Spans i.text d ∧ x = i.declaration c.position := by
  have hrange : ∀ {t : Text}, c.Spans t d → Range.ofBounds c.position d.position = ⟨c.position, t.length⟩ := by
    intro t h
    rw [Range.ofBounds, h.position, Nat.add_sub_cancel_left]
  rw [keyword_eq_ok_iff hc]
  constructor
  · rintro ⟨e, hends, ⟨hvar, htail⟩ | ⟨hdef, htail⟩⟩
    · obtain ⟨gap, n, last, hspan, rfl⟩ := variableTail_eq_ok_iff.mp htail
      rw [hspan.rest, List.append_assoc, List.append_assoc, ends_name_iff] at hends
      have hitem : c.Spans (Item.var gap n last hends).text d := hvar.trans hspan
      exact ⟨_, hitem, by rw [hrange hitem, hvar.position]; rfl⟩
    · obtain ⟨gap, n, next, ps, last, inner, hinner, hspan, rfl⟩ := functionTail_eq_ok_iff.mp htail
      rw [hspan.rest, List.append_assoc, List.append_assoc, ends_name_iff] at hends
      have hitem : c.Spans (Item.function gap n hends next ps last inner hinner).text d := hdef.trans hspan
      exact ⟨_, hitem, by rw [hrange hitem, hdef.position]; rfl⟩
  · rintro ⟨i, hitem, rfl⟩
    cases i with
    | var gap n last ends =>
      obtain ⟨e, hvar, htail⟩ := Spans.split (t := ['v', 'a', 'r']) (u := gap.text ++ (n.text ++ _)) hitem
      have hends : Ends e.rest := by
        rw [htail.rest, List.append_assoc, List.append_assoc, ends_name_iff]
        exact ends
      refine ⟨e, hends, .inl ⟨hvar, variableTail_eq_ok_iff.mpr ⟨gap, n, last, htail, ?_⟩⟩⟩
      rw [hrange hitem, hvar.position]
      rfl
    | function gap n ends next ps last inner hinner =>
      obtain ⟨e, hdef, htail⟩ := Spans.split (t := ['d', 'e', 'f']) (u := gap.text ++ (n.text ++ _)) hitem
      have hends : Ends e.rest := by
        rw [htail.rest, List.append_assoc, List.append_assoc, ends_name_iff]
        exact ends
      refine ⟨e, hends, .inr ⟨hdef, functionTail_eq_ok_iff.mpr
        ⟨gap, n, next, ps, last, inner, hinner, htail, ?_⟩⟩⟩
      rw [hrange hitem, hdef.position]
      rfl

end Parser

/-! ## Texts -/

/-- A text **without problems** has a tree. The induction follows the loop: each turn reads a declaration of the
grammar behind a gap, and the tree is put together from the back. -/
theorem exists_source {c : Cursor} (h : (parseFrom c).problems = []) : ∃ s : Source, s.text = c.rest := by
  fun_induction parseFrom c with
  | case1 c hnil =>
    rcases c.spans_skipTrivia with ⟨g, hg, -⟩ | ⟨-, g, line, hline⟩
    · exact ⟨⟨[], g, none⟩, by rw [hg.rest, hnil]; rfl⟩
    · exact ⟨⟨[], g, some line⟩, hline.symm⟩
  | case2 c hne x d hd ih =>
    obtain ⟨s, hs⟩ := ih h
    rcases c.spans_skipTrivia with ⟨g, hg, hskip⟩ | ⟨hnil, -⟩
    · obtain ⟨i, hi, -⟩ := (Parser.declaration_eq_ok_iff hskip).mp hd
      refine ⟨⟨(g, i) :: s.items, s.last, s.remark⟩, ?_⟩
      rw [(hg.trans hi).rest, ← hs]
      simp [Source.text]
    · exact absurd hnil hne
  | case3 => cases h

/-- Nothing is skipped where a declaration stands, as it begins with a letter of its keyword. -/
theorem triviaLength_item (i : Item) (t : Text) : triviaLength false (i.text ++ t) = 0 := by
  cases i <;> exact triviaLength_cons _ (by decide) (by decide)

/-- Behind the last declaration everything is skipped, so the loop over declarations ends there. -/
theorem skipTrivia_last {c : Cursor} {last : Gap} {remark : Option Line}
    (h : c.rest = last.text ++ remarkText remark) : c.skipTrivia.rest = [] := by
  have hremark : triviaLength false (remarkText remark) = (remarkText remark).length := by
    cases remark with
    | none => rfl
    | some line => exact triviaLength_remark line
  rw [skipTrivia, h, triviaLength_gap, hremark, ← List.length_append, ← h]
  exact List.drop_length

/-- One turn of the loop without a look at how far it goes: a declaration is read and the next one follows, or a
problem is noted and reading goes on where it can be recovered from. -/
theorem parseFrom_eq_ite (c : Cursor) :
    parseFrom c =
      if c.skipTrivia.rest = [] then {}
      else match Parser.declaration c.skipTrivia with
        | .ok (x, d) => (parseFrom d).consDeclaration x
        | .error f => (parseFrom f.place.recover).consProblem ⟨f.place.position, f.fault⟩ := by
  rw [parseFrom]
  split
  · rfl
  · split <;> rename_i hfound <;> rw [hfound]

/-- A gap is skipped before anything is looked for. So it makes no difference where in a gap the loop starts. -/
theorem parseFrom_gap {c d : Cursor} {g : Gap} (h : c.Spans g.text d) : parseFrom c = parseFrom d := by
  have hskip : c.skipTrivia = d.skipTrivia := by
    rw [skipTrivia, h.rest, triviaLength_gap, ← advance_advance, h.advance_eq]
    rfl
  rw [parseFrom_eq_ite c, parseFrom_eq_ite d, hskip]

/-- **Declarations are found** one after the other, whatever follows them. For a declaration ends with a mark of its
own, and does not look beyond it. -/
theorem parseFrom_items {c d : Cursor} {items : List (Gap × Item)} {g : Gap}
    (h : c.Spans (itemsText items ++ g.text) d) :
    parseFrom c =
      ⟨declarationsFrom c.position items ++ (parseFrom d).declarations, (parseFrom d).problems⟩ := by
  induction items generalizing c with
  | nil => exact parseFrom_gap h
  | cons p items ih =>
    obtain ⟨gap, i⟩ := p
    have hassoc : itemsText ((gap, i) :: items) ++ g.text =
        gap.text ++ (i.text ++ (itemsText items ++ g.text)) := by simp
    rw [hassoc] at h
    obtain ⟨c₁, hgap, hrest⟩ := h.split
    obtain ⟨c₂, hitem, hrest⟩ := hrest.split
    have hbare : triviaLength false c₁.rest = 0 := by rw [hitem.rest, triviaLength_item]
    have hskip := skipTrivia_eq hgap hbare
    have hfound := (Parser.declaration_eq_ok_iff hbare).mpr ⟨i, hitem, rfl⟩
    have hne : c.skipTrivia.rest ≠ [] := by
      rw [hskip, hitem.rest]
      cases i <;> simp [Item.text]
    rw [← hskip] at hfound
    rw [parseFrom_eq_ite, if_neg hne, hfound]
    simp only
    rw [hskip, ih hrest, hitem.position, hgap.position]
    rfl

/-- The tree of a text is what the parser **finds**. Its declarations are found one after the other, and behind the
last one there is a gap and maybe a comment, in which nothing is found. -/
theorem parseFrom_text {c : Cursor} {items : List (Gap × Item)} {last : Gap} {remark : Option Line}
    (h : c.rest = Source.text ⟨items, last, remark⟩) :
    parseFrom c = ⟨declarationsFrom c.position items, []⟩ := by
  have hsplit : c.rest = (itemsText items ++ Gap.text []) ++ (last.text ++ remarkText remark) := by
    simpa [Source.text] using h
  have hspan := spans_advance hsplit
  have hlast := List.append_cancel_left (hspan.rest.symm.trans hsplit)
  rw [parseFrom_items hspan, parseFrom_eq_ite (c.advance _), if_pos (skipTrivia_last hlast)]
  exact congrArg (Outline.mk · []) (List.append_nil _)

/-- **The parser accepts exactly the grammar.** It reports no problem if and only if the text has a tree, then it
gives the declarations of the tree, and a text has one tree at most. The grammar says nothing of cursors or
scanners; what connects the two are the equivalences for the parts of the parser. -/
theorem parse_exact :
    (∀ t : Text, (parse t).problems = [] ↔ ∃ s : Source, s.text = t) ∧
      (∀ s : Source, parse s.text = ⟨s.declarations, []⟩) ∧
      Function.Injective Source.text := by
  have htree : ∀ s : Source, parse s.text = ⟨s.declarations, []⟩ := fun s => parseFrom_text rfl
  refine ⟨?_, htree, fun _ _ => Source.text_injective⟩
  intro t
  constructor
  · exact exists_source
  · rintro ⟨s, rfl⟩
    rw [htree]

end CodeModel.Foo
