import CodeModel.Proofs.Foo.Acceptance

/-!
# Texts behind other texts

What a text declares does not depend on where it stands, and a text that is complete in itself leaves nothing
open for the text behind it.

* A parser that starts further on does the **same further on** (`Shifts`). That is so for sequences if it is so
  for their parts, hence for all parsers of the language and for the loop (`parseFrom_shift`).
* A text that ends with the end of a line and has **no problems** is a sequence of declarations and a gap. Behind
  it the parser stands as at the beginning of a text (`parseFrom_items`).

So parsing **composes** over concatenation (`parse_append`).
-/

namespace CodeModel

/-- The stretch `n` characters further on. -/
def Range.shift (n : Nat) (r : Range) : Range := { r with offset := r.offset + n }

/-- A stretch between two places that are further on is further on by as much, and has the same length. -/
theorem Range.ofBounds_add (n start stop : Nat) :
    Range.ofBounds (start + n) (stop + n) = (Range.ofBounds start stop).shift n := by
  rw [Range.ofBounds, Nat.add_sub_add_right]
  rfl

namespace Foo

open Grammar

/-! ## Further on -/

/-- The declaration `n` characters further on. -/
def Declaration.shift (n : Nat) (d : Declaration) : Declaration :=
  { d with fullRange := d.fullRange.shift n, nameRange := d.nameRange.shift n }

/-- The problem `n` characters further on. -/
def Problem.shift (n : Nat) (p : Problem) : Problem := { p with position := p.position + n }

/-- Everything `n` characters further on. -/
def Outline.shift (n : Nat) (o : Outline) : Outline :=
  ⟨o.declarations.map (·.shift n), o.problems.map (·.shift n)⟩

/-- The cursor `n` characters further on, with the same text left. -/
def Cursor.shift (n : Nat) (c : Cursor) : Cursor := { c with position := c.position + n }

/-- The failure `n` characters further on. -/
def Failure.shift (n : Nat) (f : Failure) : Failure := { f with place := f.place.shift n }

/-- The problem that reports a fault does not depend on the place but by its position. -/
theorem Problem.message_shift (n : Nat) (p : Problem) : (p.shift n).message = p.message := rfl

variable {α β γ : Type} {n : Nat} {c : Cursor}

@[simp] theorem Cursor.position_shift (n : Nat) (c : Cursor) : (c.shift n).position = c.position + n := rfl

@[simp] theorem Cursor.rest_shift (n : Nat) (c : Cursor) : (c.shift n).rest = c.rest := rfl

@[simp] theorem Cursor.advance_shift (n k : Nat) (c : Cursor) : (c.shift n).advance k = (c.advance k).shift n := by
  have hposition : c.position + n + k = c.position + k + n := Nat.add_right_comm ..
  simp only [advance, shift, hposition]

/-- What is skipped depends on what is left of the text only, not on the position of the cursor. -/
theorem Cursor.skipTrivia_shift (n : Nat) (c : Cursor) : (c.shift n).skipTrivia = c.skipTrivia.shift n :=
  advance_shift ..

theorem Cursor.recover_shift (n : Nat) (c : Cursor) : (c.shift n).recover = c.recover.shift n :=
  advance_shift ..

/-! ## Parsers -/

/-- The result `n` characters further on, with another answer. -/
def shifted (n : Nat) (g : α → β) : Except Failure (α × Cursor) → Except Failure (β × Cursor)
  | .ok (a, d) => .ok (g a, d.shift n)
  | .error f => .error (f.shift n)

/-- Started `n` characters further on, `q` does what `p` does, `n` characters further on. Answers may tell
positions, and are changed by `g` accordingly; failures tell their place. -/
def Shifts (n : Nat) (g : α → β) (p : Parser α) (q : Parser β) : Prop :=
  ∀ c : Cursor, q (c.shift n) = shifted n g (p c)

namespace Shifts

theorem pure {g : α → β} {a : α} {b : β} (h : b = g a) :
    Shifts n g (Pure.pure a : Parser α) (Pure.pure b) := fun _ => by
  rw [h]
  rfl

/-- **A sequence** does so if its parts do. With this rule and the next ones it is shown of each parser along the
way in which it is put together. -/
theorem bind {δ : Type} {g : α → β} {h : γ → δ} {p : Parser α} {q : Parser β} {f : α → Parser γ}
    {f' : β → Parser δ} (hp : Shifts n g p q) (hf : ∀ a, Shifts n h (f a) (f' (g a))) :
    Shifts n h (p >>= f) (q >>= f') := by
  intro c
  have hseq : (p >>= f) c = p c >>= fun r => f r.1 r.2 := rfl
  have hseq' : (q >>= f') (c.shift n) = q (c.shift n) >>= fun r => f' r.1 r.2 := rfl
  rw [hseq, hseq', hp c]
  rcases p c with failure | ⟨a, d⟩
  · rfl
  · exact hf a d

theorem trivia : Shifts n id Parser.trivia Parser.trivia := fun c =>
  congrArg (fun d => Except.ok ((), d)) (c.skipTrivia_shift n)

/-- **Positions** are the only answers that tell where a parser was started. -/
theorem position : Shifts n (· + n) Parser.position Parser.position := fun _ => rfl

/-- A parser that skips first does so, if what it does then does. -/
theorem afterTrivia {g : α → β} {p : Parser α} {q : Parser β} (h : Shifts n g p q) :
    Shifts n g (Parser.trivia >>= fun _ => p) (Parser.trivia >>= fun _ => q) :=
  trivia.bind fun _ => h

end Shifts

namespace Parser

theorem shifts_symbol (expected : Char) : Shifts n id (symbol expected) (symbol expected) := by
  refine Shifts.afterTrivia fun c => ?_
  by_cases h : c.rest.head? = some expected
  · simp [shifted, h]
  · simp [shifted, Failure.shift, h]

theorem shifts_name : Shifts n (Prod.map id (Range.shift n)) name name := by
  refine Shifts.afterTrivia fun c => ?_
  by_cases h : c.rest.head?.any CharClass.startsName = true
  · simp [shifted, h, Range.shift]
  · simp [shifted, Failure.shift, h]

theorem shifts_separator : Shifts n id separator separator := by
  refine Shifts.afterTrivia fun c => ?_
  by_cases hcomma : c.rest.head? = some ','
  · simp [shifted, hcomma]
  by_cases hclose : c.rest.head? = some ')'
  · simp [shifted, hclose]
  · simp [shifted, Failure.shift, hcomma, hclose]

theorem shifts_blockTail : Shifts n id blockTail blockTail := by
  intro c
  rw [blockTail, blockTail, c.rest_shift]
  rcases blockLength 0 false c.rest with _ | k
  · simp only [c.advance_shift, shifted, Failure.shift]
  · simp only [c.advance_shift, shifted, id]

/-- The list of parameters does so, by induction on what is left of the text: the rest of the list is read by the
same parser further on. -/
theorem shifts_parameterList : Shifts n id parameterList parameterList := by
  intro c
  fun_induction parameterList c with
  | case1 c f hname =>
    rw [parameterList_eq_match, shifts_name c, hname]
    rfl
  | case2 c first r d hname f hseparator =>
    rw [parameterList_eq_match, shifts_name c, hname]
    simp only [shifted, shifts_separator d, hseparator]
  | case3 c first r d hname d' hseparator =>
    rw [parameterList_eq_match, shifts_name c, hname]
    simp only [shifted, shifts_separator d, hseparator]
    rfl
  | case4 c first r d hname d' hseparator f hothers ih =>
    rw [hothers] at ih
    rw [parameterList_eq_match, shifts_name c, hname]
    simp only [shifted, shifts_separator d, hseparator, id, ih, Except.map]
  | case5 c first r d hname d' hseparator others d'' hothers ih =>
    rw [hothers] at ih
    rw [parameterList_eq_match, shifts_name c, hname]
    simp only [shifted, shifts_separator d, hseparator, id, ih]
    rfl

theorem shifts_parameters : Shifts n id parameters parameters := by
  refine (shifts_symbol _).bind fun _ => Shifts.afterTrivia fun c => ?_
  by_cases hclose : c.rest.head? = some ')'
  · simp [shifted, hclose]
  · simpa [hclose] using shifts_parameterList c

theorem shifts_block : Shifts n id block block :=
  (shifts_symbol _).bind fun _ => shifts_blockTail

theorem shifts_variableTail (start : Nat) :
    Shifts n (Declaration.shift n) (variableTail start) (variableTail (start + n)) :=
  shifts_name.bind fun _ => (shifts_symbol _).bind fun _ => Shifts.position.bind fun stop =>
    Shifts.pure (by rw [Range.ofBounds_add]; rfl)

theorem shifts_functionTail (start : Nat) :
    Shifts n (Declaration.shift n) (functionTail start) (functionTail (start + n)) :=
  shifts_name.bind fun _ => shifts_parameters.bind fun _ => shifts_block.bind fun _ =>
    Shifts.position.bind fun stop => Shifts.pure (by rw [Range.ofBounds_add]; rfl)

/-- **A declaration** further on has its ranges further on, and is the same otherwise. -/
theorem shifts_declaration : Shifts n (Declaration.shift n) declaration declaration := by
  intro c
  rw [declaration, declaration, shifts_name c]
  rcases name c with f | ⟨⟨keyword, r⟩, d⟩
  · rfl
  · simp only [shifted, Prod.map, id]
    split
    · exact shifts_variableTail c.position d
    · split
      · exact shifts_functionTail c.position d
      · rfl

end Parser

/-! ## Texts -/

/-- **A text further on** has its declarations and problems further on. The induction follows the loop; each turn
does the same further on, and so does the recovery after a failure. -/
theorem parseFrom_shift (n : Nat) (c : Cursor) : parseFrom (c.shift n) = (parseFrom c).shift n := by
  have hrest (c : Cursor) : (c.shift n).skipTrivia.rest = c.skipTrivia.rest := by
    rw [c.skipTrivia_shift, Cursor.rest_shift]
  fun_induction parseFrom c with
  | case1 c hend =>
    rw [parseFrom_eq_ite, hrest, if_pos hend]
    rfl
  | case2 c hend x d hd ih =>
    rw [parseFrom_eq_ite, hrest, if_neg hend, c.skipTrivia_shift, Parser.shifts_declaration, hd]
    simp only [shifted, ih]
    rfl
  | case3 c hend f hd ih =>
    rw [parseFrom_eq_ite, hrest, if_neg hend, c.skipTrivia_shift, Parser.shifts_declaration, hd]
    simp only [shifted, Failure.shift, Cursor.recover_shift, ih]
    rfl

/-- A text that is empty or ends with the end of a line does not end within a comment. -/
theorem remark_eq_none {s : Source} (h : s.text = [] ∨ s.text.getLast? = some '\n') : s.remark = none := by
  rcases hremark : s.remark with _ | ⟨line, hline⟩
  · rfl
  · have htext : s.text = itemsText s.items ++ s.last.text ++ '/' :: '/' :: line := by
      simp [Source.text, hremark, remarkText]
    rcases h with h | h
    · simp [htext] at h
    · have hmem : '\n' ∈ '/' :: '/' :: line := by
        rw [htext, List.getLast?_append_of_ne_nil _ (by simp)] at h
        exact List.mem_of_getLast? h
      exact absurd (by simpa using hmem) hline

/-- **Parsing composes.** Behind a text that is empty or ends with the end of a line and that has no problems, every
other text declares what it declares alone and has the problems it has alone, only further on. The first text is a
sequence of declarations and a gap, as no comment of it is left open, so the parser comes to the second one as to
the beginning of a text. -/
theorem parse_append (a b : Text) (hend : a = [] ∨ a.getLast? = some '\n') (ha : (parse a).problems = []) :
    (parse (a ++ b)).declarations = (parse a).declarations ++ (parse b).declarations.map (·.shift a.length) ∧
      (parse (a ++ b)).problems = (parse b).problems.map (·.shift a.length) ∧
      (parse (a ++ b)).problems.map Problem.message = (parse b).problems.map Problem.message := by
  obtain ⟨s, hs⟩ : ∃ s : Source, s.text = a := exists_source ha
  have hremark : s.remark = none := remark_eq_none (hs.symm ▸ hend)
  have htext : itemsText s.items ++ s.last.text = a := by
    rw [← hs, Source.text, hremark, remarkText, List.append_nil]
  have hspan : (⟨0, a ++ b⟩ : Cursor).Spans (itemsText s.items ++ s.last.text)
      (Cursor.shift a.length ⟨0, b⟩) := by
    rw [htext]
    exact ⟨rfl, rfl⟩
  have halone : parse a = ⟨declarationsFrom 0 s.items, []⟩ := parseFrom_text hs.symm
  have happend : parse (a ++ b) =
      ⟨declarationsFrom 0 s.items ++ ((parse b).shift a.length).declarations,
        ((parse b).shift a.length).problems⟩ := by
    rw [parse, parseFrom_items hspan, parseFrom_shift]
    rfl
  rw [happend, halone]
  exact ⟨rfl, rfl, List.map_map.trans (List.map_congr_left fun p _ => p.message_shift _)⟩

/-- A malformed text behind a declaration: its problem is found where it stands now. -/
theorem parse_append_malformed :
    ∃ a b : Text, (a = [] ∨ a.getLast? = some '\n') ∧ (parse a).problems = [] ∧
      ((parse a).declarations ≠ [] ∧ (parse b).problems ≠ []) ∧
      (parse (a ++ b)).declarations = (parse a).declarations ++ (parse b).declarations.map (·.shift a.length) ∧
      (parse (a ++ b)).problems = (parse b).problems.map (·.shift a.length) ∧
      (parse (a ++ b)).problems.map Problem.message = (parse b).problems.map Problem.message := by
  have hend : "var x;\n".toList = [] ∨ "var x;\n".toList.getLast? = some '\n' := .inr rfl
  have ha : (parse "var x;\n".toList).problems = [] := by decide +kernel
  have hproper : (parse "var x;\n".toList).declarations ≠ [] ∧ (parse "let y; var z;".toList).problems ≠ [] := by
    decide +kernel
  exact ⟨_, "let y; var z;".toList, hend, ha, hproper, parse_append _ _ hend ha⟩

end Foo

end CodeModel
