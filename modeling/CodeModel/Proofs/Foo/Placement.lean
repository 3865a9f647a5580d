import CodeModel.Proofs.Foo.Acceptance

/-!
# Where declarations and problems stand

What the parser says about places is right for every text, malformed or not.

* A cursor **stands in** a text if it can be reached from the beginning (`Cursor.In`). The parser leaves the
  text neither when it reads a declaration nor when it skips a malformed one.
* A **declaration** has the stretch from its keyword to its closing mark, with its name within
  (`Declaration.Placed`). That is read off the tree of the declaration (`placed_item`).
* All that is found behind a cursor begins there, one thing behind the other (`Spread`). One turn of the loop
  puts a declaration or a problem in front (`Spread.consDeclaration`, `Spread.consProblem`).

The result for whole texts (`parse_placed`) is the last of these at the first character. Malformed texts need no
treatment of their own: what is skipped after a problem is told by the mark it stops behind, and the loop goes on
from there as from anywhere else.
-/

namespace CodeModel.Foo

open Grammar

variable {t u : Text} {c d : Cursor} {low next : Nat}

/-! ## Cursors in a text -/

namespace Cursor

/-- The cursor stands in the text: the characters before it and those that are left make up the text, and its
position counts the former. -/
def In (c : Cursor) (t : Text) : Prop := ∃ front, (⟨0, t⟩ : Cursor).Spans front c

/-- Parsing starts in the text. -/
theorem in_start (t : Text) : (⟨0, t⟩ : Cursor).In t := ⟨[], rfl, rfl⟩

/-- Passing what stands there does not leave the text. Since every parser passes pieces of the text only, a cursor
stays in the text wherever parsing gets. -/
theorem In.spans (h : c.In t) (hs : c.Spans u d) : d.In t := by
  obtain ⟨front, hfront⟩ := h
  exact ⟨front ++ u, hfront.trans hs⟩

theorem In.advance (h : c.In t) (n : Nat) (hn : n ≤ c.rest.length) : (c.advance n).In t := by
  have hs := spans_advance (List.take_append_drop n c.rest).symm
  rw [List.length_take_of_le hn] at hs
  exact h.spans hs

/-- Skipping blanks and comments does not leave the text. -/
theorem In.skipTrivia (h : c.In t) : c.skipTrivia.In t := h.advance _ (triviaLength_le _ _)

/-- Recovering from a problem does not leave the text. -/
theorem In.recover (h : c.In t) : c.recover.In t := h.advance _ (recoveryLength_le _)

/-- The position and what is left make up the length of the text. -/
theorem In.length (h : c.In t) : c.position + c.rest.length = t.length := by
  obtain ⟨front, hrest, hposition⟩ := h
  simp only at hrest hposition
  rw [hposition, hrest, List.length_append, Nat.zero_add]

/-- What is left is the text from the position on. -/
theorem In.getElem? (h : c.In t) (i : Nat) : t[c.position + i]? = c.rest[i]? := by
  obtain ⟨front, hrest, hposition⟩ := h
  simp only [Nat.zero_add] at hrest hposition
  rw [hrest, hposition, List.getElem?_append_right (Nat.le_add_right _ _), Nat.add_sub_cancel_left]

/-- **What stands between** two places of the text is a slice of it. So a range that was noted by its two positions
can be cut out of the text later, as clients do. -/
theorem In.slice? (h : c.In t) (hs : c.Spans u d) : t.slice? c.position d.position = some u := by
  obtain ⟨front, hrest, hposition⟩ := h
  simp only [Nat.zero_add] at hrest hposition
  have hbounds : c.position ≤ d.position ∧ d.position ≤ t.length := by
    rw [hs.position, hrest, hs.rest, hposition]
    simp
  rw [Text.slice?, if_pos hbounds, hs.position, Nat.add_sub_cancel_left, hrest, hposition, List.drop_left,
    hs.rest, List.take_left]

end Cursor

open Cursor

/-! ## Declarations -/

/-- The keyword of a declaration. -/
def DeclarationKind.keyword : DeclarationKind → Text
  | .var => ['v', 'a', 'r']
  | .function _ => ['d', 'e', 'f']

/-- The last character of a declaration. -/
def DeclarationKind.closing : DeclarationKind → Char
  | .var => ';'
  | .function _ => '\x7d'

/-- **The ranges of a declaration** are those of a declaration of the text: cut out, the full range begins with the
keyword and ends with the closing mark, and the range of the name gives the name. -/
structure Declaration.Placed (d : Declaration) (t : Text) : Prop where
  /-- the full range is a stretch of the text from the keyword to the closing mark -/
  full : ∃ inner, t.slice? d.fullRange.offset d.fullRange.stop =
    some (d.kind.keyword ++ (inner ++ [d.kind.closing]))
  /-- the name stands between the two -/
  inside : d.fullRange.offset + d.kind.keyword.length < d.nameRange.offset ∧
    d.nameRange.stop < d.fullRange.stop
  /-- the range of the name is a stretch of the text that is the name -/
  name : t.slice? d.nameRange.offset d.nameRange.stop = some d.name.toList
  /-- a name is not empty, and is an identifier -/
  identifier : ∃ n : Name, d.name.toList = n.text

/-- A declaration is not empty, for its keyword is not. So each turn of the loop gets further on. -/
theorem Declaration.Placed.offset_lt {d : Declaration} (h : d.Placed t) :
    d.fullRange.offset < d.fullRange.stop := by
  obtain ⟨hname, hstop⟩ := h.inside
  have hrange : d.nameRange.offset ≤ d.nameRange.stop := Nat.le_add_right _ _
  omega

theorem Declaration.Placed.stop_le {d : Declaration} (h : d.Placed t) : d.fullRange.stop ≤ t.length := by
  obtain ⟨inner, hfull⟩ := h.full
  have hsome : (t.slice? d.fullRange.offset d.fullRange.stop).isSome = true := by rw [hfull]; rfl
  exact ((Text.isSome_slice? ..).mp hsome).2

/-- The text of a declaration: keyword, gap, name, and all the rest up to the closing mark. -/
theorem Grammar.Item.exists_text (i : Item) : ∃ tail : Text,
    i.text = i.kind.keyword ++ (i.gap.text ++ (i.name.text ++ (tail ++ [i.kind.closing]))) := by
  cases i with
  | var gap name last => exact ⟨last.text, rfl⟩
  | function gap name ends next ps last inner =>
    refine ⟨next.text ++ '(' :: (ps.text ++ ')' :: (last.text ++ '\x7b' :: inner)), ?_⟩
    simp [Item.text, Item.kind, Item.gap, Item.name, DeclarationKind.keyword, DeclarationKind.closing]

/-- Between a keyword and the name there is something, or the two would be read as one name. -/
theorem Grammar.Item.gap_length_pos (i : Item) : 0 < i.gap.text.length := by
  have hends : Ends (i.gap.text ++ i.name.text) := by
    cases i with
    | var gap name last ends => exact ends
    | function gap name ends => exact ends
  rcases hgap : i.gap.text with _ | ⟨c, rest⟩
  · -- a name that follows at once would go on the keyword
    have hfirst : CharClass.continuesName i.name.first = false := hends _ (by rw [hgap]; rfl)
    rw [CharClass.continuesName_of_startsName i.name.starts] at hfirst
    cases hfirst
  · simp

/-- **A declaration that is read** is placed as its tree says. What was read is the text of a tree of the grammar,
and the pieces of that text are the stretches in question. -/
theorem placed_item {i : Item} (hc : c.In t) (hs : c.Spans i.text d) : (i.declaration c.position).Placed t := by
  have hstop : (i.declaration c.position).fullRange.stop = d.position := by
    rw [hs.position]
    rfl
  have hkeyword : i.kind.keyword.length = 3 := by cases i <;> rfl
  obtain ⟨tail, htext⟩ := i.exists_text
  rw [htext] at hs
  have hfull := hc.slice? hs
  obtain ⟨c₁, hkey, hs⟩ := hs.split
  obtain ⟨c₂, hgap, hs⟩ := hs.split
  obtain ⟨c₃, hname, htail⟩ := hs.split
  have hoffset : (i.declaration c.position).nameRange.offset = c₂.position := by
    rw [hgap.position, hkey.position, hkeyword]
    rfl
  have hnamestop : (i.declaration c.position).nameRange.stop = c₃.position := by
    rw [hname.position, ← hoffset]
    rfl
  have hslice := ((hc.spans hkey).spans hgap).slice? hname
  have hnametext : (i.declaration c.position).name.toList = i.name.text := by simp [Item.declaration]
  refine ⟨⟨i.gap.text ++ (i.name.text ++ tail), ?_⟩, ⟨?_, ?_⟩, ?_, ⟨i.name, hnametext⟩⟩
  · rw [hstop]
    simpa [Item.declaration] using hfull
  · rw [hoffset, hgap.position, hkey.position]
    exact Nat.lt_add_of_pos_right i.gap_length_pos
  · rw [hnamestop, hstop, htail.position, List.length_append]
    exact Nat.lt_add_of_pos_right (Nat.lt_of_lt_of_le Nat.zero_lt_one (Nat.le_add_left _ _))
  · rw [hoffset, hnamestop, hslice, hnametext]

/-! ## Recovery -/

/-- A mark that ends a recovery stands at the position. -/
def ClosesAt (t : Text) (i : Nat) : Prop := t[i]? = some ';' ∨ t[i]? = some '\x7d'

/-- The first such mark at or behind `p` stands at the position. -/
structure FirstClosing (t : Text) (p i : Nat) : Prop where
  /-- it is at or behind `p` -/
  le : p ≤ i
  /-- there is one -/
  closes : ClosesAt t i
  /-- there is none before -/
  first : ∀ j, p ≤ j → j < i → ¬ ClosesAt t j

/-- Skipping stops right behind the first mark, if there is one, and passes everything before it. -/
theorem exists_of_recoveryLength (h : recoveryLength u < u.length) :
    ∃ i, recoveryLength u = i + 1 ∧ ClosesAt u i ∧ ∀ j, j < i → ¬ ClosesAt u j := by
  induction u with
  | nil => cases h
  | cons x u ih =>
    have hfirst : ClosesAt (x :: u) 0 ↔ x = ';' ∨ x = '\x7d' := by simp [ClosesAt]
    by_cases hx : x = ';' ∨ x = '\x7d'
    · refine ⟨0, ?_, hfirst.mpr hx, fun j hj => absurd hj (Nat.not_lt_zero j)⟩
      rw [recoveryLength, if_pos (by simpa using hx)]
    · have hstep : recoveryLength (x :: u) = recoveryLength u + 1 := by
        rw [recoveryLength, if_neg (by simpa using hx)]
      rw [hstep, List.length_cons] at h
      obtain ⟨i, hi, hcloses, hnone⟩ := ih (Nat.lt_of_add_lt_add_right h)
      refine ⟨i + 1, by rw [hstep, hi], hcloses, fun j hj => ?_⟩
      cases j with
      | zero => exact fun hclose => hx (hfirst.mp hclose)
      | succ j => exact hnone j (Nat.lt_of_succ_lt_succ hj)

/-- **A recovery** that leaves something has gone right behind the first mark. One that leaves nothing may have
found none. -/
theorem exists_firstClosing (h : c.In t) (hne : c.recover.rest ≠ []) :
    ∃ i, FirstClosing t c.position i ∧ c.recover.position = i + 1 := by
  have hlt : recoveryLength c.rest < c.rest.length := by
    rw [← List.length_pos_iff, Cursor.recover, Cursor.length_rest_advance] at hne
    exact Nat.lt_of_sub_pos hne
  obtain ⟨i, hi, hcloses, hnone⟩ := exists_of_recoveryLength hlt
  have hat : ∀ j, ClosesAt t (c.position + j) ↔ ClosesAt c.rest j := fun j => by
    rw [ClosesAt, h.getElem?, ClosesAt]
  refine ⟨c.position + i, ⟨Nat.le_add_right _ _, (hat i).mpr hcloses, fun j hle hlt => ?_⟩, ?_⟩
  · obtain ⟨k, rfl⟩ := Nat.exists_eq_add_of_le hle
    exact fun hclose => hnone k (Nat.lt_of_add_lt_add_left hlt) ((hat k).mp hclose)
  · rw [Cursor.recover, hi]
    rfl

/-! ## Outlines -/

/-- Where the declarations and the problems begin. -/
def Outline.starts (o : Outline) : List Nat :=
  o.declarations.map (·.fullRange.offset) ++ o.problems.map Problem.position

/-- **The outline is spread** over the text from `low` on: all that it has begins there, and is in order. It is the
invariant of the loop read from the back: what is found behind a cursor is spread from its position on, and what is
found in front of that is put first. -/
structure Spread (t : Text) (low : Nat) (o : Outline) : Prop where
  /-- declarations are placed from `low` on -/
  declared : ∀ d ∈ o.declarations, d.Placed t ∧ low ≤ d.fullRange.offset
  /-- problems are reported from `low` on -/
  reported : ∀ p ∈ o.problems, low ≤ p.position ∧ p.position ≤ t.length
  /-- each declaration ends before the next one begins -/
  ordered : o.declarations.Pairwise fun d e => d.fullRange.stop ≤ e.fullRange.offset
  /-- positions of problems increase -/
  rising : o.problems.Pairwise fun p q => p.position < q.position
  /-- no problem is within a declaration -/
  outside : ∀ p ∈ o.problems, ∀ d ∈ o.declarations,
    p.position < d.fullRange.offset ∨ d.fullRange.stop ≤ p.position
  /-- behind a problem nothing begins up to the first mark -/
  resumed : ∀ p ∈ o.problems, ∀ start ∈ o.starts, p.position < start →
    ∃ i, FirstClosing t p.position i ∧ i < start

namespace Spread

variable {o : Outline}

theorem empty (t : Text) (low : Nat) : Spread t low {} := by
  constructor <;> simp

theorem le_of_mem_starts (h : Spread t low o) {start : Nat} (hstart : start ∈ o.starts) : low ≤ start := by
  rcases List.mem_append.mp hstart with hstart | hstart
  · obtain ⟨d, hd, rfl⟩ := List.mem_map.mp hstart
    exact (h.declared d hd).2
  · obtain ⟨p, hp, rfl⟩ := List.mem_map.mp hstart
    exact (h.reported p hp).1

/-- **A declaration in front** of what is spread behind it. Everything else begins where it ends or later, so it is
in order with all of it. -/
theorem consDeclaration {d : Declaration} (h : Spread t d.fullRange.stop o) (hd : d.Placed t)
    (hlow : low ≤ d.fullRange.offset) : Spread t low (o.consDeclaration d) := by
  have hlt := hd.offset_lt
  refine ⟨?_, fun p hp => ?_, ?_, h.rising, fun p hp e he => ?_, fun p hp start hstart hbehind => ?_⟩
  · rintro e he
    rcases List.mem_cons.mp he with rfl | he
    · exact ⟨hd, hlow⟩
    · obtain ⟨hplaced, hstop⟩ := h.declared e he
      exact ⟨hplaced, by omega⟩
  · obtain ⟨hstop, hlength⟩ := h.reported p hp
    exact ⟨by omega, hlength⟩
  · exact List.pairwise_cons.mpr ⟨fun e he => (h.declared e he).2, h.ordered⟩
  · rcases List.mem_cons.mp he with rfl | he
    · exact .inr (h.reported p hp).1
    · exact h.outside p hp e he
  · -- the declaration itself does not begin behind any problem
    rcases List.mem_cons.mp hstart with rfl | hstart
    · have hle := (h.reported p hp).1
      change p.position < d.fullRange.offset at hbehind
      omega
    · exact h.resumed p hp start hstart hbehind

/-- **A problem in front** of what is spread behind the first mark. Nothing begins between the problem and the mark,
since the parser goes on behind it. -/
theorem consProblem {q : Problem} (h : Spread t next o) (hlow : low ≤ q.position)
    (hlength : q.position ≤ t.length)
    (hnext : o = {} ∨ ∃ i, FirstClosing t q.position i ∧ next = i + 1) :
    Spread t low (o.consProblem q) := by
  have hbehind : ∀ start ∈ o.starts, ∃ i, FirstClosing t q.position i ∧ i < start := by
    intro start hstart
    rcases hnext with rfl | ⟨i, hi, rfl⟩
    · cases hstart
    · exact ⟨i, hi, h.le_of_mem_starts hstart⟩
  have hlt : ∀ start ∈ o.starts, q.position < start := by
    intro start hstart
    obtain ⟨i, hi, his⟩ := hbehind start hstart
    exact Nat.lt_of_le_of_lt hi.le his
  have hdeclared : ∀ d ∈ o.declarations, q.position < d.fullRange.offset := fun d hd =>
    hlt _ (List.mem_append_left _ (List.mem_map_of_mem hd))
  have hreported : ∀ p ∈ o.problems, q.position < p.position := fun p hp =>
    hlt _ (List.mem_append_right _ (List.mem_map_of_mem hp))
  have hstarts : ∀ start ∈ (o.consProblem q).starts, start = q.position ∨ start ∈ o.starts := by
    intro start hstart
    rcases List.mem_append.mp hstart with hstart | hstart
    · exact .inr (List.mem_append_left _ hstart)
    · exact (List.mem_cons.mp hstart).imp_right (List.mem_append_right _)
  refine ⟨fun d hd => ⟨(h.declared d hd).1, ?_⟩, fun p hp => ?_, h.ordered, ?_, fun p hp d hd => ?_,
    fun p hp start hstart hgt => ?_⟩
  · exact Nat.le_trans hlow (Nat.le_of_lt (hdeclared d hd))
  · rcases List.mem_cons.mp hp with rfl | hp
    · exact ⟨hlow, hlength⟩
    · exact ⟨Nat.le_trans hlow (Nat.le_of_lt (hreported p hp)), (h.reported p hp).2⟩
  · exact List.pairwise_cons.mpr ⟨hreported, h.rising⟩
  · rcases List.mem_cons.mp hp with rfl | hp
    · exact .inl (hdeclared d hd)
    · exact h.outside p hp d hd
  · rcases List.mem_cons.mp hp with rfl | hp <;> rcases hstarts start hstart with rfl | hstart
    · exact absurd hgt (Nat.lt_irrefl _)
    · exact hbehind start hstart
    · exact absurd (hreported p hp) (Nat.not_lt_of_gt hgt)
    · exact h.resumed p hp start hstart hgt

end Spread

/-! ## Texts -/

theorem parseFrom_of_rest_eq_nil (h : c.rest = []) : parseFrom c = {} := by
  have hskip : c.skipTrivia.rest = [] := by simp [skipTrivia, advance, h]
  rw [parseFrom, dif_pos hskip]

/-- **What is found** behind a cursor is spread behind it. The induction follows the loop: a turn that reads a
declaration puts it in front, one that fails puts a problem in front and goes on behind the first mark. -/
theorem spread_parseFrom (h : c.In t) : Spread t c.position (parseFrom c) := by
  fun_induction parseFrom c with
  | case1 c hnil => exact .empty t _
  | case2 c hne x d hd ih =>
    rcases c.spans_skipTrivia with ⟨g, hg, hskip⟩ | ⟨hnil, -⟩
    · obtain ⟨i, hi, rfl⟩ := (Parser.declaration_eq_ok_iff hskip).mp hd
      have hstop : (i.declaration c.skipTrivia.position).fullRange.stop = d.position := by
        rw [hi.position]
        rfl
      refine (hstop ▸ ih (h.skipTrivia.spans hi)).consDeclaration (placed_item h.skipTrivia hi) ?_
      rw [show (i.declaration _).fullRange.offset = _ from rfl, hg.position]
      exact Nat.le_add_right _ _
    · exact absurd hnil hne
  | case3 c hne f hf ih =>
    obtain ⟨n, hn, hplace⟩ := Parser.moves_declaration.reaches hf
    have hin : f.place.In t := hplace ▸ h.skipTrivia.advance n hn
    refine (ih hin.recover).consProblem ?_ (by rw [← hin.length]; exact Nat.le_add_right _ _) ?_
    · show c.position ≤ f.place.position
      rw [hplace]
      exact Nat.le_trans (Nat.le_add_right _ _) (Nat.le_add_right _ _)
    · by_cases hrest : f.place.recover.rest = []
      · exact .inl (parseFrom_of_rest_eq_nil hrest)
      · exact .inr (exists_firstClosing hin hrest)

/-- **Every turn** of the loop takes a character at least, so there are no more turns than characters. -/
theorem length_parseFrom_le (c : Cursor) :
    (parseFrom c).declarations.length + (parseFrom c).problems.length ≤ c.rest.length := by
  fun_induction parseFrom c with
  | case1 c hnil => exact Nat.zero_le _
  | case2 c hne x d hd ih =>
    have hlt := Parser.moves_declaration.length_lt hd
    have hle := c.length_rest_skipTrivia
    simp only [Outline.consDeclaration, List.length_cons]
    omega
  | case3 c hne f hf ih =>
    have hplace := Parser.moves_declaration.length_le_of_error hf
    have hle := c.length_rest_skipTrivia
    have hpos := List.length_pos_iff.mpr hne
    have hrecover : f.place.recover.rest.length < c.skipTrivia.rest.length := by
      by_cases hrest : f.place.rest = []
      · simpa [Cursor.recover, hrest] using hpos
      · exact Nat.lt_of_lt_of_le (f.place.length_rest_recover hrest) hplace
    simp only [Outline.consProblem, List.length_cons]
    omega

/-- What is found in a text is spread over all of it, from its first character on. -/
theorem spread_parse (t : Text) : Spread t 0 (parse t) := spread_parseFrom (in_start t)

/-- **Everything is in its place**, in any text. Parsing comes to an end after as many turns as there are characters
at most. Every declaration stands in the text from its keyword to its closing mark, with its name in it, and ends
before the next one begins. The positions of the problems increase and are those of the text; none is within a
declaration, and behind a problem nothing begins before the first semicolon or closing brace has been passed. -/
theorem parse_placed (t : Text) :
    (parse t).declarations.length + (parse t).problems.length ≤ t.length ∧
    (∀ d ∈ (parse t).declarations, d.Placed t) ∧
    ((parse t).declarations.Pairwise fun d e => d.fullRange.stop ≤ e.fullRange.offset) ∧
    ((parse t).problems.Pairwise fun p q => p.position < q.position) ∧
    ∀ p ∈ (parse t).problems, p.position ≤ t.length ∧
      (∀ d ∈ (parse t).declarations, p.position < d.fullRange.offset ∨ d.fullRange.stop ≤ p.position) ∧
      ∀ start ∈ (parse t).starts, p.position < start → ∃ i, FirstClosing t p.position i ∧ i < start := by
  have h := spread_parse t
  exact ⟨length_parseFrom_le _, fun d hd => (h.declared d hd).1, h.ordered, h.rising,
    fun p hp => ⟨(h.reported p hp).2, h.outside p hp, h.resumed p hp⟩⟩

end CodeModel.Foo
