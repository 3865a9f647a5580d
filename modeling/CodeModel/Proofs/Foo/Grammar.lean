import CodeModel.Foo.Syntax
import CodeModel.Text.CharClass
import Mathlib.Data.List.Basic

/-!
# The grammar of Foo texts

What a Foo text is, said without a parser: a tree of tokens and of what stands between them, together
with the text that the tree spells.

* Between any two tokens there is a **gap** of blanks and line comments, which may be empty.
* **Names** go as far as they can. A keyword is the only name that another name follows, so there it has
  to be said (`Ends`); whatever else follows a name ends it.
* A **block** is a text whose braces are balanced. Comments hide braces, and two slashes always begin a
  comment.
* A **source** is a sequence of declarations. Its last comment may do without the end of the line.

The trees have all that a text says about its declarations (`Source.declarations`), and a text has **at
most one** tree (`Source.text_injective`).
-/

namespace CodeModel.Foo.Grammar

/-! ## Gaps -/

/-- A text without line ends: what a line comment says. -/
abbrev Line := { t : Text // '\n' ∉ t }

/-- What may stand between two tokens. -/
inductive Filler where
  /-- A blank. -/
  | blank (c : Char) (h : CharClass.isBlank c = true)
  /-- A comment with the end of its line. -/
  | comment (line : Line)

/-- The text of a filler. -/
def Filler.text : Filler → Text
  | .blank c _ => [c]
  | .comment line => '/' :: '/' :: (line.1 ++ ['\n'])

/-- Everything between two tokens: blanks and comments in any order, or nothing. -/
abbrev Gap := List Filler

/-- The text of a gap. -/
def Gap.text (g : Gap) : Text := g.flatMap Filler.text

@[simp] theorem Gap.text_nil : Gap.text [] = [] := rfl

@[simp] theorem Gap.text_cons (f : Filler) (g : Gap) : Gap.text (f :: g) = f.text ++ Gap.text g := rfl

@[simp] theorem Gap.text_append (g h : Gap) : Gap.text (g ++ h) = Gap.text g ++ Gap.text h :=
  List.flatMap_append

/-! ## Names -/

/-- A name. It carries the proof that its characters may stand where they stand, so there are no others. -/
structure Name where
  /-- Its first character. -/
  first : Char
  /-- The other ones. -/
  others : Text
  /-- A name may begin so. -/
  starts : CharClass.startsName first = true
  /-- A name may go on so. -/
  continues : ∀ c ∈ others, CharClass.continuesName c = true

/-- The text of a name. -/
def Name.text (n : Name) : Text := n.first :: n.others

/-- A name that stands before `rest` cannot go further. The end of the text ends it, too. -/
def Ends (rest : Text) : Prop := ∀ c ∈ rest.head?, CharClass.continuesName c = false

/-! ## Blocks -/

/-- A text whose braces are balanced. Comments hide braces, and the two slashes that begin one cannot be read as
other characters, so a text is balanced in one way only. -/
inductive Balanced : Text → Prop where
  /-- There are no braces. -/
  | nil : Balanced []
  /-- A block within the block. -/
  | block {inner rest : Text} (hi : Balanced inner) (hr : Balanced rest) :
    Balanced ('\x7b' :: (inner ++ '\x7d' :: rest))
  /-- A comment, whatever braces it has. -/
  | comment (line : Line) {rest : Text} (hr : Balanced rest) :
    Balanced ('/' :: '/' :: (line.1 ++ '\n' :: rest))
  /-- Any other character. -/
  | other {c : Char} {rest : Text} (hopen : c ≠ '\x7b') (hclose : c ≠ '\x7d')
    (hslash : ¬ (c = '/' ∧ rest.head? = some '/')) (hr : Balanced rest) : Balanced (c :: rest)

/-! ## Declarations -/

/-- A parameter with the gaps around it. -/
structure Parameter where
  /-- What stands before it. -/
  before : Gap
  /-- The parameter. -/
  name : Name
  /-- What stands behind it. -/
  after : Gap

/-- The text of a parameter and of the gaps around it. -/
def Parameter.text (p : Parameter) : Text := p.before.text ++ (p.name.text ++ p.after.text)

/-- What stands between the parentheses of a function. -/
inductive Parameters where
  /-- No parameter. -/
  | none (gap : Gap)
  /-- Parameters with commas between them. -/
  | list (first : Parameter) (others : List Parameter)

/-- The parameters behind the first one, each with its comma. -/
def othersText (ps : List Parameter) : Text := ps.flatMap fun p => ',' :: p.text

/-- The text between the parentheses. -/
def Parameters.text : Parameters → Text
  | .none gap => gap.text
  | .list first others => first.text ++ othersText others

/-- The names of the parameters, in order. -/
def Parameters.names : Parameters → List String
  | .none _ => []
  | .list first others => (first :: others).map fun p => String.ofList p.name.text

/-- A declaration. The first gap stands between the keyword and the name; that there is something in it follows from
the keyword being a name that has to end. -/
inductive Item where
  /-- A variable, up to its semicolon. -/
  | var (gap : Gap) (name : Name) (last : Gap) (ends : Ends (gap.text ++ name.text))
  /-- A function, up to the closing brace of its block. -/
  | function (gap : Gap) (name : Name) (ends : Ends (gap.text ++ name.text)) (next : Gap)
    (parameters : Parameters) (last : Gap) (inner : Text) (balanced : Balanced inner)

namespace Item

/-- The text from the keyword on. -/
def text : Item → Text
  | .var gap name last _ => 'v' :: 'a' :: 'r' :: (gap.text ++ (name.text ++ (last.text ++ [';'])))
  | .function gap name _ next parameters last inner _ =>
    'd' :: 'e' :: 'f' :: (gap.text ++ (name.text ++ (next.text ++
      '(' :: (parameters.text ++ ')' :: (last.text ++ '\x7b' :: (inner ++ ['\x7d']))))))

/-- What is declared. -/
def kind : Item → DeclarationKind
  | .var .. => .var
  | .function _ _ _ _ parameters .. => .function parameters.names

/-- The name that is declared. -/
def name : Item → Name
  | .var _ name .. => name
  | .function _ name .. => name

/-- What stands between the keyword and the name. -/
def gap : Item → Gap
  | .var gap .. => gap
  | .function gap .. => gap

/-- What a declaration says whose keyword has `start` characters before it. -/
def declaration (start : Nat) (i : Item) : Declaration where
  kind := i.kind
  name := String.ofList i.name.text
  fullRange := ⟨start, i.text.length⟩
  nameRange := ⟨start + 3 + i.gap.text.length, i.name.text.length⟩

end Item

/-! ## Sources -/

/-- The text of declarations, each with the gap before it. -/
def itemsText (items : List (Gap × Item)) : Text := items.flatMap fun p => p.1.text ++ p.2.text

/-- What a sequence of declarations says that has `start` characters before it. -/
def declarationsFrom : Nat → List (Gap × Item) → List Declaration
  | _, [] => []
  | start, (gap, i) :: items =>
    i.declaration (start + gap.text.length) ::
      declarationsFrom (start + gap.text.length + i.text.length) items

/-- The text of a comment that the end of the text cuts short, if there is one. -/
def remarkText : Option Line → Text
  | none => []
  | some line => '/' :: '/' :: line.1

/-- A whole text: declarations, a last gap, and maybe a comment without the end of its line. Only the last comment
can do without one, as every other is followed by something. -/
structure Source where
  /-- The declarations, each with the gap before it. -/
  items : List (Gap × Item)
  /-- What stands behind the declarations. -/
  last : Gap
  /-- A comment up to the end of the text. -/
  remark : Option Line

namespace Source

/-- The text that is spelled. -/
def text (s : Source) : Text := itemsText s.items ++ (s.last.text ++ remarkText s.remark)

/-- The declarations of the text, in order. -/
def declarations (s : Source) : List Declaration := declarationsFrom 0 s.items

end Source

/-! ## Classes of characters -/

/-- A number that is found among ranges is in one of them. -/
theorem exists_of_find {ranges : List CharRange} {n : Nat} (h : CharRange.find ranges n = true) :
    ∃ p ∈ ranges, p.1 ≤ n ∧ n ≤ p.2 := by
  induction ranges with
  | nil => cases h
  | cons p ranges ih =>
    obtain ⟨first, last⟩ := p
    rw [CharRange.find] at h
    split at h
    · cases h
    · next hfirst =>
      rcases Bool.or_eq_true _ _ ▸ h with hlast | hrest
      · exact ⟨(first, last), List.mem_cons_self .., Nat.le_of_not_lt hfirst, by simpa using hlast⟩
      · obtain ⟨p, hp, hbounds⟩ := ih hrest
        exact ⟨p, List.mem_cons_of_mem _ hp, hbounds⟩

/-- A **blank** does not go on a name: it is neither a letter nor a digit nor an underscore. The ranges of blanks
and of name characters have no number in common. -/
theorem continuesName_of_isBlank {c : Char} (h : CharClass.isBlank c = true) :
    CharClass.continuesName c = false := by
  have hranges : ∀ p ∈ blankRanges, ∀ d ≤ p.2 - p.1,
      CharRange.find letterRanges (p.1 + d) = false ∧
        CharRange.find digitRanges (p.1 + d) = false ∧ p.1 + d ≠ '_'.toNat := by
    decide +kernel
  obtain ⟨p, hp, hfirst, hlast⟩ := exists_of_find h
  obtain ⟨hletter, hdigit, hne⟩ := hranges p hp (c.toNat - p.1) (by omega)
  rw [Nat.add_sub_cancel' hfirst] at hletter hdigit hne
  have hunderscore : c ≠ '_' := fun hc => hne (congrArg Char.toNat hc)
  simp [CharClass.continuesName, CharClass.isLetter, CharClass.isDigit, hletter, hdigit, hunderscore]

theorem isBlank_of_continuesName {c : Char} (h : CharClass.continuesName c = true) :
    CharClass.isBlank c = false := by
  rw [← Bool.not_eq_true]
  intro hblank
  rw [continuesName_of_isBlank hblank] at h
  cases h

/-- What a name begins with is no punctuation mark. -/
theorem Name.first_ne (n : Name) {c : Char} (h : CharClass.continuesName c = false) : n.first ≠ c := by
  intro hc
  have := CharClass.continuesName_of_startsName n.starts
  rw [hc, h] at this
  cases this

/-! ## Where fillers and names end -/

/-- A name ends before a character that does not go on it. -/
theorem ends_cons {c : Char} (t : Text) (h : CharClass.continuesName c = false) : Ends (c :: t) := by
  rintro _ ⟨⟩
  exact h

/-- Whatever is in a **gap** ends the name before it: blanks do not continue names, and neither does the slash that
begins a comment. An empty gap leaves it to what follows. -/
theorem Gap.ends (g : Gap) {rest : Text} (h : Ends rest) : Ends (g.text ++ rest) := by
  cases g with
  | nil => exact h
  | cons f g =>
    cases f with
    | blank c hc => exact ends_cons _ (continuesName_of_isBlank hc)
    | comment line => exact ends_cons _ (by decide)

/-- A name is all that can be read as a name before something that ends it. -/
theorem Name.takeWhile_text (n : Name) {rest : Text} (h : Ends rest) :
    (n.text ++ rest).takeWhile CharClass.continuesName = n.text := by
  have hall : ∀ c ∈ n.text, CharClass.continuesName c = true := by
    intro c hc
    rcases List.mem_cons.mp hc with rfl | hc
    · exact CharClass.continuesName_of_startsName n.starts
    · exact n.continues c hc
  have hrest : rest.takeWhile CharClass.continuesName = [] := by
    cases rest with
    | nil => rfl
    | cons c rest => simp [h c rfl]
  rw [List.takeWhile_append_of_pos hall, hrest, List.append_nil]

/-- No filler stands at the beginning of the text, so a gap before it has come to its end. -/
def Bare (t : Text) : Prop := ∀ (f : Filler) (rest : Text), t ≠ f.text ++ rest

theorem bare_nil : Bare [] := by
  intro f rest h
  cases f <;> cases h

/-- No filler begins with a character that is neither a blank nor a slash. -/
theorem bare_cons {c : Char} (t : Text) (hblank : CharClass.isBlank c = false) (hslash : c ≠ '/') :
    Bare (c :: t) := by
  intro f rest h
  cases f with
  | blank d hd =>
    cases h
    rw [hblank] at hd
    cases hd
  | comment line => exact hslash (List.cons.inj h).1

theorem Name.bare (n : Name) (rest : Text) : Bare (n.text ++ rest) :=
  bare_cons _ (isBlank_of_continuesName (CharClass.continuesName_of_startsName n.starts))
    (n.first_ne (by decide))

/-- A comment without the end of its line is no filler. -/
theorem bare_remarkText (remark : Option Line) : Bare (remarkText remark) := by
  cases remark with
  | none => exact bare_nil
  | some line =>
    intro f rest h
    cases f with
    | blank c hc =>
      obtain rfl : '/' = c := (List.cons.inj h).1
      cases hc
    | comment other =>
      have hline : line.1 = other.1 ++ ['\n'] ++ rest := (List.cons.inj (List.cons.inj h).2).2
      exact line.2 (by simp [hline])

theorem Item.bare (i : Item) (rest : Text) : Bare (i.text ++ rest) := by
  cases i <;> exact bare_cons _ (by decide) (by decide)

/-! ## Reading a text in one way only

Each part of a tree is found again at the beginning of its text, provided that what follows is no
part of it. -/

theorem Line.append_inj {line line' : Line} {rest rest' : Text}
    (h : line.1 ++ '\n' :: rest = line'.1 ++ '\n' :: rest') : line = line' ∧ rest = rest' := by
  have htake : ∀ (line : Line) (rest : Text), (line.1 ++ '\n' :: rest).takeWhile (· != '\n') = line.1 := by
    intro line rest
    have hall : ∀ c ∈ line.1, (c != '\n') = true := by
      intro c hc
      simp only [bne_iff_ne]
      rintro rfl
      exact line.2 hc
    rw [List.takeWhile_append_of_pos hall]
    simp
  have hline : line.1 = line'.1 := by rw [← htake line rest, h, htake line' rest']
  rw [hline] at h
  exact ⟨Subtype.ext hline, (List.cons.inj (List.append_cancel_left h)).2⟩

/-- A filler is found again at the beginning of a text: a blank is one character, and a comment goes as far as its
line. -/
theorem Filler.append_inj {f f' : Filler} {rest rest' : Text} (h : f.text ++ rest = f'.text ++ rest') :
    f = f' ∧ rest = rest' := by
  cases f with
  | blank c hc => cases f' with
    | blank d hd =>
      cases h
      exact ⟨rfl, rfl⟩
    | comment line =>
      obtain rfl : c = '/' := (List.cons.inj h).1
      cases hc
  | comment line => cases f' with
    | blank c hc =>
      obtain rfl : '/' = c := (List.cons.inj h).1
      cases hc
    | comment line' =>
      simp only [text, List.cons_append, List.append_assoc, List.nil_append, List.cons.injEq,
        true_and] at h
      obtain ⟨rfl, hrest⟩ := Line.append_inj h
      exact ⟨rfl, hrest⟩

theorem Gap.append_inj {g g' : Gap} {rest rest' : Text} (hr : Bare rest) (hr' : Bare rest')
    (h : g.text ++ rest = g'.text ++ rest') : g = g' ∧ rest = rest' := by
  induction g generalizing g' with
  | nil => cases g' with
    | nil => exact ⟨rfl, h⟩
    | cons f g' => exact absurd (by simpa using h) (hr f (Gap.text g' ++ rest'))
  | cons f g ih => cases g' with
    | nil => exact absurd (by simpa using h.symm) (hr' f (Gap.text g ++ rest))
    | cons f' g' =>
      simp only [text_cons, List.append_assoc] at h
      obtain ⟨rfl, hgap⟩ := Filler.append_inj h
      obtain ⟨rfl, hrest⟩ := ih hgap
      exact ⟨rfl, hrest⟩

/-- A name goes as far as characters of names do, so what follows must not go on it. Then the text determines both
the name and what follows. -/
theorem Name.append_inj {n n' : Name} {rest rest' : Text} (hr : Ends rest) (hr' : Ends rest')
    (h : n.text ++ rest = n'.text ++ rest') : n = n' ∧ rest = rest' := by
  have htext : n.text = n'.text := by rw [← n.takeWhile_text hr, h, n'.takeWhile_text hr']
  rw [htext] at h
  refine ⟨?_, List.append_cancel_left h⟩
  cases n; cases n'
  cases htext
  rfl

/-- A **block** ends at its own brace: of two balanced texts before a closing brace neither can end within the
other. The induction follows one of them, and each of its cases allows one case of the other only. -/
theorem Balanced.append_inj {t t' rest rest' : Text} (ht : Balanced t) (ht' : Balanced t')
    (h : t ++ '\x7d' :: rest = t' ++ '\x7d' :: rest') : t = t' ∧ rest = rest' := by
  -- a single slash is never followed by another one, so the pieces of both sides are of one kind
  have hslash : ∀ {u v w : Text}, ¬ ('/' = '/' ∧ u.head? = some '/') → u ++ '\x7d' :: v ≠ '/' :: w := by
    intro u v w hu hw
    cases u with
    | nil => cases hw
    | cons c u => exact hu ⟨rfl, congrArg some (List.cons.inj hw).1⟩
  induction ht generalizing t' rest rest' with
  | nil => cases ht' with
    | nil => exact ⟨rfl, (List.cons.inj h).2⟩
    | block => cases (List.cons.inj h).1
    | comment => cases (List.cons.inj h).1
    | other _ hclose => exact absurd (List.cons.inj h).1.symm hclose
  | @block inner tail hi hr ihi ihr => cases ht' with
    | nil => cases (List.cons.inj h).1
    | @block inner' tail' hi' hr' =>
      simp only [List.cons_append, List.append_assoc, List.cons.injEq, true_and] at h
      obtain ⟨rfl, htail⟩ := ihi hi' h
      obtain ⟨rfl, hrest⟩ := ihr hr' htail
      exact ⟨rfl, hrest⟩
    | comment => cases (List.cons.inj h).1
    | other hopen => exact absurd (List.cons.inj h).1.symm hopen
  | @comment line tail hr ih => cases ht' with
    | nil => cases (List.cons.inj h).1
    | block => cases (List.cons.inj h).1
    | @comment line' tail' hr' =>
      simp only [List.cons_append, List.append_assoc, List.cons.injEq, true_and] at h
      obtain ⟨rfl, htail⟩ := Line.append_inj h
      obtain ⟨rfl, hrest⟩ := ih hr' htail
      exact ⟨rfl, hrest⟩
    | other _ _ hs =>
      obtain ⟨rfl, htail⟩ := List.cons.inj h
      exact absurd htail.symm (hslash hs)
  | @other c tail hopen hclose hs hr ih => cases ht' with
    | nil => exact absurd (List.cons.inj h).1 hclose
    | block => exact absurd (List.cons.inj h).1 hopen
    | comment =>
      obtain ⟨rfl, htail⟩ := List.cons.inj h
      exact absurd htail (hslash hs)
    | other _ _ _ hr' =>
      obtain ⟨rfl, htail⟩ := List.cons.inj h
      obtain ⟨rfl, hrest⟩ := ih hr' htail
      exact ⟨rfl, hrest⟩

/-- A parameter ends at the mark that follows it. Neither its gaps nor its name contain a comma or a parenthesis
that could be taken for it. -/
theorem Parameter.append_inj {p p' : Parameter} {c d : Char} {rest rest' : Text}
    (hc : c = ',' ∨ c = ')') (hd : d = ',' ∨ d = ')')
    (h : p.text ++ c :: rest = p'.text ++ d :: rest') : p = p' ∧ c = d ∧ rest = rest' := by
  have hmark : ∀ {c : Char} (rest : Text), c = ',' ∨ c = ')' → Ends (c :: rest) ∧ Bare (c :: rest) := by
    rintro c rest (rfl | rfl) <;> exact ⟨ends_cons _ (by decide), bare_cons _ (by decide) (by decide)⟩
  obtain ⟨hends, hbare⟩ := hmark rest hc
  obtain ⟨hends', hbare'⟩ := hmark rest' hd
  obtain ⟨before, name, after⟩ := p
  obtain ⟨before', name', after'⟩ := p'
  simp only [text, List.append_assoc] at h
  obtain ⟨rfl, hname⟩ := Gap.append_inj (name.bare _) (name'.bare _) h
  obtain ⟨rfl, hafter⟩ := Name.append_inj (after.ends hends) (after'.ends hends') hname
  obtain ⟨rfl, hrest⟩ := Gap.append_inj hbare hbare' hafter
  exact ⟨rfl, List.cons.inj hrest⟩

@[simp] theorem othersText_nil : othersText [] = [] := rfl

@[simp] theorem othersText_cons (p : Parameter) (ps : List Parameter) :
    othersText (p :: ps) = ',' :: (p.text ++ othersText ps) := rfl

/-- Parameters with commas between them are found again, one after the other. -/
theorem Parameters.list_append_inj {p p' : Parameter} {ps ps' : List Parameter} {rest rest' : Text}
    (h : p.text ++ (othersText ps ++ ')' :: rest) = p'.text ++ (othersText ps' ++ ')' :: rest')) :
    p = p' ∧ ps = ps' ∧ rest = rest' := by
  induction ps generalizing p p' ps' with
  | nil => cases ps' with
    | nil =>
      obtain ⟨rfl, -, hrest⟩ := Parameter.append_inj (.inr rfl) (.inr rfl) h
      exact ⟨rfl, rfl, hrest⟩
    | cons q' ps' =>
      obtain ⟨-, hmark, -⟩ := Parameter.append_inj (d := ',') (.inr rfl) (.inl rfl) h
      cases hmark
  | cons q ps ih => cases ps' with
    | nil =>
      obtain ⟨-, hmark, -⟩ := Parameter.append_inj (c := ',') (.inl rfl) (.inr rfl) h
      cases hmark
    | cons q' ps' =>
      simp only [othersText_cons, List.cons_append, List.append_assoc] at h
      obtain ⟨rfl, -, hothers⟩ := Parameter.append_inj (.inl rfl) (.inl rfl) h
      obtain ⟨rfl, rfl, hrest⟩ := ih hothers
      exact ⟨rfl, rfl, hrest⟩

/-- What stands between parentheses is read in one way only: the mark behind each parameter tells whether there is
another one. -/
theorem Parameters.append_inj {ps ps' : Parameters} {rest rest' : Text}
    (h : ps.text ++ ')' :: rest = ps'.text ++ ')' :: rest') : ps = ps' ∧ rest = rest' := by
  have hparen : ∀ rest, Bare (')' :: rest) := fun _ => bare_cons _ (by decide) (by decide)
  -- a parameter begins with a name, and no name with a parenthesis
  have hne : ∀ {g : Gap} {p : Parameter} {t rest : Text}, g.text ++ ')' :: rest ≠ p.text ++ t := by
    intro g p t rest h
    rw [Parameter.text, List.append_assoc, List.append_assoc] at h
    obtain ⟨-, h⟩ := Gap.append_inj (hparen _) (p.name.bare _) h
    exact p.name.first_ne (by decide) (List.cons.inj h).1.symm
  cases ps with
  | none g => cases ps' with
    | none g' =>
      obtain ⟨rfl, hrest⟩ := Gap.append_inj (hparen _) (hparen _) h
      exact ⟨rfl, (List.cons.inj hrest).2⟩
    | list p' ps' => exact absurd (h.trans (List.append_assoc ..)) hne
  | list p ps => cases ps' with
    | none g' => exact absurd (h.symm.trans (List.append_assoc ..)) hne
    | list p' ps' =>
      simp only [text, List.append_assoc] at h
      obtain ⟨rfl, rfl, hrest⟩ := list_append_inj h
      exact ⟨rfl, hrest⟩

/-- A **declaration** is found again at the beginning of any text that it begins. It ends with a mark of its own,
and each of its parts ends where the next one begins. -/
theorem Item.append_inj {i i' : Item} {rest rest' : Text} (h : i.text ++ rest = i'.text ++ rest') :
    i = i' ∧ rest = rest' := by
  have hsemi : ∀ {t : Text}, Ends (';' :: t) ∧ Bare (';' :: t) :=
    ⟨ends_cons _ (by decide), bare_cons _ (by decide) (by decide)⟩
  have hparen : ∀ {t : Text}, Ends ('(' :: t) ∧ Bare ('(' :: t) :=
    ⟨ends_cons _ (by decide), bare_cons _ (by decide) (by decide)⟩
  have hbrace : ∀ {t : Text}, Bare ('\x7b' :: t) := bare_cons _ (by decide) (by decide)
  cases i with
  | var gap name last ends => cases i' with
    | var gap' name' last' ends' =>
      simp only [text, List.cons_append, List.append_assoc, List.nil_append, List.cons.injEq,
        true_and] at h
      obtain ⟨rfl, hname⟩ := Gap.append_inj (name.bare _) (name'.bare _) h
      obtain ⟨rfl, hlast⟩ := Name.append_inj (last.ends hsemi.1) (last'.ends hsemi.1) hname
      obtain ⟨rfl, hrest⟩ := Gap.append_inj hsemi.2 hsemi.2 hlast
      exact ⟨rfl, (List.cons.inj hrest).2⟩
    | function => cases (List.cons.inj h).1
  | function gap name ends next parameters last inner balanced => cases i' with
    | var => cases (List.cons.inj h).1
    | function gap' name' ends' next' parameters' last' inner' balanced' =>
      simp only [text, List.cons_append, List.append_assoc, List.nil_append, List.cons.injEq,
        true_and] at h
      obtain ⟨rfl, hname⟩ := Gap.append_inj (name.bare _) (name'.bare _) h
      obtain ⟨rfl, hnext⟩ := Name.append_inj (next.ends hparen.1) (next'.ends hparen.1) hname
      obtain ⟨rfl, hparameters⟩ := Gap.append_inj hparen.2 hparen.2 hnext
      obtain ⟨rfl, hlast⟩ := Parameters.append_inj (List.cons.inj hparameters).2
      obtain ⟨rfl, hinner⟩ := Gap.append_inj hbrace hbrace hlast
      obtain ⟨rfl, hrest⟩ := balanced.append_inj balanced' (List.cons.inj hinner).2
      exact ⟨rfl, hrest⟩

@[simp] theorem itemsText_nil : itemsText [] = [] := rfl

@[simp] theorem itemsText_cons (gap : Gap) (i : Item) (items : List (Gap × Item)) :
    itemsText ((gap, i) :: items) = gap.text ++ (i.text ++ itemsText items) := by
  simp [itemsText]

/-- A last comment is there or not, and says one thing. -/
theorem remarkText_injective {remark remark' : Option Line}
    (h : remarkText remark = remarkText remark') : remark = remark' := by
  cases remark with
  | none => cases remark' with
    | none => rfl
    | some line' => cases h
  | some line => cases remark' with
    | none => cases h
    | some line' => rw [Subtype.ext (List.cons.inj (List.cons.inj h).2).2]

/-- What is left of a text behind its declarations is no declaration. -/
theorem Item.text_append_ne_remarkText (i : Item) (t : Text) (remark : Option Line) :
    i.text ++ t ≠ remarkText remark := by
  intro h
  cases i <;> cases remark <;> cases h

/-- **A text has one tree at most.** Each part of a tree ends where the text says so: gaps before what is no filler,
names before what does not continue them, blocks at their own braces, and declarations at their closing marks. -/
theorem Source.text_injective {s s' : Source} (h : s.text = s'.text) : s = s' := by
  obtain ⟨items, last, remark⟩ := s
  obtain ⟨items', last', remark'⟩ := s'
  simp only [text] at h
  induction items generalizing items' with
  | nil => cases items' with
    | nil =>
      obtain ⟨rfl, hremark⟩ := Gap.append_inj (bare_remarkText _) (bare_remarkText _) h
      rw [remarkText_injective hremark]
    | cons p items' =>
      obtain ⟨gap, i⟩ := p
      simp only [itemsText_nil, itemsText_cons, List.nil_append, List.append_assoc] at h
      obtain ⟨-, h⟩ := Gap.append_inj (bare_remarkText _) (i.bare _) h
      exact absurd h.symm (i.text_append_ne_remarkText _ _)
  | cons p items ih =>
    obtain ⟨gap, i⟩ := p
    cases items' with
    | nil =>
      simp only [itemsText_nil, itemsText_cons, List.nil_append, List.append_assoc] at h
      obtain ⟨-, h⟩ := Gap.append_inj (i.bare _) (bare_remarkText _) h
      exact absurd h (i.text_append_ne_remarkText _ _)
    | cons p' items' =>
      obtain ⟨gap', i'⟩ := p'
      simp only [itemsText_cons, List.append_assoc] at h
      obtain ⟨rfl, hitem⟩ := Gap.append_inj (i.bare _) (i'.bare _) h
      obtain ⟨rfl, hitems⟩ := Item.append_inj hitem
      cases ih items' hitems
      rfl

end CodeModel.Foo.Grammar
