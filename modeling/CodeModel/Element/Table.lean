import CodeModel.Element.Handle

/-!
# Tables and sets of handles

Finite maps and sets whose keys are handles under the relaxed comparison. The handle that is looked
up is always the left-hand side of the comparison, the stored one the right-hand side.

* Inserting under a key that is **already present** keeps the stored key and replaces the value.
* Inserting under a **new** key appends, so the order of a table is the order of first insertion.
-/

namespace CodeModel

/-- A finite map from handles. -/
abbrev Table (α : Type) := List (Handle × α)

namespace Table

variable {α : Type}

/-- The value stored for `e`. -/
def get? : Table α → Handle → Option α
  | [], _ => none
  | (k, v) :: t, e => if e.same k then some v else get? t e

/-- There is a value for `e`. -/
def contains (t : Table α) (e : Handle) : Bool := (get? t e).isSome

/-- Stores `v` for `e`, in place if `e` is present and at the end if not. -/
def insert : Table α → Handle → α → Table α
  | [], e, v => [(e, v)]
  | (k, w) :: t, e, v => if e.same k then (k, v) :: t else (k, w) :: insert t e v

/-- Drops the entry of `e`. -/
def erase : Table α → Handle → Table α
  | [], _ => []
  | (k, v) :: t, e => if e.same k then t else (k, v) :: erase t e

/-- The table with these entries; of two values for one key the later one stays. -/
def ofList (entries : List (Handle × α)) : Table α :=
  entries.foldl (fun t p => insert t p.1 p.2) []

/-- The keys, in the order of insertion. -/
def keys (t : Table α) : List Handle := t.map Prod.fst

@[simp] theorem get?_nil (e : Handle) : get? ([] : Table α) e = none := rfl

theorem get?_insert_self (t : Table α) (e : Handle) (v : α) : get? (insert t e v) e = some v := by
  induction t with
  | nil => simp [insert, get?]
  | cons p t ih =>
    obtain ⟨k, w⟩ := p
    by_cases h : e.same k = true
    · simp [insert, get?, h]
    · simp [insert, get?, h, ih]

/-- A present key keeps its place and its spelling. -/
theorem keys_insert_of_contains {t : Table α} {e : Handle} (v : α) (h : contains t e = true) :
    keys (insert t e v) = keys t := by
  induction t with
  | nil => simp [contains] at h
  | cons p t ih =>
    obtain ⟨k, w⟩ := p
    by_cases hk : e.same k = true
    · simp [insert, keys, hk]
    · have hc : contains t e = true := by simpa [contains, get?, hk] using h
      have := ih hc
      simp only [keys] at this ⊢
      simp [insert, hk, this]

/-- A new key goes to the end. -/
theorem insert_of_not_contains {t : Table α} {e : Handle} (v : α) (h : contains t e = false) :
    insert t e v = t ++ [(e, v)] := by
  induction t with
  | nil => rfl
  | cons p t ih =>
    obtain ⟨k, w⟩ := p
    by_cases hk : e.same k = true
    · simp [contains, get?, hk] at h
    · have hc : contains t e = false := by simpa [contains, get?, hk] using h
      simp [insert, hk, ih hc]

end Table

/-- A finite set of handles. -/
abbrev HandleSet := List Handle

namespace HandleSet

/-- The set has an element that `e` matches. -/
def contains (s : HandleSet) (e : Handle) : Bool := s.any (e.same ·)

/-- Adds `e` unless it is present. -/
def insert (s : HandleSet) (e : Handle) : HandleSet := if contains s e then s else s ++ [e]

/-- Takes out the element that `e` matches. -/
def erase (s : HandleSet) (e : Handle) : HandleSet := s.eraseP (e.same ·)

/-- The set of the listed handles. -/
def ofList (l : List Handle) : HandleSet := l.foldl insert []

/-- The set has `e` or one of its proper ancestors. -/
def covers (s : HandleSet) (e : Handle) : Bool := contains s e || e.ancestors.any (contains s)

@[simp] theorem contains_nil (e : Handle) : contains [] e = false := rfl

theorem contains_insert_self (s : HandleSet) (e : Handle) : contains (insert s e) e = true := by
  by_cases h : contains s e = true
  · simp [insert, h]
  · simp only [insert, h]
    simp [contains]

end HandleSet

end CodeModel
