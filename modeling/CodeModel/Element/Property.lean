/-!
# Named properties

The facts that a model records about an element beyond its place in the text. A property is read
back under an expected shape, and a value of another shape counts as absent.

* Properties are kept **sorted by name**, so two sets with the same values are equal.
* A **list** has a shape if all its items have the shape of items; an empty list has every list shape.
-/

namespace CodeModel

/-- The value of a property. -/
inductive Value where
  /-- A truth value. -/
  | bool (b : Bool)
  /-- An integer. -/
  | int (n : Int)
  /-- A text. -/
  | text (s : String)
  /-- A list of values. -/
  | list (items : List Value)
deriving Inhabited

namespace Value

mutual

/-- Decides whether two values are equal. -/
def decEq : (v w : Value) → Decidable (v = w)
  | .bool a, .bool b => if h : a = b then .isTrue (by simp [h]) else .isFalse (by simp [h])
  | .int a, .int b => if h : a = b then .isTrue (by simp [h]) else .isFalse (by simp [h])
  | .text a, .text b => if h : a = b then .isTrue (by simp [h]) else .isFalse (by simp [h])
  | .list a, .list b =>
    match decEqAll a b with
    | .isTrue h => .isTrue (by simp [h])
    | .isFalse h => .isFalse (by simp [h])
  | .bool _, .int _ | .bool _, .text _ | .bool _, .list _ => .isFalse (by simp)
  | .int _, .bool _ | .int _, .text _ | .int _, .list _ => .isFalse (by simp)
  | .text _, .bool _ | .text _, .int _ | .text _, .list _ => .isFalse (by simp)
  | .list _, .bool _ | .list _, .int _ | .list _, .text _ => .isFalse (by simp)

/-- Decides whether two lists of values are equal. -/
def decEqAll : (vs ws : List Value) → Decidable (vs = ws)
  | [], [] => .isTrue rfl
  | [], _ :: _ => .isFalse (by simp)
  | _ :: _, [] => .isFalse (by simp)
  | v :: vs, w :: ws =>
    match decEq v w, decEqAll vs ws with
    | .isTrue h, .isTrue k => .isTrue (by simp [h, k])
    | .isFalse h, _ => .isFalse (by simp [h])
    | _, .isFalse k => .isFalse (by simp [k])

end

instance : DecidableEq Value := decEq

end Value

/-- What a reader of a property expects to find. -/
inductive Shape where
  /-- A truth value. -/
  | bool
  /-- An integer. -/
  | int
  /-- A text. -/
  | text
  /-- A list whose items have the given shape. -/
  | list (item : Shape)
deriving DecidableEq

/-- The value is of the expected shape. -/
def Value.fits : Shape → Value → Bool
  | .bool, .bool _ => true
  | .int, .int _ => true
  | .text, .text _ => true
  | .list item, .list vs => vs.all (Value.fits item)
  | _, _ => false

/-- Named values, sorted by name and each name at most once. -/
structure Properties where
  /-- The names and values. -/
  entries : List (String × Value) := []
deriving DecidableEq, Inhabited

namespace Properties

/-- There is no property. -/
def isEmpty (p : Properties) : Bool := p.entries.isEmpty

/-- The value of the named property. -/
def get? (p : Properties) (name : String) : Option Value := p.entries.lookup name

/-- The value of the named property if it is of the expected shape. -/
def getAs? (p : Properties) (name : String) (shape : Shape) : Option Value :=
  (p.get? name).filter (Value.fits shape)

/-- Puts a value at its place in a sorted list, in the place of an earlier one of that name. -/
def insertSorted (name : String) (v : Value) : List (String × Value) → List (String × Value)
  | [] => [(name, v)]
  | (k, w) :: rest =>
    if name = k then (name, v) :: rest
    else if name < k then (name, v) :: (k, w) :: rest
    else (k, w) :: insertSorted name v rest

/-- Sets the named property. -/
def set (p : Properties) (name : String) (v : Value) : Properties := ⟨insertSorted name v p.entries⟩

/-- Takes the named property out. -/
def erase (p : Properties) (name : String) : Properties := ⟨p.entries.filter (·.1 != name)⟩

@[simp] theorem get?_empty (name : String) : get? {} name = none := rfl

theorem get?_set_self (p : Properties) (name : String) (v : Value) :
    (p.set name v).get? name = some v := by
  simp only [get?, set]
  induction p.entries with
  | nil => simp [insertSorted]
  | cons e rest ih =>
    obtain ⟨k, w⟩ := e
    simp only [insertSorted]
    split
    · simp
    · split
      · simp
      · next hne _ =>
        have hk : (name == k) = false := by simp [hne]
        simpa [List.lookup_cons, hk] using ih

end Properties

end CodeModel
