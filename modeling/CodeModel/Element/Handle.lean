/-!
# Handles

A handle names an element of a code model by its place in the element tree: a kind, a name and an
occurrence number at every level. A handle holds no state of the element.

There are two ways to compare handles.

* `Handle.sameChain` is **strict**: both chains of ancestors agree node by node.
* `Handle.same` is **relaxed**: below a parent-independent kind the ancestors do not matter, so that a
  shared library reached through two projects is one element. A parent-independent handle never
  matches a parent-dependent one that has a parent. Every table of the library is keyed by `same`.

Kinds compare by name. A program gives each kind name one meaning, so that the name determines the
two switches; only then is `same` an equivalence.
-/

namespace CodeModel

/-- A **kind** of elements. -/
structure Kind where
  /-- The name, by which kinds are compared. -/
  name : String
  /-- Elements of the kind build their own structure. -/
  openable : Bool := false
  /-- Elements of the kind are the same wherever they are reached from. -/
  parentIndependent : Bool := false
deriving DecidableEq, Inhabited

/-- What a handle says about one level of the element tree. -/
structure Node where
  /-- The kind of the element. -/
  kind : Kind
  /-- The name of the element, if it has one. -/
  name : Option String
  /-- Tells apart siblings of one kind and name; the first of them has 1. -/
  occurrence : Nat := 1
deriving DecidableEq, Inhabited

namespace Node

/-- Both nodes have the same kind name, name and occurrence. -/
def same (m n : Node) : Bool :=
  m.kind.name == n.kind.name && m.occurrence == n.occurrence && m.name == n.name

/-- The short text of a node: its name, or its kind in angle brackets, and the occurrence from the
second one on. -/
def label (n : Node) : String :=
  let base := match n.name with
    | some name => name
    | none => "<" ++ n.kind.name ++ ">"
  if n.occurrence > 1 then base ++ "#" ++ n.occurrence.repr else base

theorem same_iff (m n : Node) :
    m.same n = true ↔ m.kind.name = n.kind.name ∧ m.occurrence = n.occurrence ∧ m.name = n.name := by
  simp [same, and_assoc]

@[simp] theorem same_refl (m : Node) : m.same m = true := by simp [same]

theorem same_comm (m n : Node) : m.same n = n.same m := by
  rw [Bool.eq_iff_iff, same_iff, same_iff]
  exact ⟨fun ⟨a, b, c⟩ => ⟨a.symm, b.symm, c.symm⟩, fun ⟨a, b, c⟩ => ⟨a.symm, b.symm, c.symm⟩⟩

theorem same_trans {l m n : Node} (h : l.same m = true) (k : m.same n = true) :
    l.same n = true := by
  rw [same_iff] at *
  exact ⟨h.1.trans k.1, h.2.1.trans k.2.1, h.2.2.trans k.2.2⟩

end Node

/-- A **handle** is a place in the element tree. -/
inductive Handle where
  /-- An element without a parent. -/
  | root (node : Node)
  /-- An element below another one. -/
  | child (parent : Handle) (node : Node)
deriving DecidableEq, Inhabited

namespace Handle

/-! ## Making handles -/

/-- The top element of a tree. -/
def top (kind : Kind) (name : Option String) : Handle := .root ⟨kind, name, 1⟩

/-- An element below `parent`; occurrences count from 1, so a 0 is read as 1. -/
def sub (parent : Handle) (kind : Kind) (name : String) (occurrence : Nat := 1) : Handle :=
  .child parent ⟨kind, some name, max occurrence 1⟩

/-! ## Parts of a handle -/

/-- The lowest level of the handle. -/
def node : Handle → Node
  | .root n => n
  | .child _ n => n

/-- The kind of the element. -/
def kind (e : Handle) : Kind := e.node.kind

/-- The name of the element. -/
def name (e : Handle) : Option String := e.node.name

/-- The occurrence number of the element. -/
def occurrence (e : Handle) : Nat := e.node.occurrence

/-- The element builds its own structure. -/
def openable (e : Handle) : Bool := e.kind.openable

/-- The element one level up. -/
def parent? : Handle → Option Handle
  | .root _ => none
  | .child p _ => some p

/-- The proper ancestors, the nearest first. -/
def ancestors : Handle → List Handle
  | .root _ => []
  | .child p _ => p :: p.ancestors

/-- The number of proper ancestors. -/
def depth : Handle → Nat
  | .root _ => 0
  | .child p _ => p.depth + 1

/-- The top of the tree the element is in. -/
def topmost : Handle → Handle
  | .root n => .root n
  | .child p _ => p.topmost

/-! ## Comparison -/

/-- Strict comparison: the chains have the same length and agree **node by node**. -/
def sameChain : Handle → Handle → Bool
  | .root m, .root n => m.same n
  | .child p m, .child q n => m.same n && p.sameChain q
  | _, _ => false

/-- Relaxed comparison: ancestors matter only up to the first **parent-independent** kind. -/
def same : Handle → Handle → Bool
  | .root m, .root n => m.same n
  | .root m, .child _ n => m.same n && m.kind.parentIndependent && n.kind.parentIndependent
  | .child _ m, .root n => m.same n && m.kind.parentIndependent
  | .child p m, .child q n =>
    m.same n &&
      (if m.kind.parentIndependent then n.kind.parentIndependent
       else !n.kind.parentIndependent && p.same q)

/-- The handle `a` is a proper ancestor of `e`, strictly compared. -/
def isAncestorOf (a e : Handle) : Bool := e.ancestors.any (·.sameChain a)

/-- The nearest proper ancestor of the named kind. -/
def enclosing? (e : Handle) (kindName : String) : Option Handle :=
  e.ancestors.find? (·.kind.name == kindName)

/-! ## Owners

The body of an element that does not build its own structure is made by the nearest ancestor that
does, its owner. -/

/-- The element itself if it is openable, else its nearest openable ancestor. -/
def owner? : Handle → Option Handle
  | .root n => if n.kind.openable then some (.root n) else none
  | .child p n => if n.kind.openable then some (.child p n) else p.owner?

/-- The element is not openable and `owner` is its nearest openable ancestor. -/
def isOwnedBy (e owner : Handle) : Bool :=
  !e.openable && (e.owner?.any (·.sameChain owner))

/-! ## Text -/

/-- The short text of the element's own level. -/
def label (e : Handle) : String := e.node.label

/-- The labels from the top down, divided by slashes. -/
def path : Handle → String
  | .root n => n.label
  | .child p n => p.path ++ "/" ++ n.label

/-- The text that names the element in messages: its kind and, in brackets, its path. -/
def describe (e : Handle) : String := e.kind.name ++ "(" ++ e.path ++ ")"

/-! ## Laws -/

@[simp] theorem sameChain_refl (a : Handle) : a.sameChain a = true := by
  induction a with
  | root n => simp [sameChain]
  | child p n ih => simp [sameChain, ih]

theorem sameChain_comm (a b : Handle) : a.sameChain b = b.sameChain a := by
  induction a generalizing b with
  | root m => cases b <;> simp [sameChain, Node.same_comm]
  | child p m ih => cases b <;> simp [sameChain, Node.same_comm m, ih]

theorem sameChain_trans {a b c : Handle} (h : a.sameChain b = true) (k : b.sameChain c = true) :
    a.sameChain c = true := by
  induction a generalizing b c with
  | root m =>
    cases b with
    | root n => cases c with
      | root o => exact Node.same_trans h k
      | child r o => simp [sameChain] at k
    | child q n => simp [sameChain] at h
  | child p m ih =>
    cases b with
    | root n => simp [sameChain] at h
    | child q n => cases c with
      | root o => simp [sameChain] at k
      | child r o =>
        simp only [sameChain, Bool.and_eq_true] at h k ⊢
        exact ⟨Node.same_trans h.1 k.1, ih h.2 k.2⟩

@[simp] theorem same_refl (a : Handle) : a.same a = true := by
  induction a with
  | root n => simp [same]
  | child p n ih => by_cases h : n.kind.parentIndependent <;> simp [same, h, ih]

/-- Handles on strictly equal chains have equally many ancestors. -/
theorem depth_eq_of_sameChain {a b : Handle} (h : a.sameChain b = true) : a.depth = b.depth := by
  induction a generalizing b with
  | root m => cases b with
    | root n => rfl
    | child q n => simp [sameChain] at h
  | child p m ih => cases b with
    | root n => simp [sameChain] at h
    | child q n =>
      simp only [sameChain, Bool.and_eq_true] at h
      simp [depth, ih h.2]

/-- The owner lies on the element's own chain. -/
theorem owner?_depth_le {e o : Handle} (h : e.owner? = some o) : o.depth ≤ e.depth := by
  induction e with
  | root n =>
    simp only [owner?] at h
    split at h <;> simp_all
  | child p n ih =>
    simp only [owner?] at h
    split at h
    · simp_all
    · have := ih h
      simp [depth]; omega

theorem openable_owner? {e o : Handle} (h : e.owner? = some o) : o.openable = true := by
  induction e with
  | root n =>
    simp only [owner?] at h
    split at h
    · simp only [Option.some.injEq] at h; subst h; assumption
    · simp at h
  | child p n ih =>
    simp only [owner?] at h
    split at h
    · simp only [Option.some.injEq] at h; subst h; assumption
    · exact ih h

theorem parent?_depth_lt {e p : Handle} (h : e.parent? = some p) : p.depth < e.depth := by
  cases e with
  | root n => simp [parent?] at h
  | child q n =>
    simp only [parent?, Option.some.injEq] at h
    simp [depth, h]

/-- An element that is not openable has its owner strictly above it. -/
theorem owner?_depth_lt {e o : Handle} (hne : e.openable = false) (h : e.owner? = some o) :
    o.depth < e.depth := by
  cases e with
  | root n =>
    simp only [openable, kind, node] at hne
    simp [owner?, hne] at h
  | child p n =>
    simp only [openable, kind, node] at hne
    simp only [owner?, hne] at h
    have := owner?_depth_le h
    simp [depth]; omega

end Handle

end CodeModel
