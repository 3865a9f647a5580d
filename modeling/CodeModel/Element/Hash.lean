import CodeModel.Element.Handle

/-!
# Hashes of handles

Tables find handles by their hashes. A handle carries its hash with it: it is made when the handle is, of the
handle's own node and the hash of its parent, and the parent is left out where the kind does without it.

* A **hash function** is whatever makes a hash of the words that it is fed with, one after the other.
* A comparison looks first whether both handles are known to be **one**, then at the hashes, and only then at
  nodes and parents (`Handle.sameBy`, `Handle.sameChainBy`).
* What the relaxed comparison is to find out can be said without hashes (`Handle.sameUpwards`).
-/

namespace CodeModel

/-- What a hash function is fed with. `H` is the type of hashes. -/
inductive Word (H : Type) where
  /-- A text. -/
  | text (s : String)
  /-- Whether there is a name. -/
  | named (b : Bool)
  /-- A number. -/
  | number (n : Nat)
  /-- A hash that was made before. -/
  | hash (h : H)
deriving DecidableEq

/-- A **hash function**: what it makes depends on the words that it is fed with, and on nothing else. -/
abbrev Hasher (H : Type) := List (Word H) → H

/-- The words for one level of the element tree. -/
def Node.words {H : Type} (n : Node) : List (Word H) :=
  let name := match n.name with
    | none => [.named false]
    | some name => [.named true, .text name]
  .text n.kind.name :: name ++ [.number n.occurrence]

/-- A **shortcut** knows of some handles that they are one, without a look at what they say. -/
structure Shortcut where
  /-- The two are known to be one. -/
  knows : Handle → Handle → Bool
  /-- What is known is so. -/
  eq_of_knows : ∀ {a b : Handle}, knows a b = true → a = b

namespace Handle

variable {H : Type}

/-- The hash of a handle. The **parent's hash** goes in unless the kind does without the parent. -/
def hash (f : Hasher H) : Handle → H
  | .root n => f n.words
  | .child p n => f (n.words ++ if n.kind.parentIndependent then [] else [.hash (p.hash f)])

/-- The relaxed comparison as it is carried out: different hashes **settle** it. -/
def sameBy [DecidableEq H] (f : Hasher H) (k : Shortcut) (a b : Handle) : Bool :=
  k.knows a b || a.hash f == b.hash f && a.node.same b.node &&
    (a.kind.parentIndependent ||
      match a, b with
      | .root _, .root _ => true
      | .child p _, .child q _ => p.sameBy f k q
      | _, _ => false)

/-- The relaxed comparison without hashes: nodes agree, **upwards** to a kind that does without parents. -/
def sameUpwards (a b : Handle) : Bool :=
  a.node.same b.node &&
    (a.kind.parentIndependent ||
      match a, b with
      | .root _, .root _ => true
      | .child p _, .child q _ => p.sameUpwards q
      | _, _ => false)

/-- The strict comparison as it is carried out. -/
def sameChainBy (k : Shortcut) (a b : Handle) : Bool :=
  k.knows a b || a.node.same b.node &&
    match a, b with
    | .root _, .root _ => true
    | .child p _, .child q _ => p.sameChainBy k q
    | _, _ => false

end Handle

end CodeModel
