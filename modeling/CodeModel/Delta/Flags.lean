/-!
# Change flags

A set of flags that tell what is different about a changed element, packed into 64 bits. The lowest
twelve bits have a fixed meaning; the bits from 32 on are free for the models built on the library.
-/

namespace CodeModel

/-- A set of change flags, one per bit. -/
structure Flags where
  /-- The bits of the set. -/
  bits : BitVec 64
deriving DecidableEq, Inhabited

namespace Flags

/-- The flag at one position. -/
def bit (n : Nat) : Flags := ⟨1#64 <<< n⟩

/-- No flag. -/
def empty : Flags := ⟨0#64⟩

/-- The flags of either set. -/
def union (f g : Flags) : Flags := ⟨f.bits ||| g.bits⟩

/-- The flags of `f` that are not in `g`. -/
def diff (f g : Flags) : Flags := ⟨f.bits &&& ~~~g.bits⟩

instance : EmptyCollection Flags := ⟨empty⟩

instance : Union Flags := ⟨union⟩

instance : SDiff Flags := ⟨diff⟩

/-- There is no flag in the set. -/
def isEmpty (f : Flags) : Bool := f.bits == 0#64

/-- Every flag of `g` is in `f`. -/
def contains (f g : Flags) : Bool := f.bits &&& g.bits == g.bits

/-- Some flag is in both sets. -/
def intersects (f g : Flags) : Bool := f.bits &&& g.bits != 0#64

/-- The set without its lowest flag. -/
def dropLowest (f : Flags) : Flags := ⟨f.bits &&& (f.bits - 1#64)⟩

theorem toNat_dropLowest_lt {f : Flags} (h : f.bits ≠ 0#64) :
    f.dropLowest.bits.toNat < f.bits.toNat := by
  have hpos : 0 < f.bits.toNat := Nat.pos_of_ne_zero fun hz => h (BitVec.eq_of_toNat_eq hz)
  have hle : f.dropLowest.bits.toNat ≤ (f.bits - 1#64).toNat := by
    rw [dropLowest, BitVec.toNat_and]
    exact Nat.and_le_right
  have hpred : (f.bits - 1#64).toNat = f.bits.toNat - 1 := by bv_omega
  omega

/-- The positions of the flags, which are taken off one by one, the lowest first. -/
def positions (f : Flags) : List Nat :=
  if _h : f.bits = 0#64 then [] else f.bits.ctz.toNat :: positions f.dropLowest
termination_by f.bits.toNat
decreasing_by exact toNat_dropLowest_lt _h

/-! ## The flags with a fixed meaning -/

/-- The element's own content changed. -/
def content : Flags := bit 0

/-- Some children changed. -/
def children : Flags := bit 1

/-- The element was moved here. -/
def movedFrom : Flags := bit 2

/-- The element was moved away. -/
def movedTo : Flags := bit 3

/-- The element changed its place among its siblings. -/
def reorder : Flags := bit 4

/-- The children were looked at one by one, so a missing `content` is a fact. -/
def fineGrained : Flags := bit 5

/-- The element was opened or closed. -/
def opened : Flags := bit 6

/-- The description of the element changed. -/
def description : Flags := bit 7

/-- The element became a working copy or ceased to be one. -/
def workingCopy : Flags := bit 8

/-- The resource behind the element changed. -/
def underlyingResource : Flags := bit 9

/-- Markers of the element changed. -/
def markers : Flags := bit 10

/-- The synchronisation state of the element changed. -/
def sync : Flags := bit 11

/-- All flags with a fixed meaning. -/
def standard : Flags := ⟨0xfff#64⟩

/-- The flag number `n` of those that are free for models; numbers repeat after 32. -/
def model (n : Nat) : Flags := bit (32 + n % 32)

/-! ## Laws -/

@[simp] theorem bits_union (f g : Flags) : (f ∪ g).bits = f.bits ||| g.bits := rfl

@[simp] theorem bits_sdiff (f g : Flags) : (f \ g).bits = f.bits &&& ~~~g.bits := rfl

@[simp] theorem bits_empty : (∅ : Flags).bits = 0#64 := rfl

@[simp] theorem union_empty (f : Flags) : f ∪ ∅ = f := by
  cases f; simp [Union.union, union, EmptyCollection.emptyCollection, empty]

@[simp] theorem empty_union (f : Flags) : ∅ ∪ f = f := by
  cases f; simp [Union.union, union, EmptyCollection.emptyCollection, empty]

theorem isEmpty_iff (f : Flags) : f.isEmpty = true ↔ f = ∅ := by
  cases f; simp [isEmpty, EmptyCollection.emptyCollection, empty]

end Flags

end CodeModel
