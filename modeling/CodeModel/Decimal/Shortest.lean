/-!
# Shortest decimals

The text of a double-precision number: the fewest digits that still read back as that number.

* A number stands for the **interval** of reals that round to it; the ends belong to it when the
  mantissa is even.
* The shortest decimal is a multiple of the **coarsest power of ten** that has a multiple in the
  interval. Only the two multiples around the number itself can be the nearest one; a tie goes up.
* The digits are written **positionally** whatever the exponent, and a whole number has no point.

The search walks the powers of ten down from `10 ^ 309`, above every finite number, and the spacing of
the smallest numbers is above `10 ^ (-324)`, so the fuel below never runs out.
-/

namespace CodeModel.Decimal

/-- A positive number `mantissa * 2 ^ exponent`. -/
structure Binary where
  /-- The whole number that is scaled. -/
  mantissa : Nat
  /-- The power of two that scales it. -/
  exponent : Int
  /-- The next smaller number is only half as far away as the next larger one. -/
  closerBelow : Bool

/-- Reads the bits of a finite double-precision number, the sign left aside. -/
def Binary.ofBits (bits : UInt64) : Binary :=
  let fraction : Nat := bits.toNat % Nat.pow 2 52
  let biased : Nat := bits.toNat / Nat.pow 2 52 % Nat.pow 2 11
  if biased = 0 then ⟨fraction, -1074, false⟩
  else ⟨Nat.pow 2 52 + fraction, (biased : Int) - 1075, fraction == 0 && biased > 1⟩

/-- The multiple of `10 ^ grid` that reads back as `x`, if there is one. Everything is scaled to whole
numbers: a quarter of the mantissa's unit is the finest step that the interval needs. -/
def Binary.multipleOn (x : Binary) (grid : Int) : Option Nat :=
  let scale := Nat.pow 2 (x.exponent - 2).toNat * Nat.pow 10 (-grid).toNat
  let unit := Nat.pow 10 grid.toNat * Nat.pow 2 (2 - x.exponent).toNat
  let value := 4 * x.mantissa * scale
  let low := (4 * x.mantissa - if x.closerBelow then 1 else 2) * scale
  let high := (4 * x.mantissa + 2) * scale
  let inside (k : Nat) : Bool :=
    if x.mantissa % 2 = 0 then low ≤ k * unit && k * unit ≤ high
    else low < k * unit && k * unit < high
  let below := value / unit
  let above := below + 1
  match inside below, inside above with
  | true, true => if above * unit - value ≤ value - below * unit then some above else some below
  | true, false => some below
  | false, true => some above
  | false, false => none

/-- Searches the powers of ten from `grid` down; the answer `(d, e)` stands for `d * 10 ^ e`. -/
def Binary.shortestFrom (x : Binary) : Nat → Int → Nat × Int
  | 0, grid => (0, grid)
  | fuel + 1, grid =>
    match x.multipleOn grid with
    | some d => (d, grid)
    | none => x.shortestFrom fuel (grid - 1)

/-- The shortest decimal `d * 10 ^ e` that reads back as `x`. -/
def Binary.shortest (x : Binary) : Nat × Int := x.shortestFrom 700 309

/-- Writes `digits * 10 ^ exponent` without an exponent part. -/
def positional (digits : Nat) (exponent : Int) : String :=
  let text := Nat.toDigits 10 digits
  let places := (-exponent).toNat
  if places = 0 then String.ofList (text ++ List.replicate exponent.toNat '0')
  else
    let padded := List.replicate (places + 1 - text.length) '0' ++ text
    let whole := padded.length - places
    String.ofList (padded.take whole ++ '.' :: padded.drop whole)

/-- The text of a number: a sign only when it is negative, the zero of either sign included. -/
def render (x : Float) : String :=
  if x.isNaN then "NaN"
  else
    let sign := if x.toBits.toNat / Nat.pow 2 63 = 1 then "-" else ""
    if x.isInf then sign ++ "inf"
    else if x == 0 then sign ++ "0"
    else
      let (digits, exponent) := (Binary.ofBits x.toBits).shortest
      sign ++ positional digits exponent

end CodeModel.Decimal
