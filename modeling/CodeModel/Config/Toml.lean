import CodeModel.Text.Basic

/-!
# Configuration documents

Reads the part of TOML that a configuration is written in: top-level keys with a number or a truth
value, one to a line, blanks and comments. A document that uses anything else (tables, texts, dates,
lists) is refused as a whole, just like one that breaks the notation.

* **Integers** are decimal without leading zeros, or hexadecimal, octal or binary with a mark; single
  underscores may stand between digits. They lie between `-2 ^ 63` and `2 ^ 64 - 1`.
* **Floats** have a fraction, an exponent or both; `inf` and `nan` may have a sign. A written number
  that is too large to be finite is refused.
* A line ends with a line feed, before which one carriage return is dropped.
-/

namespace CodeModel.Toml

/-- A value that a configuration may use. -/
inductive Scalar where
  /-- A whole number. -/
  | integer (n : Int)
  /-- A number with a fraction or an exponent. -/
  | float (x : Float)
  /-- A truth value. -/
  | bool (b : Bool)

/-! ## Digits -/

/-- The value of a hexadecimal digit. -/
def digitValue? (c : Char) : Option Nat :=
  if '0' ≤ c ∧ c ≤ '9' then some (c.toNat - '0'.toNat)
  else if 'a' ≤ c ∧ c ≤ 'f' then some (c.toNat - 'a'.toNat + 10)
  else if 'A' ≤ c ∧ c ≤ 'F' then some (c.toNat - 'A'.toNat + 10)
  else none

/-- The character is a digit of the base. -/
def isDigitOf (base : Nat) (c : Char) : Bool := (digitValue? c).any (· < base)

/-- Takes the underscores out of a group of digits; each must stand **between two digits**. -/
def ungroup (base : Nat) : Text → Option Text
  | [] => none
  | [c] => if isDigitOf base c then some [c] else none
  | c :: '_' :: rest => if isDigitOf base c then (ungroup base rest).map (c :: ·) else none
  | c :: rest => if isDigitOf base c then (ungroup base rest).map (c :: ·) else none

/-- The number that the digits write. -/
def valueOf (base : Nat) (digits : Text) : Nat :=
  digits.foldl (fun n c => n * base + (digitValue? c).getD 0) 0

/-- Decimal digits without a leading zero, the single zero apart. -/
def decimal? (t : Text) : Option Text :=
  match ungroup 10 t with
  | some ('0' :: _ :: _) => none
  | digits => digits

/-! ## Numbers -/

/-- Splits off a sign; the first part tells whether it is a minus. -/
def splitSign : Text → Bool × Text
  | '-' :: t => (true, t)
  | '+' :: t => (false, t)
  | t => (false, t)

/-- The integers that a configuration can hold. -/
def inRange (n : Int) : Bool := -(Nat.pow 2 63 : Int) ≤ n && n < Nat.pow 2 64

/-- An integer in one of the four bases. -/
def integer? (t : Text) : Option Int :=
  let parsed : Option Int := match t with
    | '0' :: 'x' :: rest => (ungroup 16 rest).map fun d => (valueOf 16 d : Int)
    | '0' :: 'o' :: rest => (ungroup 8 rest).map fun d => (valueOf 8 d : Int)
    | '0' :: 'b' :: rest => (ungroup 2 rest).map fun d => (valueOf 2 d : Int)
    | _ =>
      let (negative, rest) := splitSign t
      (decimal? rest).map fun d => if negative then -(valueOf 10 d : Int) else (valueOf 10 d : Int)
  parsed.filter inRange

/-- The number `mantissa * 10 ^ exponent`, or `none` if it is too large to be finite. Exponents far
out of range are settled without computing the power. -/
def scientific? (mantissa : Nat) (exponent : Int) : Option Float :=
  let magnitude := (Nat.toDigits 10 mantissa).length + exponent
  if mantissa = 0 ∨ magnitude < -400 then some 0
  else if 400 < magnitude then none
  else
    let x := Float.ofScientific mantissa (exponent < 0) exponent.natAbs
    if x.isInf then none else some x

/-- The exponent part behind its mark. -/
def exponent? (t : Text) : Option Int :=
  let (negative, rest) := splitSign t
  (ungroup 10 rest).map fun d => if negative then -(valueOf 10 d : Int) else (valueOf 10 d : Int)

/-- An unsigned number with a fraction, an exponent or both. -/
def unsignedFloat? (t : Text) : Option Float := do
  let isMark (c : Char) : Bool := c == 'e' || c == 'E'
  let (mantissa, tail) := (t.takeWhile (!isMark ·), t.dropWhile (!isMark ·))
  let exponent ← match tail with
    | [] => some 0
    | _ :: e => exponent? e
  let (whole, point) := (mantissa.takeWhile (· != '.'), mantissa.dropWhile (· != '.'))
  let wholeDigits ← decimal? whole
  match point with
  | [] => if tail.isEmpty then none else scientific? (valueOf 10 wholeDigits) exponent
  | _ :: fraction =>
    let fractionDigits ← ungroup 10 fraction
    scientific? (valueOf 10 (wholeDigits ++ fractionDigits)) (exponent - fractionDigits.length)

/-- A number with a fraction or an exponent, or one of the words for infinity and not-a-number. -/
def float? (t : Text) : Option Float :=
  let (negative, rest) := splitSign t
  let magnitude :=
    if rest = ['i', 'n', 'f'] then some (1.0 / 0.0)
    else if rest = ['n', 'a', 'n'] then some (0.0 / 0.0)
    else unsignedFloat? rest
  magnitude.map fun x => if negative then -x else x

/-- A value that a configuration may use. -/
def scalar? (t : Text) : Option Scalar :=
  if t = ['t', 'r', 'u', 'e'] then some (.bool true)
  else if t = ['f', 'a', 'l', 's', 'e'] then some (.bool false)
  else match integer? t with
    | some n => some (.integer n)
    | none => (float? t).map .float

/-! ## Keys -/

/-- The character may stand in a key without quotes. -/
def isBareKeyChar (c : Char) : Bool := c.isAlphanum || c == '_' || c == '-'

/-- A control character other than the tab. -/
def isControl (c : Char) : Bool := (c.toNat < 0x20 && c != '\t') || c.toNat == 0x7f

/-- The character written by that many hexadecimal digits, and what follows them. -/
def codePoint? (count : Nat) (t : Text) : Option (Char × Text) :=
  let digits := t.take count
  if digits.length = count ∧ digits.all (isDigitOf 16) = true then
    let n := valueOf 16 digits
    if n.isValidChar then some (Char.ofNat n, t.drop count) else none
  else none

/-- The inside of a key in double quotes, and what follows the closing quote. The fuel bounds the
number of characters. -/
def basicKey? : Nat → Text → Option (Text × Text)
  | 0, _ => none
  | _, [] => none
  | _, '"' :: rest => some ([], rest)
  | fuel + 1, '\\' :: mark :: rest =>
    let more (c : Char) (rest : Text) : Option (Text × Text) :=
      (basicKey? fuel rest).map fun (key, rest) => (c :: key, rest)
    let coded (count : Nat) : Option (Text × Text) :=
      (codePoint? count rest).bind fun (c, rest) => more c rest
    match mark with
    | 'b' => more '\x08' rest
    | 't' => more '\t' rest
    | 'n' => more '\n' rest
    | 'f' => more '\x0c' rest
    | 'r' => more '\r' rest
    | 'e' => more '\x1b' rest
    | '"' => more '"' rest
    | '\\' => more '\\' rest
    | 'x' => coded 2
    | 'u' => coded 4
    | 'U' => coded 8
    | _ => none
  | fuel + 1, c :: rest =>
    if isControl c ∨ c = '\\' then none
    else (basicKey? fuel rest).map fun (key, rest) => (c :: key, rest)

/-- A key and what follows it. -/
def key? : Text → Option (Text × Text)
  | '"' :: rest => basicKey? (rest.length + 1) rest
  | '\x27' :: rest =>
    match rest.span (· != '\x27') with
    | (key, _ :: rest) => if key.any isControl then none else some (key, rest)
    | (_, []) => none
  | t =>
    match t.span isBareKeyChar with
    | ([], _) => none
    | (key, rest) => some (key, rest)

/-! ## Lines -/

/-- The character is a blank within a line. -/
def isSpace (c : Char) : Bool := c == ' ' || c == '\t'

/-- Nothing is left but blanks and a comment. -/
def isRest (t : Text) : Bool :=
  match t.dropWhile isSpace with
  | [] => true
  | '#' :: comment => !comment.any isControl
  | _ => false

/-- Reads one line: `some none` if it sets nothing. -/
def line? (t : Text) : Option (Option (Text × Scalar)) :=
  if isRest t then some none
  else do
    let (key, t) ← key? (t.dropWhile isSpace)
    match t.dropWhile isSpace with
    | '=' :: t =>
      let (written, t) := (t.dropWhile isSpace).span fun c => !isSpace c && c != '#'
      let value ← scalar? written
      if isRest t then some (some (key, value)) else none
    | _ => none

/-- Cuts a document into lines. Only a line that a line feed ends loses its carriage return. -/
def lines (t : Text) : List Text :=
  let cut := t.splitOn '\n'
  let ended := cut.dropLast.map fun l => if l.getLast? = some '\r' then l.dropLast else l
  ended ++ cut.getLast?.toList

/-- Reads a document into its keys and values, in order. -/
def parse (t : Text) : Option (List (Text × Scalar)) :=
  let t := match t with
    | '\ufeff' :: rest => rest
    | _ => t
  ((lines t).mapM line?).map fun l => l.filterMap id

end CodeModel.Toml
