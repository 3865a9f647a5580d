import CodeModel.Config.Toml
import CodeModel.Error

/-!
# Configuration

The settings of a session, and how they are read from a document. Every setting has a default; an
unknown or repeated key makes a document unreadable.

* The **cache size** must be positive and the **load factor** a share between 0 (excluded) and 1
  (included). The cache size is checked first.
-/

namespace CodeModel

/-- The settings of a session. -/
structure Config where
  /-- How many bodies the cache may hold. -/
  cacheSize : Nat := 5000
  /-- The share of the cache that survives an overflow. -/
  loadFactor : Float := 0.5
  /-- How many levels below a file a reconcile reports in detail. -/
  reconcileDepth : Nat := 1
  /-- Whether opening an element makes room for all its children. -/
  childHeadroom : Bool := true

namespace Config

/-- Checks that the settings can be used. -/
def validate (c : Config) : Except Error Unit :=
  if c.cacheSize = 0 then .error (.config .zeroCacheSize)
  else if 0 < c.loadFactor && c.loadFactor ≤ 1 then .ok ()
  else .error (.config (.loadFactorRange c.loadFactor))

/-- A count: a whole number that is not negative. -/
def count? : Toml.Scalar → Option Nat
  | .integer (.ofNat n) => some n
  | _ => none

/-- A share: any number, whole ones included. -/
def share? : Toml.Scalar → Option Float
  | .float x => some x
  | .integer (.ofNat n) => some n.toUInt64.toFloat
  | .integer (.negSucc n) => some (-(n + 1).toUInt64.toFloat)
  | .bool _ => none

/-- A switch. -/
def switch? : Toml.Scalar → Option Bool
  | .bool b => some b
  | _ => none

/-- Sets what one key names. -/
def set? (c : Config) (key : String) (value : Toml.Scalar) : Option Config :=
  match key with
  | "cache_size" => (count? value).map fun n => { c with cacheSize := n }
  | "load_factor" => (share? value).map fun x => { c with loadFactor := x }
  | "reconcile_depth" => (count? value).map fun n => { c with reconcileDepth := n }
  | "child_headroom" => (switch? value).map fun b => { c with childHeadroom := b }
  | _ => none

/-- Reads the settings of a document, the others staying at their defaults. -/
def read? (document : Text) : Option Config := do
  let entries ← Toml.parse document
  let keys := entries.map Prod.fst
  if keys.eraseDups.length = keys.length then
    entries.foldlM (fun c (key, value) => c.set? (String.ofList key) value) {}
  else none

/-- Reads and checks a document. -/
def ofDocument (document : Text) : Except Error Config :=
  match read? document with
  | none => .error (.config .unreadable)
  | some c => c.validate.map fun _ => c

end Config

end CodeModel
