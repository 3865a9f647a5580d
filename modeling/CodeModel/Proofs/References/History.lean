import CodeModel.Proofs.References.Turns

/-!
# Histories of references

What can be told from requests, answers and calls alone, without a look at the session.

* The **tenure** of an element is the part of the history since it became a working copy last; its
  **balance** is how many references were taken on it since then and not dropped.
* Every working copy has a **number**, that of the registrations before its own. A set-up that fails has
  taken a number too.
* A registration **ends** with the release that drops the last reference, or with the set-up that fails.
* The balance tells how requests are **answered**, except whether a set-up fails.
-/

namespace CodeModel.References

open Session

variable {σ : Type} {n : Nat}

/-! ## Requests -/

/-- The file that a request is about. -/
def Request.file? : Request σ n → Option Handle
  | .start file .. => some file
  | .acquire file => some file
  | .release file => some file
  | .outside _ => none

/-- The file of the request follows a lexicon. -/
def Request.Follows (lex : Lexicon) (r : Request σ n) : Prop := ∀ file ∈ r.file?, file.Follows lex

instance (lex : Lexicon) (r : Request σ n) : Decidable (r.Follows lex) :=
  inferInstanceAs (Decidable (∀ file ∈ r.file?, file.Follows lex))

/-! ## Entries -/

namespace Entry

/-- The entry takes a reference on the working copy of `x`. -/
def takes (x : Handle) (e : Entry σ n) : Bool :=
  match e.request, e.answer with
  | .start file .., .truth (.ok _) => x.same file
  | .acquire file, .copy (some _) => x.same file
  | _, _ => false

/-- The entry drops a reference on the working copy of `x`. -/
def drops (x : Handle) (e : Entry σ n) : Bool :=
  match e.request, e.answer with
  | .release file, .truth (.ok _) => x.same file
  | _, _ => false

/-- With the entry, `x` becomes a working copy. -/
def begins (x : Handle) (e : Entry σ n) : Bool :=
  match e.request, e.answer with
  | .start file .., .truth (.ok true) => x.same file
  | _, _ => false

/-- The registration that the entry makes, be it in vain: the file and its callback. -/
def registration? (e : Entry σ n) : Option (Handle × Option CallbackId) :=
  match e.request, e.answer with
  | .start _ .., .truth (.ok false) => none
  | .start file _ callback _, .truth _ => if file.openable then some (file, callback) else none
  | _, _ => none

/-- The file that becomes a working copy with the entry, or ceases to be one. -/
def turnover? (e : Entry σ n) : Option Handle :=
  match e.request, e.answer with
  | .start file .., .truth (.ok true) => some file
  | .release file, .truth (.ok true) => some file
  | _, _ => none

/-- The working copies whose callbacks hear of their end, each with its callback. -/
def farewells (e : Entry σ n) : List (CallbackId × CopyId) := e.calls.filterMap Call.farewell?

/-- What listeners are told. -/
def news (e : Entry σ n) : List (ListenerId × Event) := e.calls.filterMap Call.news?

end Entry

/-! ## Histories -/

/-- What has happened so far, the latest entry first. -/
abbrev History (σ : Type) (n : Nat) := List (Entry σ n)

/-- What has happened since `x` became a working copy last; everything if it never did. -/
def tenure (x : Handle) : History σ n → History σ n
  | [] => []
  | e :: h => if e.begins x then [e] else e :: tenure x h

/-- The references taken on `x` less those dropped. -/
def balance (x : Handle) (h : History σ n) : Int := h.countP (·.takes x) - h.countP (·.drops x)

/-- All registrations there have been, the latest first. -/
def registrations (h : History σ n) : List (Handle × Option CallbackId) := h.filterMap Entry.registration?

/-- The number and the callback of the latest registration of `x`. -/
def latest? (x : Handle) : History σ n → Option (CopyId × Option CallbackId)
  | [] => none
  | e :: h =>
    match e.registration? with
    | some (file, callback) =>
      if x.same file then some ((registrations h).length, callback) else latest? x h
    | none => latest? x h

/-- The registration that ends with an entry: its number and its callback. -/
def Entry.ended? (before : History σ n) (e : Entry σ n) : Option (CopyId × Option CallbackId) :=
  match e.request, e.answer with
  | .start file _ callback _, .truth (.error _) =>
    if file.openable then some ((registrations before).length, callback) else none
  | .release file, .truth (.ok true) => latest? file before
  | _, _ => none

/-- The answer is the one that the references taken and not dropped so far call for. -/
def Entry.Fitting (before : History σ n) (e : Entry σ n) : Prop :=
  match e.request, e.answer with
  | .start file .., .truth (.ok true) => file.openable = true ∧ balance file (tenure file before) = 0
  | .start file .., .truth (.ok false) => file.openable = true ∧ 0 < balance file (tenure file before)
  | .start file .., .truth (.error _) => file.openable = true → balance file (tenure file before) = 0
  | .acquire file, .copy (some _) => 0 < balance file (tenure file before)
  | .acquire file, .copy none => balance file (tenure file before) = 0
  | .release file, .truth (.ok true) => balance file (tenure file before) = 1
  | .release file, .truth (.ok false) => 1 < balance file (tenure file before)
  | .release file, .truth (.error _) => balance file (tenure file before) = 0
  | .outside _, .done => True
  | _, _ => False

/-- Those are called who have to be, and nobody else. -/
structure Entry.Proper (listeners : Listeners) (before : History σ n) (e : Entry σ n) : Prop where
  /-- the callback of a registration that ends with the entry hears of it -/
  farewells : e.farewells = ((e.ended? before).bind fun p => p.2.map (·, p.1)).toList
  /-- all listeners hear of a file that becomes a working copy or ceases to be one -/
  turnover : ∀ file, e.turnover? = some file → ∃ status,
    e.news = (listeners.receivers .postChange).map (·, workingCopyEvent file status)
  /-- and of nothing else -/
  silence : e.turnover? = none → e.news = []

/-! ## Carrying out requests -/

/-- Carries out requests one after the other, after some history. -/
def run (m : Model σ) (k : Minutes σ) :
    List (Request σ n) → History σ n × Session σ → History σ n × Session σ
  | [], hs => hs
  | r :: rs, (h, s) =>
    let (e, t) := perform m k r s
    run m k rs (e :: h, t)

/-- A session at its start: nothing is opened yet. -/
def fresh (config : Config) (world : σ) (listeners : Listeners) (buffers : List Buffer)
    (arrangement : Arrangement := .asBuilt) : Session σ :=
  let s : Session σ := Session.new config world arrangement
  { s with listeners, store := { s.store with buffers } }

end CodeModel.References
