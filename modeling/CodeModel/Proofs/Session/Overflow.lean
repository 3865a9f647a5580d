import CodeModel.Proofs.Session.Accounts
import CodeModel.Proofs.Store.Overflow

/-!
# Working copies in a session

Whatever a session is asked for, the overflows that it leads to spare the working copies of the moment: what
is filed at or below them stays, and the model is not told of an eviction of such an element.

* A **request** is whatever a session can be asked for, or a move of its store; hooks of the model may ask
  for more.
* The moves that requests come to are **careful**, each at the store that the ones before it lead to, and
  the model is told of exactly what they evict (`serve_careful`).
-/

namespace CodeModel

namespace Session

/-! ## Requests -/

/-- What a session can be asked for. -/
inductive Request where
  /-- The body of an element, for its own sake or for the sake of its children or its text. -/
  | openBody (canceled : Bool) (e : Handle)
  /-- Whether an element exists. -/
  | isPresent (e : Handle)
  /-- The element at a position. -/
  | innermostAt (file : Handle) (position : Nat) (base : Option Snapshot)
  /-- An element is to be closed. -/
  | close (e : Handle)
  /-- A file is to become a working copy. -/
  | start (canceled : Bool) (file : Handle) (buffer : BufferId) (callback : Option CallbackId)
  /-- A reference on a working copy. -/
  | acquire (file : Handle)
  /-- The end of a reference on a working copy. -/
  | release (file : Handle)
  /-- A working copy is to follow its buffer. -/
  | reconcile (canceled : Bool) (file : Handle) (force : Bool)
  /-- A listener registers. -/
  | listen (l : ListenerId) (kinds : EventKinds)
  /-- A listener leaves. -/
  | unlisten (l : ListenerId)
  /-- A move of the store. -/
  | move (m : Store.Move)

namespace Request

/-- All handles of the request follow the lexicon. -/
def Follows (lex : Lexicon) : Request → Prop
  | .openBody _ e | .isPresent e | .innermostAt e _ _ | .close e | .start _ e _ _ | .acquire e | .release e
  | .reconcile _ e _ => e.Follows lex
  | .listen _ _ | .unlisten _ => True
  | .move m => m.Follows lex

/-- The session after the request, whether it failed or not. -/
def perform {σ : Type} (m : Model σ) (s : Session σ) : Request → Session σ
  | .openBody canceled e => ((Session.openBody m canceled e).run s).2
  | .isPresent e => ((Session.isPresent m e).run s).2
  | .innermostAt file position base => ((Session.innermostAt m file position base).run s).2
  | .close e => ((Session.close m e).run s).2
  | .start canceled file buffer callback => ((startWorkingCopy m canceled file buffer callback).run s).2
  | .acquire file => (acquireWorkingCopy m file s).2
  | .release file => ((releaseWorkingCopy m file).run s).2
  | .reconcile canceled file force => ((Session.reconcile m canceled file force).run s).2
  | .listen l kinds => (Session.listen l kinds s).2
  | .unlisten l => (Session.unlisten l s).2
  | .move mv => (evicting m mv.make s).2

end Request

/-- The session after requests, one after the other. -/
def serve {σ : Type} (m : Model σ) (rs : List Request) (s : Session σ) : Session σ :=
  rs.foldl (Request.perform m) s

variable {σ : Type} {m : Model σ} {lex : Lexicon} {told : σ → List Handle} {s : Session σ} {r : Request}
  {rs : List Request}

/-- **A request** comes to moves, and their evictions are told, whichever it is: for each of them this was shown of
the operation that serves it. -/
theorem along_perform (hm : m.Accounts lex told) (hr : r.Follows lex) (hs : s.store.Guarded lex) :
    Along lex told [] s (r.perform m s) := by
  cases r with
  | openBody canceled e => exact (hm.accounts_openBody canceled hr s hs).1
  | isPresent e => exact (hm.accounts_isPresent hr s hs).1
  | innermostAt file position base => exact (hm.accounts_innermostAt hr position base s hs).1
  | close e => exact (hm.accounts_close hr s hs).1
  | start canceled file buffer callback =>
    exact (hm.accounts_startWorkingCopy canceled hr buffer callback s hs).1
  | acquire file => exact (hm.accounts_acquireWorkingCopy file s hs).1
  | release file => exact (hm.accounts_releaseWorkingCopy hr s hs).1
  | reconcile canceled file force => exact (hm.accounts_reconcile canceled hr force s hs).1
  | listen l kinds => exact .refl s
  | unlisten l => exact .refl s
  | move mv => exact hm.along_overflow hs (Store.leads_make hr s.store)

/-- **Requests** come to moves, and their evictions are told, by induction on the requests: each of them leaves a
guarded store to the next one. -/
theorem along_serve (hm : m.Accounts lex told) (hrs : ∀ r ∈ rs, r.Follows lex) (hs : s.store.Guarded lex) :
    Along lex told [] s (serve m rs s) := by
  induction rs generalizing s with
  | nil => exact .refl s
  | cons r rs ih =>
    have hr := along_perform hm (hrs r (List.mem_cons_self ..)) hs
    exact hr.trans (ih (fun q hq => hrs q (List.mem_cons_of_mem _ hq)) (hr.guarded hs))

/-- On the way from `s` to `t` no overflow costs a working copy. -/
structure Careful (lex : Lexicon) (told : σ → List Handle) (s t : Session σ) : Prop where
  /-- what happens to the store comes to moves that spare the working copies, and the model is told of what
  these evict and of nothing else -/
  moves : ∃ ms : List Store.Move, t.store = Store.run ms s.store ∧
    (told t.world).Perm (told s.world ++ Store.evictedBy ms s.store) ∧
    ∀ before m after, ms = before ++ m :: after →
      m.Follows lex ∧ m.Careful lex (Store.run before s.store)
  /-- all further moves would spare them as well -/
  further : ∀ m : Store.Move, m.Follows lex → m.Careful lex t.store

/-- **Working copies are not lost to overflow**, whatever a new session is asked for. A new session is guarded,
moves keep it so, and an overflow of a guarded store spares its working copies; and the moves that requests come to
are the ones whose evictions the model is told of. -/
theorem serve_careful (hm : m.Accounts lex told) (hrs : ∀ r ∈ rs, r.Follows lex) (config : Config) (world : σ)
    (arrangement : Arrangement) :
    let s := Session.new config world arrangement
    Careful lex told s (serve m rs s) := by
  intro s
  have hnew : s.store.Guarded lex :=
    Store.guarded_new config.cacheSize config.loadFactor [] arrangement
  have halong : Along lex told [] s (serve m rs s) := along_serve hm hrs hnew
  refine ⟨?_, fun mv hmv => (halong.guarded hnew).careful hmv⟩
  obtain ⟨evicted, ⟨ms, hms, hstore, rfl⟩, htold⟩ := halong
  rw [List.append_nil] at htold
  refine ⟨ms, hstore, htold, ?_⟩
  intro before mv after hsplit
  have hmv : mv ∈ ms := hsplit ▸ List.mem_append_right _ (List.mem_cons_self ..)
  exact ⟨hms mv hmv, hnew.careful_run hms hsplit⟩

/-! ## Three files -/

namespace Files

/-- Files are openable and nothing else is. -/
def kinds : Lexicon := fun name => { name, openable := name == "file" }

/-- A file on its own. -/
def file (name : String) : Handle := Handle.top (kinds "file") (some name)

/-- What a file consists of. -/
def part (file : Handle) : Handle := file.sub (kinds "part") "part"

/-- Every file has one part. The evictions that the model is told of are all it knows. -/
def model : Model (List Handle) where
  validate _ _ := .ok ()
  build e _ := do
    putBody e { children := [part e] }
    putBody (part e) {}
  onClose e
    | .evicted => modify fun s => { s with world := s.world ++ [e] }
    | .closed => return ()

theorem follows_part {e : Handle} (he : e.Follows kinds) : (part e).Follows kinds := ⟨he, rfl⟩

theorem accounts_putBody {e : Handle} {b : Body} (he : e.Follows kinds) (hb : b.Follows kinds) :
    (putBody e b : Op (List Handle) Unit).Accounts kinds id fun _ => True :=
  Op.accounts_modifyStore fun s _ => Store.leads_make (m := .record e b) ⟨he, hb⟩ s

theorem accounts_model : model.Accounts kinds id where
  build e snapshot he := by
    have hpart := follows_part he
    have hbody : Body.Follows kinds { children := [part e] } := by simpa [Body.Follows] using hpart
    exact (accounts_putBody he hbody).bind fun _ _ => accounts_putBody hpart (by decide)
  onInit callback copy := Op.accounts_pure trivial
  onEvicted e s _ _ := ⟨[], .refl s.store, by rw [List.append_nil]; exact .refl _⟩
  onClosed e _ := Action.accounts_pure trivial
  onDispose callback copy := Action.accounts_pure trivial
  onReconcile callback copy delta := Action.accounts_pure trivial
  onEvent l event := Action.accounts_pure trivial

/-- Of three files that are opened the second one is a working copy; then there is room for one body. -/
def requests : List Request :=
  [.openBody false (part (file "a")), .move (.aside [⟨0, [], 0, 0⟩] [] []), .start false (file "b") 0 none,
    .openBody false (part (file "c")), .move (.setCapacity 1)]

/-- No room is made for children. -/
def settings : Config := { childHeadroom := false }

/-- The session that the requests lead to. -/
def outcome : Session (List Handle) := serve model requests (Session.new settings [])

end Files

open Files in
/-- The working copy stays, with all it consists of, while files beside it come and go. -/
theorem serve_careful_three_files :
    model.Accounts kinds id ∧ (∀ r ∈ requests, r.Follows kinds) ∧
    outcome.world = [file "a", part (file "a"), file "c", part (file "c")] ∧
    Table.keys outcome.store.cache.entries = [part (file "b"), file "b"] ∧
    Careful kinds id (Session.new settings []) outcome := by
  have hrs : ∀ r ∈ requests, r.Follows kinds := by
    have hhandles : (part (file "a")).Follows kinds ∧ (file "b").Follows kinds ∧
        (part (file "c")).Follows kinds := by decide
    simpa [requests, Request.Follows, Store.Move.Follows] using hhandles
  refine ⟨accounts_model, hrs, ?_, ?_, serve_careful accounts_model hrs settings [] .asBuilt⟩ <;> decide +kernel

end Session

end CodeModel
