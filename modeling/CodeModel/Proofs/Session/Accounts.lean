import CodeModel.Proofs.Store.Trail
import CodeModel.Session.WorkingCopy

/-!
# Accounts of evictions

Whatever a session does to its store comes to moves, and its model is told of the evictions.

* The world of a model takes down of which evictions it was **told**. Hooks may ask the session for more,
  so one overflow may happen while evictions of another are still to be told.
* An operation **accounts** for itself if, from a guarded store, it only makes moves that follow the
  lexicon, and all evictions on the way are told in the end. It may fail; its answer, if it has one, has a
  property.
* If the hooks of a model account for themselves, then so do opening elements, closing them, and all that
  working copies live through (`accounts_openBody`, `accounts_close`, `accounts_startWorkingCopy`,
  `accounts_reconcile`).
-/

namespace CodeModel

variable {σ α β : Type} {lex : Lexicon} {told : σ → List Handle}

namespace Session

/-- Moves that follow the lexicon lead from `s` to `t`, and the model was told of what they evict and of the
evictions that were owed. What is owed lets a proof stand in the middle of an overflow, after the store has evicted
and before the model has been told. -/
def Along (lex : Lexicon) (told : σ → List Handle) (owed : List Handle) (s t : Session σ) : Prop :=
  ∃ evicted, Store.Leads lex evicted s.store t.store ∧
    (told t.world).Perm (told s.world ++ owed ++ evicted)

variable {s t u : Session σ} {owed owed' : List Handle}

theorem Along.refl (s : Session σ) : Along lex told [] s s := ⟨[], .refl s.store, by simp⟩

/-- What was owed twice is owed in sum; being told is counted up to order, since hooks may evict in between. -/
theorem Along.trans (h : Along lex told owed s t) (h' : Along lex told owed' t u) :
    Along lex told (owed ++ owed') s u := by
  obtain ⟨evicted, hlead, htold⟩ := h
  obtain ⟨evicted', hlead', htold'⟩ := h'
  refine ⟨evicted ++ evicted', hlead.trans hlead', ?_⟩
  -- what is owed may be told after evictions that happen meanwhile
  refine (htold'.trans ((htold.append_right owed').append_right evicted')).trans ?_
  simp only [List.append_assoc]
  exact ((List.perm_append_comm_assoc ..).append_left _).append_left _

theorem Along.guarded (h : Along lex told owed s t) (hs : s.store.Guarded lex) : t.store.Guarded lex := by
  obtain ⟨evicted, hlead, -⟩ := h
  exact hlead.guarded hs

theorem Along.of_store {store : Store} (h : Store.Leads lex [] s.store store) :
    Along lex told [] s { s with store } := ⟨[], h, by simp⟩

/-- A step on the store, after which its evictions are told. What was still to be told is told now, and nothing
remains to be told. -/
theorem Along.overflow {evicted : List Handle} {store : Store}
    (h : Store.Leads lex evicted s.store store) (h' : Along lex told evicted { s with store } t) :
    Along lex told [] s t := by
  obtain ⟨evicted', hlead', htold'⟩ := h'
  refine ⟨evicted ++ evicted', h.trans hlead', htold'.trans ?_⟩
  simp

end Session

open Session

/-! ## Operations that account for themselves -/

/-- From a guarded store, the operation makes moves that follow the lexicon, what they evict is told, and the
answer, if there is one, has the property. The rules that follow are those of a program logic: one for each way of
putting operations together. -/
def Op.Accounts (lex : Lexicon) (told : σ → List Handle) (P : α → Prop) (x : Op σ α) : Prop :=
  ∀ s : Session σ, s.store.Guarded lex →
    Along lex told [] s (x.run s).2 ∧ ∀ a, (x.run s).1 = .ok a → P a

/-- The same of an action, which always has an answer. -/
def Action.Accounts (lex : Lexicon) (told : σ → List Handle) (P : α → Prop) (x : Action σ α) : Prop :=
  ∀ s : Session σ, s.store.Guarded lex → Along lex told [] s (x s).2 ∧ P (x s).1

namespace Action

variable {P : α → Prop} {Q : β → Prop}

theorem accounts_pure {a : α} (ha : P a) : Accounts lex told P (pure a : Action σ α) :=
  fun s _ => ⟨.refl s, ha⟩

/-- **A sequence** accounts for itself if its parts do, the second one for whatever the first one answers. -/
theorem Accounts.bind {x : Action σ α} {f : α → Action σ β} (hx : Accounts lex told P x)
    (hf : ∀ a, P a → Accounts lex told Q (f a)) : Accounts lex told Q (x >>= f) := by
  intro s hs
  obtain ⟨halong, ha⟩ := hx s hs
  obtain ⟨halong', hb⟩ := hf _ ha _ (halong.guarded hs)
  exact ⟨halong.trans halong', hb⟩

/-- A function on the store accounts for itself if it evicts nothing. -/
theorem accounts_onStore {f : Store → α × Store}
    (h : ∀ s, s.Guarded lex → Store.Leads lex [] s (f s).2 ∧ P (f s).1) :
    Accounts lex told P (onStore f : Action σ α) :=
  fun s hs => ⟨.of_store (h s.store hs).1, (h s.store hs).2⟩

theorem accounts_ask (f : Store → α) : Accounts lex told (fun _ => True) (ask f : Action σ α) :=
  accounts_onStore fun s _ => ⟨.refl s, trivial⟩

theorem accounts_forM {l : List α} {f : α → Action σ Unit}
    (h : ∀ a ∈ l, Accounts lex told (fun _ => True) (f a)) :
    Accounts lex told (fun _ => True) (l.forM f) := by
  induction l with
  | nil => exact accounts_pure trivial
  | cons a l ih =>
    exact (h a (List.mem_cons_self ..)).bind fun _ _ => ih fun b hb => h b (List.mem_cons_of_mem _ hb)

end Action

namespace Op

variable {P : α → Prop} {Q : β → Prop}

theorem accounts_pure {a : α} (ha : P a) : Accounts lex told P (pure a : Op σ α) :=
  fun s _ => ⟨.refl s, fun _ h => Except.ok.inj h ▸ ha⟩

theorem accounts_throw (error : Error) : Accounts lex told P (throw error : Op σ α) :=
  fun s _ => ⟨.refl s, fun _ h => nomatch h⟩

theorem Accounts.unless {c : Bool} {x : Op σ α} (h : Accounts lex told P x) (error : Error) :
    Accounts lex told P (do
      if c then throw error
      x) := by
  cases c with
  | true => exact fun s _ => ⟨.refl s, fun _ h => nomatch h⟩
  | false => exact h

theorem Accounts.bind {x : Op σ α} {f : α → Op σ β} (hx : Accounts lex told P x)
    (hf : ∀ a, P a → Accounts lex told Q (f a)) : Accounts lex told Q (x >>= f) := by
  intro s hs
  obtain ⟨halong, ha⟩ := hx s hs
  rw [run_bind]
  rcases hrun : x.run s with ⟨error | a, t⟩ <;> rw [hrun] at halong ha
  · exact ⟨halong, fun _ h => nomatch h⟩
  · obtain ⟨halong', hb⟩ := hf a (ha a rfl) t (halong.guarded hs)
    exact ⟨halong.trans halong', hb⟩

theorem accounts_tryStore {f : Store → Except Error α × Store}
    (h : ∀ s, s.Guarded lex → Store.Leads lex [] s (f s).2 ∧ ∀ a, (f s).1 = .ok a → P a) :
    Accounts lex told P (tryStore f : Op σ α) :=
  fun s hs => ⟨.of_store (h s.store hs).1, (h s.store hs).2⟩

theorem accounts_liftM {x : Action σ α} (h : Action.Accounts lex told P x) :
    Accounts lex told P (liftM x : Op σ α) := by
  intro s hs
  obtain ⟨halong, ha⟩ := h s hs
  exact ⟨halong, fun _ h => Except.ok.inj h ▸ ha⟩

theorem accounts_onStore {f : Store → α × Store}
    (h : ∀ s, s.Guarded lex → Store.Leads lex [] s (f s).2 ∧ P (f s).1) :
    Accounts lex told P (onStore f : Op σ α) := accounts_liftM (Action.accounts_onStore h)

theorem accounts_ask (f : Store → α) : Accounts lex told (fun _ => True) (ask f : Op σ α) :=
  accounts_liftM (Action.accounts_ask f)

theorem accounts_modifyStore {f : Store → Store} (h : ∀ s, s.Guarded lex → Store.Leads lex [] s (f s)) :
    Accounts lex told (fun _ => True) (modifyStore f : Op σ Unit) :=
  accounts_onStore fun s hs => ⟨h s hs, trivial⟩

theorem accounts_get : Accounts lex told (fun _ => True) (get : Op σ (Session σ)) :=
  fun s _ => ⟨.refl s, fun _ _ => trivial⟩

theorem Accounts.attempt {x : Op σ α} (h : Accounts lex told P x) :
    Action.Accounts lex told (fun r => ∀ a, r = .ok a → P a) x.attempt := h

/-- A claim that is given back changes nothing in the account, since claims are neither bodies nor pins. -/
theorem Accounts.holding {x : Op σ α} (h : Accounts lex told P x) (e : Handle) :
    Accounts lex told P (holding e x) := by
  intro s hs
  obtain ⟨halong, ha⟩ := h s hs
  have hunclaim := (Store.beside_unclaim (x.run s).2.store e).leads (halong.guarded hs)
  exact ⟨halong.trans (.of_store hunclaim), ha⟩

end Op

/-! ## Models that account for themselves -/

/-- The hooks of the model account for themselves, and its world takes down the evictions it is told of. Hooks may
ask the session for more, as long as that is accounted for as well. -/
structure Model.Accounts (m : Model σ) (lex : Lexicon) (told : σ → List Handle) : Prop where
  /-- builds of elements that follow the lexicon -/
  build : ∀ e snapshot, e.Follows lex → (m.build e snapshot).Accounts lex told fun _ => True
  /-- the callback of a working copy that has its first structure -/
  onInit : ∀ callback id, (m.onInit callback id).Accounts lex told fun _ => True
  /-- an eviction is taken down -/
  onEvicted : ∀ e s, e.Follows lex → s.store.Guarded lex → Along lex told [e] s (m.onClose e .evicted s).2
  /-- what is done when an element is closed -/
  onClosed : ∀ e, e.Follows lex → Action.Accounts lex told (fun _ => True) (m.onClose e .closed)
  /-- the callback of a working copy that ends -/
  onDispose : ∀ callback id, Action.Accounts lex told (fun _ => True) (m.onDispose callback id)
  /-- the callback of a working copy that was reconciled -/
  onReconcile : ∀ callback id delta, Action.Accounts lex told (fun _ => True) (m.onReconcile callback id delta)
  /-- listeners -/
  onEvent : ∀ l event, Action.Accounts lex told (fun _ => True) (m.onEvent l event)

namespace Model.Accounts

variable {m : Model σ} {canceled : Bool} {e file owner : Handle} (hm : m.Accounts lex told)

include hm

/-! ### Evictions -/

theorem along_forM_onClose {evicted : Evicted} {s : Session σ} (hs : s.store.Guarded lex)
    (hf : ∀ p ∈ evicted, p.1.Follows lex) :
    Along lex told (evicted.map Prod.fst) s
      ((evicted.forM fun p => m.onClose p.1 .evicted : Action σ Unit) s).2 := by
  induction evicted generalizing s with
  | nil => exact .refl s
  | cons p evicted ih =>
    -- the hook may lead to overflows of its own, whose evictions are told before the rest of these
    have hp := hm.onEvicted p.1 s (hf p (List.mem_cons_self ..)) hs
    exact hp.trans (ih (hp.guarded hs) fun q hq => hf q (List.mem_cons_of_mem _ hq))

/-- **An overflow** whose evictions are told, one after the other. While one of them is told the model may ask for
more, and what comes of that is told in between. -/
theorem along_overflow {evicted : Evicted} {s : Session σ} {store : Store} (hs : s.store.Guarded lex)
    (h : Store.Leads lex (evicted.map Prod.fst) s.store store) :
    Along lex told [] s
      ((evicted.forM fun p => m.onClose p.1 .evicted : Action σ Unit) { s with store }).2 := by
  have hf : ∀ p ∈ evicted, p.1.Follows lex := fun p hp => h.follows hs p.1 (List.mem_map_of_mem hp)
  exact .overflow h (hm.along_forM_onClose (h.guarded hs) hf)

theorem accounts_evicting {f : Store → Evicted × Store}
    (h : ∀ s, s.Guarded lex → Store.Leads lex ((f s).1.map Prod.fst) s (f s).2) :
    Action.Accounts lex told (fun _ => True) (evicting m f) :=
  fun s hs => ⟨hm.along_overflow hs (h s.store hs), trivial⟩

theorem accounts_commit {bodies : Table Body} (he : e.Follows lex) (hb : Table.Lawful lex bodies) :
    Action.Accounts lex told (fun _ => True) (evicting m (·.commit e bodies)) :=
  hm.accounts_evicting fun s _ => Store.leads_make (m := .commit e bodies) ⟨he, hb⟩ s

/-! ### Builds -/

/-- **A build** makes a lawful table: what goes into a draft follows the lexicon, and a draft has one body for each
element. -/
theorem accounts_inDraft (he : e.Follows lex) (snapshot : Option Snapshot) :
    (inDraft (m.build e snapshot)).Accounts lex told (Table.Lawful lex) := by
  have hpush : (modifyStore (·.pushDraft {}) : Op σ Unit).Accounts lex told fun _ => True :=
    Op.accounts_modifyStore fun s _ => Store.leads_make (m := .push {}) Table.lawful_nil s
  refine hpush.bind fun _ _ => ?_
  refine (Op.accounts_liftM (hm.build e snapshot he).attempt).bind fun result _ => ?_
  have hpop : (tryStore Store.popDraft : Op σ Draft).Accounts lex told fun d => Table.Lawful lex d.bodies :=
    Op.accounts_tryStore fun s hs => ⟨Store.leads_popDraft s, fun _ hd => hs.lawful_popDraft hd⟩
  refine hpop.bind fun draft hdraft => ?_
  rcases result with error | _
  · exact Op.accounts_throw error
  · dsimp only
    split
    · exact Op.accounts_throw _
    · exact Op.accounts_pure hdraft

theorem accounts_buildBodies (canceled : Bool) (he : e.Follows lex) (snapshot : Option Snapshot) :
    (buildBodies m canceled e snapshot).Accounts lex told (Table.Lawful lex) := by
  have hvalidate : (Session.validate m e).Accounts lex told fun _ => True :=
    fun s _ => ⟨.refl s, fun _ _ => trivial⟩
  have hrest : Op.Accounts lex told (Table.Lawful lex) (do
      if snapshot.isNone then Session.validate m e
      inDraft (m.build e snapshot)) := by
    split
    · exact hvalidate.bind fun _ _ => hm.accounts_inDraft he snapshot
    · exact hm.accounts_inDraft he snapshot
  exact hrest.unless .canceled

omit hm in
theorem accounts_bodyIn {bodies : Table Body} (hb : Table.Lawful lex bodies) (e : Handle) :
    (bodyIn bodies e : Op σ Body).Accounts lex told (Body.Follows lex) := by
  rw [bodyIn]
  split
  · next b hget => exact Op.accounts_pure (hb.get? hget)
  · exact Op.accounts_throw _

omit hm in
theorem accounts_get? (he : e.Follows lex) :
    (onStore (·.get? e) : Op σ (Option Body)).Accounts lex told fun b? => ∀ b ∈ b?, b.Follows lex :=
  Op.accounts_onStore fun s hs => ⟨Store.leads_get? he s, fun _ hb => hs.follows_get? hb⟩

omit hm in
theorem accounts_raiseCapacity (he : e.Follows lex) (n : Nat) :
    (modifyStore (·.raiseCapacity n e) : Op σ Unit).Accounts lex told fun _ => True :=
  Op.accounts_modifyStore fun s _ => Store.leads_make (m := .raise n e) he s

theorem accounts_commitIfAbsent {bodies : Table Body} {b : Body} (he : e.Follows lex)
    (hbodies : Table.Lawful lex bodies) (hb : b.Follows lex) :
    Op.Accounts lex told (Body.Follows lex) (do
      let (existing, evicted) ← onStore fun s =>
        let (existing, evicted, s) := s.commitIfAbsent e bodies
        ((existing, evicted), s)
      evicted.forM fun p => (m.onClose p.1 .evicted : Action σ Unit)
      return existing.getD b) := by
  intro s hs
  have hbody : (((s.store.commitIfAbsent e bodies).1.getD b).Follows lex) := by
    rcases hex : (s.store.commitIfAbsent e bodies).1 with _ | b'
    · exact hb
    · exact hs.follows_commitIfAbsent hex
  have halong := hm.along_overflow hs (Store.leads_commitIfAbsent he hbodies s.store)
  simp only [Op.run_bind, run_onStore, Op.run_forM_lift, Op.run_pure]
  exact ⟨halong, fun _ h => Except.ok.inj h ▸ hbody⟩

theorem accounts_buildFresh (canceled : Bool) (he : e.Follows lex) :
    (buildFresh m canceled e).Accounts lex told (Body.Follows lex) := by
  refine (Op.accounts_ask _).bind fun snapshot _ => ?_
  refine (hm.accounts_buildBodies canceled he snapshot).bind fun bodies hbodies => ?_
  refine (accounts_bodyIn hbodies e).bind fun b hb => ?_
  refine Op.accounts_get.bind fun s _ => ?_
  dsimp only
  split
  · exact (accounts_raiseCapacity he _).bind fun _ _ => hm.accounts_commitIfAbsent he hbodies hb
  · exact hm.accounts_commitIfAbsent he hbodies hb

theorem accounts_openFresh (canceled : Bool) (he : e.Follows lex) :
    (openFresh m canceled e).Accounts lex told (Body.Follows lex) := by
  have hclaim : (tryStore (·.claim e) : Op σ Store.Claim).Accounts lex told fun claim =>
      ∀ b, claim = .existing b → b.Follows lex := by
    apply Op.accounts_tryStore
    intro s hs
    refine ⟨Store.leads_claim he hs, ?_⟩
    rintro claim hclaim b rfl
    exact hs.follows_claim hclaim
  refine hclaim.bind fun claim hb => ?_
  rcases claim with b | _
  · exact Op.accounts_pure (hb b rfl)
  · exact (hm.accounts_buildFresh canceled he).holding e

theorem accounts_buildAgain {ownerBody : Body} (canceled : Bool) (ho : owner.Follows lex) (he : e.Follows lex) :
    (buildAgain m canceled owner ownerBody e).Accounts lex told (Body.Follows lex) := by
  refine (accounts_get? he).bind fun b? hb => ?_
  rcases b? with _ | b
  · refine (accounts_get? ho).bind fun ownerBody? _ => ?_
    refine (Op.accounts_ask _).bind fun snapshot _ => ?_
    refine (hm.accounts_buildBodies canceled ho _).bind fun bodies hbodies => ?_
    refine (accounts_bodyIn hbodies e).bind fun b hb => ?_
    refine (Op.accounts_liftM (hm.accounts_commit ho hbodies)).bind fun _ _ => ?_
    exact Op.accounts_pure hb
  · exact Op.accounts_pure (hb b rfl)

theorem accounts_openOwned {ownerBody : Body} (canceled : Bool) (ho : owner.Follows lex) (he : e.Follows lex) :
    (openOwned m canceled owner ownerBody e).Accounts lex told (Body.Follows lex) := by
  refine (accounts_get? he).bind fun b? hb => ?_
  rcases b? with _ | b
  · have hclaim : (tryStore (·.claimAgain owner) : Op σ Unit).Accounts lex told fun _ => True :=
      Op.accounts_tryStore fun s hs => ⟨(Store.beside_claimAgain s owner).leads hs, fun _ _ => trivial⟩
    exact hclaim.bind fun _ _ => (hm.accounts_buildAgain canceled ho he).holding owner
  · exact Op.accounts_pure (hb b rfl)

/-- **Opening** an element, by induction on its depth: its parent or its owner may have to be opened before it, and
each of these may evict something. -/
theorem accounts_openBody (canceled : Bool) {e : Handle} (he : e.Follows lex) :
    (openBody m canceled e).Accounts lex told (Body.Follows lex) := by
  -- like opening itself, the proof goes up the chain of ancestors
  rw [openBody]
  refine (accounts_get? he).bind fun b? hb => ?_
  rcases b? with _ | b
  · dsimp only
    split
    · split
      · exact hm.accounts_openFresh canceled he
      · next p hp =>
        refine (Op.accounts_ask _).bind fun cached _ => ?_
        split
        · exact hm.accounts_openFresh canceled he
        · have hdepth : p.depth < e.depth := Handle.parent?_depth_lt hp
          refine (accounts_openBody canceled (he.parent hp)).bind fun _ _ => ?_
          refine (accounts_get? he).bind fun b? hb => ?_
          rcases b? with _ | b
          · exact hm.accounts_openFresh canceled he
          · exact Op.accounts_pure (hb b rfl)
    · next hclosed =>
      split
      · exact Op.accounts_throw _
      · next owner ho =>
        have hdepth : owner.depth < e.depth := Handle.owner?_depth_lt (by simpa using hclosed) ho
        refine (accounts_openBody canceled (he.owner ho)).bind fun ownerBody _ => ?_
        exact hm.accounts_openOwned canceled (he.owner ho) he
  · exact Op.accounts_pure (hb b rfl)
termination_by e.depth

/-! ### Queries -/

theorem accounts_isPresent (he : e.Follows lex) : (isPresent m e).Accounts lex told fun _ => True := by
  refine (Op.accounts_ask _).bind fun cached _ => ?_
  split
  · exact Op.accounts_pure trivial
  · refine (Op.accounts_liftM (hm.accounts_openBody false he).attempt).bind fun result _ => ?_
    rcases result with error | b
    · dsimp only
      split
      · exact Op.accounts_pure trivial
      · exact Op.accounts_throw error
    · exact Op.accounts_pure trivial

theorem accounts_firstCovering (position : Nat) {cs : List Handle} (hcs : ∀ c ∈ cs, c.Follows lex) :
    (firstCovering m position cs).Accounts lex told fun r =>
      ∀ p ∈ r, p.2.Follows lex := by
  induction cs with
  | nil => exact Op.accounts_pure (by simp)
  | cons c cs ih =>
    refine (hm.accounts_openBody false (hcs c (List.mem_cons_self ..))).bind fun b hb => ?_
    split
    · exact Op.accounts_pure fun p hp => Option.some.inj hp ▸ hb
    · exact ih fun c' hc' => hcs c' (List.mem_cons_of_mem _ hc')

theorem accounts_descend (position fuel : Nat) {e : Handle} {b : Body} (hb : b.Follows lex) :
    (descend m position fuel e b).Accounts lex told fun _ => True := by
  induction fuel generalizing e b with
  | zero => exact Op.accounts_pure trivial
  | succ fuel ih =>
    refine (hm.accounts_firstCovering position hb).bind fun r hr => ?_
    rcases r with _ | ⟨c, cb⟩
    · exact Op.accounts_pure trivial
    · exact ih (hr _ rfl)

theorem accounts_innermostAt (he : file.Follows lex) (position : Nat) (base : Option Snapshot) :
    (innermostAt m file position base).Accounts lex told fun _ => True := by
  refine (hm.accounts_openBody false he).bind fun b hb => ?_
  rcases b.source with _ | source
  · exact Op.accounts_pure trivial
  · have hrest : Op.Accounts lex told (fun _ => True) (do
        if source.covers position then return some (← descend m position maxLevels file b)
        else return none) := by
      split
      · exact (hm.accounts_descend position maxLevels hb).bind fun _ _ => Op.accounts_pure trivial
      · exact Op.accounts_pure trivial
    exact hrest.unless .staleSnapshot

/-- **Closing** an element takes its tree out and may bring the capacity back, which is an overflow. -/
theorem accounts_close (he : e.Follows lex) : (close m e).Accounts lex told fun _ => True := by
  have hrest : Op.Accounts lex told (fun _ => True) (do
      let removed ← onStore (·.eraseTree e)
      let size := (← get).config.cacheSize
      evicting m (·.lowerCapacity size e)
      if !removed.isEmpty then m.onClose e .closed : Op σ Unit) := by
    have herase : (onStore (·.eraseTree e) : Op σ (List Handle)).Accounts lex told fun _ => True :=
      Op.accounts_onStore fun s _ => ⟨Store.leads_make (m := .eraseTree e) he s, trivial⟩
    refine herase.bind fun removed _ => ?_
    refine Op.accounts_get.bind fun s _ => ?_
    have hlower : Action.Accounts lex told (fun _ => True)
        (evicting m (·.lowerCapacity s.config.cacheSize e)) :=
      hm.accounts_evicting fun t _ => Store.leads_make (m := .lower s.config.cacheSize e) he t
    refine (Op.accounts_liftM hlower).bind fun _ _ => ?_
    split
    · exact Op.accounts_liftM (hm.onClosed e he)
    · exact Op.accounts_pure trivial
  rw [close]
  split
  · refine (Op.accounts_ask _).bind fun copy _ => ?_
    exact hrest.unless (.illegalState (.closingWorkingCopy e))
  · exact Op.accounts_pure trivial

/-! ### Working copies -/

omit hm in
theorem accounts_withCallback {f : CallbackId → Action σ Unit} (id : CopyId)
    (hf : ∀ callback, Action.Accounts lex told (fun _ => True) (f callback)) :
    Action.Accounts lex told (fun _ => True) (withCallback id f) := by
  refine (Action.accounts_ask _).bind fun c _ => ?_
  split
  · exact hf _
  · exact Action.accounts_pure trivial

theorem accounts_announce (r : Store.Release) : Action.Accounts lex told (fun _ => True) (announce m r) := by
  rcases r with _ | ⟨id, _ | _⟩
  · exact Action.accounts_pure trivial
  · exact Action.accounts_pure trivial
  · exact accounts_withCallback id fun callback => hm.onDispose callback id

theorem accounts_fire (event : Event) : Action.Accounts lex told (fun _ => True) (fire m event) :=
  fun s hs => Action.accounts_forM (fun l _ => hm.onEvent l event) s hs

omit hm in
theorem accounts_isValid (e : Handle) : Action.Accounts lex told (fun _ => True) (isValid m e) :=
  fun s _ => ⟨.refl s, trivial⟩

omit hm in
theorem accounts_modifyCopy (id : CopyId) (f : WorkingCopy → WorkingCopy)
    (hf : ∀ c, (f c).element = c.element) :
    (modifyStore (·.modifyCopy id f) : Op σ Unit).Accounts lex told fun _ => True :=
  Op.accounts_modifyStore fun s hs => (Store.beside_modifyCopy s id f hf).leads hs

omit hm in
/-- The version that a structure was built from is noted. -/
theorem accounts_dated (id : CopyId) (version : Option Nat) :
    (modifyStore (·.modifyCopy id fun c => { c with reconciled := version }) : Op σ Unit).Accounts lex told
      fun _ => True := accounts_modifyCopy id _ fun _ => rfl

/-- **Setting up** a working copy builds it, commits the build and asks its callback. -/
theorem accounts_setUp (canceled : Bool) (id : CopyId) (he : file.Follows lex) :
    (setUp m canceled id file).Accounts lex told fun _ => True := by
  refine (Op.accounts_ask _).bind fun snapshot _ => ?_
  refine (hm.accounts_buildBodies canceled he snapshot).bind fun bodies hbodies => ?_
  apply Op.Accounts.unless
  refine (Op.accounts_liftM (hm.accounts_commit he hbodies)).bind fun _ _ => ?_
  refine (accounts_dated id _).bind fun _ _ => ?_
  refine (Op.accounts_ask _).bind fun c _ => ?_
  rcases c.bind WorkingCopy.callback with _ | callback
  · exact Op.accounts_pure trivial
  · exact hm.onInit callback id

omit hm in
theorem accounts_releaseStray (id : CopyId) :
    (tryStore (·.releaseStray id) : Op σ Store.Release).Accounts lex told fun _ => True :=
  Op.accounts_tryStore fun s hs => ⟨(Store.beside_releaseStray s id).leads hs, fun _ _ => trivial⟩

omit hm in
/-- The registration of a working copy that could not be set up is taken back. -/
theorem accounts_discard (id : CopyId) :
    (modifyStore fun s => (s.discard id).modifyCopy id fun c => { c with init := .failed } :
      Op σ Unit).Accounts lex told fun _ => True := by
  apply Op.accounts_modifyStore
  intro s hs
  have hdiscard := Store.leads_discard hs id
  have hfail : Store.Beside lex (s.discard id) ((s.discard id).modifyCopy id fun c => { c with init := .failed }) :=
    Store.beside_modifyCopy _ id _ fun _ => rfl
  exact hdiscard.trans (hfail.leads (hdiscard.guarded hs))

/-- **Becoming** a working copy: a registration, a set-up, and what is done when that fails. -/
theorem accounts_startWorkingCopy (canceled : Bool) (he : file.Follows lex) (buffer : BufferId)
    (callback : Option CallbackId) :
    (startWorkingCopy m canceled file buffer callback).Accounts lex told fun _ => True := by
  rw [startWorkingCopy]
  by_cases hopen : file.openable = true
  · simp only [hopen, Bool.not_true, Bool.false_eq_true, if_false]
    refine (Op.accounts_ask _).bind fun cached _ => ?_
    refine (Op.accounts_liftM (accounts_isValid file)).bind fun valid _ => ?_
    have hregister : (onStore fun s =>
        (((s.register file buffer callback).1, (s.register file buffer callback).2.1),
          (s.register file buffer callback).2.2) : Op σ (CopyId × Bool)).Accounts lex told fun _ => True :=
      Op.accounts_onStore fun s hs => ⟨Store.leads_register he hopen hs buffer callback, trivial⟩
    refine hregister.bind fun r _ => ?_
    obtain ⟨id, _ | _⟩ := r
    · -- another reference on a working copy that may not be usable yet
      refine (Op.accounts_ask _).bind fun c _ => ?_
      split
      · exact Op.accounts_pure trivial
      · refine (accounts_releaseStray id).bind fun released _ => ?_
        refine (Op.accounts_liftM (hm.accounts_announce released)).bind fun _ _ => ?_
        exact (Op.accounts_throw (P := fun _ => False) _).bind fun _ h => h.elim
    · refine (Op.accounts_liftM (hm.accounts_setUp canceled id he).attempt).bind fun result _ => ?_
      rcases result with error | _
      · refine (accounts_discard id).bind fun _ _ => ?_
        refine (accounts_releaseStray id).bind fun released _ => ?_
        refine (Op.accounts_liftM (hm.accounts_announce released)).bind fun _ _ => ?_
        exact Op.accounts_throw error
      · have hready : (modifyStore (·.modifyCopy id fun c => { c with init := .ready }) :
            Op σ Unit).Accounts lex told fun _ => True := accounts_modifyCopy id _ fun _ => rfl
        refine hready.bind fun _ _ => ?_
        refine (Op.accounts_liftM (hm.accounts_fire _)).bind fun _ _ => ?_
        exact Op.accounts_pure trivial
  · simp only [hopen]
    exact fun s _ => ⟨.refl s, fun _ h => nomatch h⟩

/-- **Releasing** a working copy: with the last reference its tree is taken out, and its callback and listeners are
told. -/
theorem accounts_releaseWorkingCopy (he : file.Follows lex) :
    (releaseWorkingCopy m file).Accounts lex told fun _ => True := by
  have hrelease : (tryStore (·.release file) : Op σ Store.Release).Accounts lex told fun _ => True :=
    Op.accounts_tryStore fun s hs => ⟨Store.leads_release he hs, fun _ _ => trivial⟩
  refine hrelease.bind fun released _ => ?_
  rcases released with _ | ⟨id, news⟩
  · exact Op.accounts_pure trivial
  · refine (Op.accounts_liftM (hm.accounts_announce _)).bind fun _ _ => ?_
    refine (Op.accounts_liftM (accounts_isValid file)).bind fun remains _ => ?_
    refine (Op.accounts_liftM (hm.accounts_fire _)).bind fun _ _ => ?_
    exact Op.accounts_pure trivial

theorem accounts_acquireWorkingCopy (file : Handle) :
    Action.Accounts lex told (fun _ => True) (acquireWorkingCopy m file) := by
  have hacquire : Action.Accounts lex told (fun _ => True) (onStore (·.acquire file) : Action σ _) :=
    Action.accounts_onStore fun s hs => ⟨(Store.beside_acquire s file).leads hs, trivial⟩
  refine hacquire.bind fun copy _ => ?_
  rcases copy with _ | id
  · exact Action.accounts_pure trivial
  · refine (Action.accounts_ask _).bind fun c _ => ?_
    split
    · exact Action.accounts_pure trivial
    · have hrelease : Action.Accounts lex told (fun _ => True) (onStore (·.releaseStray id) : Action σ _) :=
        Action.accounts_onStore fun s hs => ⟨(Store.beside_releaseStray s id).leads hs, trivial⟩
      refine hrelease.bind fun released _ => ?_
      rcases released with error | released
      · exact Action.accounts_pure trivial
      · exact (hm.accounts_announce released).bind fun _ _ => Action.accounts_pure trivial

theorem accounts_rebuild (canceled : Bool) (id : CopyId) (he : file.Follows lex) (snapshot : Snapshot) :
    (rebuild m canceled id file snapshot).Accounts lex told fun _ => True := by
  refine Op.accounts_get.bind fun s _ => ?_
  refine (Op.accounts_ask _).bind fun recording _ => ?_
  refine (hm.accounts_buildBodies canceled he snapshot).bind fun bodies hbodies => ?_
  refine (Op.accounts_ask _).bind fun ended _ => ?_
  split
  · exact Op.accounts_pure trivial
  · refine (Op.accounts_liftM (hm.accounts_commit he hbodies)).bind fun _ _ => ?_
    refine (Op.accounts_ask _).bind fun new _ => ?_
    split
    · exact Op.accounts_throw _
    · exact (accounts_dated id _).bind fun _ _ => Op.accounts_pure trivial

/-- **Reconciling** a working copy: a build, its commit, and the telling of the differences. -/
theorem accounts_reconcile (canceled : Bool) (he : file.Follows lex) (force : Bool) :
    (reconcile m canceled file force).Accounts lex told fun _ => True := by
  refine (Op.accounts_ask _).bind fun copy _ => ?_
  rcases copy with _ | ⟨id, c⟩
  · exact Op.accounts_pure trivial
  · refine (Op.accounts_ask _).bind fun buffer? _ => ?_
    rcases buffer? with _ | buffer
    · exact Op.accounts_pure trivial
    · dsimp only
      split
      · exact Op.accounts_pure trivial
      · refine (hm.accounts_rebuild canceled id he buffer.snapshot).bind fun delta? _ => ?_
        rcases delta? with _ | delta
        · exact Op.accounts_pure trivial
        · refine (Op.accounts_liftM (accounts_withCallback id fun callback =>
            hm.onReconcile callback id delta)).bind fun _ _ => ?_
          split
          · exact Op.accounts_pure trivial
          · exact (Op.accounts_liftM (hm.accounts_fire _)).bind fun _ _ => Op.accounts_pure trivial

end Model.Accounts

end CodeModel
