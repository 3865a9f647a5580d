import CodeModel.Proofs.Store.Moves

/-!
# What store functions come to

Every function on a store comes to a list of moves, and it tells the entries that these evict.

* One store **leads** to another if moves that follow the lexicon take it there; what they evict is part of
  the statement. This is transitive, and it keeps stores guarded.
* What is done to buffers, references and claims is **beside** the point: it is one move that evicts
  nothing.
-/

namespace CodeModel

namespace Store

variable {lex : Lexicon} {s t u : Store} {e : Handle} {id : CopyId} {evicted evicted' : List Handle}

/-! ## Trails of moves -/

/-- Moves that follow the lexicon lead from `s` to `t`, and evict the listed elements. -/
def Leads (lex : Lexicon) (evicted : List Handle) (s t : Store) : Prop :=
  ∃ ms : List Move, (∀ m ∈ ms, m.Follows lex) ∧ t = run ms s ∧ evicted = evictedBy ms s

theorem Leads.refl (s : Store) : Leads lex [] s s := ⟨[], by simp, rfl, rfl⟩

/-- Moves can be made one after the other; what both parts evict is evicted. -/
theorem Leads.trans (h : Leads lex evicted s t) (h' : Leads lex evicted' t u) :
    Leads lex (evicted ++ evicted') s u := by
  obtain ⟨ms, hms, rfl, rfl⟩ := h
  obtain ⟨ns, hns, rfl, rfl⟩ := h'
  refine ⟨ms ++ ns, ?_, (run_append ms ns s).symm, (evictedBy_append ms ns s).symm⟩
  intro m hm
  exact (List.mem_append.mp hm).elim (hms m) (hns m)

/-- Where moves lead, a guarded store stays guarded. By induction on the moves, each of which keeps it guarded. -/
theorem Leads.guarded (h : Leads lex evicted s t) (hs : Guarded lex s) : Guarded lex t := by
  obtain ⟨ms, hms, rfl, -⟩ := h
  exact hs.run hms

theorem Guarded.follows_make {m : Move} {p : Handle × Body} (hs : Guarded lex s) (hm : m.Follows lex)
    (hp : p ∈ (m.make s).1) : p.1.Follows lex := by
  rcases ho : m.overflow? s with _ | ⟨c, protect⟩
  · rw [make_of_overflow?_eq_none ho] at hp
    cases hp
  · obtain ⟨hmake, hc, -⟩ := hs.make_of_overflow? hm ho
    rw [hmake] at hp
    exact hc.follows p (Cache.of_mem_trim hp).1

/-- What is evicted on the way follows the lexicon, as it comes from tables whose keys do. -/
theorem Leads.follows (h : Leads lex evicted s t) (hs : Guarded lex s) : ∀ e ∈ evicted, e.Follows lex := by
  obtain ⟨ms, hms, -, rfl⟩ := h
  induction ms generalizing s with
  | nil => simp [evictedBy]
  | cons m ms ih =>
    have hm := hms m (List.mem_cons_self ..)
    intro e he
    rcases List.mem_append.mp he with he | he
    · obtain ⟨p, hp, rfl⟩ := List.mem_map.mp he
      exact hs.follows_make hm hp
    · exact ih (hs.make hm) (fun n hn => hms n (List.mem_cons_of_mem _ hn)) e he

theorem leads_make {m : Move} (hm : m.Follows lex) (s : Store) :
    Leads lex ((m.make s).1.map Prod.fst) s (m.make s).2 := by
  refine ⟨[m], ?_, rfl, (List.append_nil _).symm⟩
  intro n hn
  exact List.mem_singleton.mp hn ▸ hm

/-! ## What is beside the point -/

/-- Bodies, registrations and drafts stay, and working copies stay working copies of elements that follow the
lexicon. Such a step is one move that evicts nothing. -/
structure Beside (lex : Lexicon) (s t : Store) : Prop where
  /-- bodies stay -/
  cache : t.cache = s.cache
  /-- registrations stay -/
  registry : t.registry = s.registry
  /-- drafts stay -/
  drafts : t.drafts = s.drafts
  /-- bodies are committed in the same order -/
  arrangement : t.arrangement = s.arrangement
  /-- working copies go on following the lexicon -/
  copies : (∀ c ∈ s.copies, c.element.Follows lex) → ∀ c ∈ t.copies, c.element.Follows lex

theorem Beside.refl (s : Store) : Beside lex s s := ⟨rfl, rfl, rfl, rfl, fun h => h⟩

/-- One thing after the other is beside the point if both are. -/
theorem Beside.trans (h : Beside lex s t) (h' : Beside lex t u) : Beside lex s u :=
  ⟨h'.cache.trans h.cache, h'.registry.trans h.registry, h'.drafts.trans h.drafts,
    h'.arrangement.trans h.arrangement, fun hc => h'.copies (h.copies hc)⟩

theorem Beside.leads (h : Beside lex s t) (hs : Guarded lex s) : Leads lex [] s t := by
  have ht : t = (Move.make (.aside t.buffers t.copies t.building) s).2 := by
    obtain ⟨cache, buffers, copies, registry, building, drafts, arrangement⟩ := t
    obtain ⟨rfl, rfl, rfl, rfl, -⟩ := h
    rfl
  rw [ht]
  exact leads_make (m := .aside t.buffers t.copies t.building) (h.copies hs.copies) s

theorem beside_modifyBuffer (s : Store) (i : BufferId) (f : Buffer → Buffer) :
    Beside lex s (s.modifyBuffer i f) := ⟨rfl, rfl, rfl, rfl, fun h => h⟩

/-- Changing a working copy is, if it stays one of its element. -/
theorem beside_modifyCopy (s : Store) (id : CopyId) (f : WorkingCopy → WorkingCopy)
    (hf : ∀ c, (f c).element = c.element) : Beside lex s (s.modifyCopy id f) := by
  refine ⟨rfl, rfl, rfl, rfl, fun h c hc => ?_⟩
  have hmodify : (s.copies.modify id f).map WorkingCopy.element =
      (s.copies.map WorkingCopy.element).modify id fun x => x := map_modify fun c _ => hf c
  have hmap : (s.copies.modify id f).map WorkingCopy.element = s.copies.map WorkingCopy.element :=
    hmodify.trans (List.modify_id ..)
  have hmem : c.element ∈ s.copies.map WorkingCopy.element := hmap ▸ List.mem_map_of_mem hc
  obtain ⟨c', hc', heq⟩ := List.mem_map.mp hmem
  exact heq ▸ h c' hc'

theorem beside_retainCopy (s : Store) (id : CopyId) : Beside lex s (s.retainCopy id) := by
  rw [retainCopy]
  split
  · next c _ =>
    exact (beside_modifyBuffer s c.buffer _).trans (beside_modifyCopy _ id _ fun _ => rfl)
  · exact .refl s

theorem beside_releaseBuffer (s : Store) (i : BufferId) : Beside lex s (s.releaseBuffer i).2 := by
  rw [releaseBuffer]
  split
  · exact .refl s
  · exact beside_modifyBuffer s i _
  · exact .refl s

theorem beside_releaseCopy (s : Store) (id : CopyId) : Beside lex s (s.releaseCopy id).2 := by
  rw [releaseCopy]
  split
  · exact .refl s
  · split
    · exact .refl s
    · next n _ =>
      have hrefs : Beside lex s (s.modifyCopy id fun c => { c with refs := n }) :=
        beside_modifyCopy s id _ fun _ => rfl
      exact hrefs.trans (beside_releaseBuffer ..)

theorem beside_disposeCopy (s : Store) (id : CopyId) : Beside lex s (s.disposeCopy id).2 :=
  beside_modifyCopy s id _ fun _ => rfl

theorem beside_releaseStray (s : Store) (id : CopyId) : Beside lex s (s.releaseStray id).2 := by
  have hcopy : Beside lex s (s.releaseCopy id).2 := beside_releaseCopy s id
  rw [releaseStray]
  rcases hrelease : s.releaseCopy id with ⟨error | _ | n, t⟩ <;> rw [hrelease] at hcopy
  · exact hcopy
  · exact hcopy.trans (beside_disposeCopy t id)
  · exact hcopy

theorem beside_acquire (s : Store) (e : Handle) : Beside lex s (s.acquire e).2 := by
  rw [acquire]
  split
  · exact beside_retainCopy s _
  · exact .refl s

theorem beside_claimAgain (s : Store) (e : Handle) : Beside lex s (s.claimAgain e).2 := by
  rw [claimAgain]
  split
  · exact .refl s
  · exact ⟨rfl, rfl, rfl, rfl, fun h => h⟩

theorem beside_unclaim (s : Store) (e : Handle) : Beside lex s (s.unclaim e) :=
  ⟨rfl, rfl, rfl, rfl, fun h => h⟩

/-! ## Bodies -/

/-- **Looking** for a body is a use of it, or of nothing if it is found in a draft or not at all. -/
theorem leads_get? (he : e.Follows lex) (s : Store) : Leads lex [] s (s.get? e).2 := by
  rw [get?]
  split
  · exact .refl s
  · exact leads_make (m := .touch e) he s

theorem Guarded.follows_get? {b : Body} (hs : Guarded lex s) (hb : (s.get? e).1 = some b) : b.Follows lex := by
  rw [get?] at hb
  split at hb
  · next b' hdraft =>
    obtain rfl := Option.some.inj hb
    obtain ⟨d, hd, hget⟩ := Option.bind_eq_some_iff.mp hdraft
    exact (hs.drafts d (List.mem_of_mem_head? hd)).get? hget
  · exact hs.entries.get? hb

/-- A claim may find a body, which is a use of it. -/
theorem leads_claim (he : e.Follows lex) (hs : Guarded lex s) : Leads lex [] s (s.claim e).2 := by
  rw [claim]
  split
  · exact leads_make (m := .touch e) he s
  · exact (beside_claimAgain s e).leads hs

/-- A claim may be answered by a body, which follows the lexicon. -/
theorem Guarded.follows_claim {b : Body} (hs : Guarded lex s) (hb : (s.claim e).1 = .ok (.existing b)) :
    b.Follows lex := by
  rw [claim] at hb
  split at hb
  · next b' hpeek =>
    cases hb
    exact hs.entries.get? hpeek
  · rcases hclaim : s.claimAgain e with ⟨error | _, t⟩ <;> rw [hclaim] at hb <;> cases hb

theorem leads_popDraft (s : Store) : Leads lex [] s s.popDraft.2 := leads_make (m := .pop) trivial s

theorem Guarded.lawful_popDraft {d : Draft} (hs : Guarded lex s) (hd : s.popDraft.1 = .ok d) :
    Table.Lawful lex d.bodies := by
  rw [popDraft] at hd
  split at hd
  · cases hd
  · next d' drafts heq =>
    cases hd
    exact hs.drafts d (by rw [heq]; exact List.mem_cons_self ..)

/-- **A commit** that may find the element committed already is a commit or a use of what is there. -/
theorem leads_commitIfAbsent {bodies : Table Body} (he : e.Follows lex) (hb : Table.Lawful lex bodies)
    (s : Store) :
    Leads lex ((s.commitIfAbsent e bodies).2.1.map Prod.fst) s (s.commitIfAbsent e bodies).2.2 := by
  rw [commitIfAbsent]
  split
  · exact leads_make (m := .touch e) he s
  · exact leads_make (m := .commit e bodies) ⟨he, hb⟩ s

theorem Guarded.follows_commitIfAbsent {bodies : Table Body} {b : Body} (hs : Guarded lex s)
    (hb : (s.commitIfAbsent e bodies).1 = some b) : b.Follows lex := by
  rw [commitIfAbsent] at hb
  split at hb
  · next b' hpeek =>
    obtain rfl := Option.some.inj hb
    exact hs.entries.get? hpeek
  · cases hb

/-! ## Working copies -/

/-- **A registration** enrolls the element, if it is not registered yet; else it takes one more reference. -/
theorem leads_register (he : e.Follows lex) (hopen : e.openable = true) (hs : Guarded lex s)
    (buffer : BufferId) (callback : Option CallbackId) :
    Leads lex [] s (s.register e buffer callback).2.2 := by
  rw [register]
  split
  · exact (beside_retainCopy s _).leads hs
  · let t : Store := { s with copies := s.copies ++ [{ element := e, buffer, callback }] }
    have ht : Beside lex s t := by
      refine ⟨rfl, rfl, rfl, rfl, fun h c hc => ?_⟩
      rcases List.mem_append.mp hc with hc | hc
      · exact h c hc
      · exact List.mem_singleton.mp hc ▸ he
    have hretain := ht.trans (beside_retainCopy t s.copies.length)
    exact (hretain.leads hs).trans (leads_make (m := .enroll e s.copies.length) ⟨he, hopen⟩ _)

/-- **A release** withdraws the registration with the last reference, and takes the bodies of the element out with
it. -/
theorem leads_release (he : e.Follows lex) (hs : Guarded lex s) : Leads lex [] s (s.release e).2 := by
  rw [release]
  split
  · exact .refl s
  · next id _ =>
    have hcopy := (beside_releaseCopy s id).leads hs
    rcases hrelease : s.releaseCopy id with ⟨error | _ | n, t⟩ <;> rw [hrelease] at hcopy
    · exact hcopy
    · have hwithdraw := hcopy.trans (leads_make (m := .withdraw e) he t)
      exact hwithdraw.trans ((beside_disposeCopy _ id).leads (hwithdraw.guarded hs))
    · exact hcopy

theorem leads_discard (hs : Guarded lex s) (id : CopyId) : Leads lex [] s (s.discard id) := by
  rw [discard]
  split
  · next c hc =>
    split
    · have hel : c.element.Follows lex := hs.copies c (List.mem_of_getElem? hc)
      exact leads_make (m := .withdraw c.element) hel s
    · exact .refl s
  · exact .refl s

end Store

end CodeModel
