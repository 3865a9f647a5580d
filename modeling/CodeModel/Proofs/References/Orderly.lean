import Mathlib.Algebra.GroupWithZero.Nat
import CodeModel.Proofs.References.History

/-!
# Orderly books

What all turns of the books preserve, and how they change the numbers in them.

* Books are **orderly** if each registered element has a working copy of its own that can be used, all
  other working copies have come to their end, and just the registered elements are pinned
  (`Orderly.turn`).
* The references on an element change by **one** with each request that takes or drops one, and with no
  other (`Orderly.count_turn`).
* The references on a buffer, those of its other owners left aside, are those of the registered working
  copies on it (`Orderly.shared_turn`).
-/

namespace CodeModel

/-- A working copy of `e` that can be used, on one of `n` buffers. -/
structure WorkingCopy.InUse (n : Nat) (e : Handle) (c : WorkingCopy) : Prop where
  /-- it is the working copy of the element -/
  element : c.element = e
  /-- its set-up has succeeded -/
  ready : c.isReady = true
  /-- it has not come to its end -/
  live : c.disposed = false
  /-- it is referenced -/
  referenced : 0 < c.refs
  /-- its buffer is there -/
  buffer : c.buffer < n

/-- How many of the references on a buffer the working copy holds. -/
def WorkingCopy.refsOn (c : WorkingCopy) (i : BufferId) : Nat := if c.buffer = i then c.refs else 0

namespace Books

/-- How often the working copy of an element is referenced. -/
def count (b : Books) (e : Handle) : Nat :=
  ((b.copyOf? e).bind fun id => b.copies[id]?).elim 0 WorkingCopy.refs

/-- How many references on a buffer the registered working copies hold. -/
def held (b : Books) (i : BufferId) : Nat :=
  (b.registry.map fun p => b.copies[p.2]?.elim 0 (·.refsOn i)).sum

end Books

namespace References

variable {σ : Type} {lex : Lexicon} {n : Nat} {b b' : Books} {e x k : Handle} {id : CopyId} {c : WorkingCopy}

/-- The registered elements and the working copies in use belong to each other. All turns keep it, and with it the
numbers in the books can be read off: an element is referenced as often as the one working copy that it has. -/
structure Orderly (lex : Lexicon) (n : Nat) (b : Books) : Prop where
  /-- no element is registered twice -/
  registry : Table.Distinct lex b.registry
  /-- no working copy is registered twice -/
  ids : (b.registry.map Prod.snd).Nodup
  /-- registered working copies can be used -/
  registered : ∀ {e id}, (e, id) ∈ b.registry → ∃ c, b.copies[id]? = some c ∧ c.InUse n e
  /-- all others have come to their end -/
  ended : ∀ {id c}, b.copies[id]? = some c → c.disposed = false → (c.element, id) ∈ b.registry
  /-- just the registered elements are pinned -/
  pinned : b.pinned = Table.keys b.registry
  /-- all buffers are there -/
  size : b.size = n

namespace Orderly

/-! ## Looking up -/

theorem lt_of_mem (h : Orderly lex n b) (hm : (e, id) ∈ b.registry) : id < b.copies.length := by
  obtain ⟨c, hc, -⟩ := h.registered hm
  exact (List.getElem?_eq_some_iff.mp hc).1

theorem eq_of_mem (h : Orderly lex n b) (he : (e, id) ∈ b.registry) (hx : (x, id) ∈ b.registry) :
    e = x := by
  obtain ⟨c, hc, huse⟩ := h.registered he
  obtain ⟨c', hc', huse'⟩ := h.registered hx
  cases hc.symm.trans hc'
  exact huse.element.symm.trans huse'.element

theorem lookup (h : Orderly lex n b) (hid : b.copyOf? x = some id) :
    ∃ k c, (k, id) ∈ b.registry ∧ x.same k = true ∧ b.copies[id]? = some c ∧ c.InUse n k := by
  obtain ⟨k, hk, hxk⟩ := Table.exists_of_get? hid
  obtain ⟨c, hc, huse⟩ := h.registered hk
  exact ⟨k, c, hk, hxk, hc, huse⟩

/-- The working copy of an element is that of the **same** elements and of no others: a number is registered for one
element only. -/
theorem copyOf?_eq_some_iff (h : Orderly lex n b) (hid : b.copyOf? e = some id) (he : e.Follows lex)
    (hx : x.Follows lex) : b.copyOf? x = some id ↔ x.same e = true := by
  constructor
  · intro hxid
    obtain ⟨k, -, hk, hek, -⟩ := h.lookup hid
    obtain ⟨l, -, hl, hxl, -⟩ := h.lookup hxid
    obtain rfl := h.eq_of_mem hk hl
    have hkf := h.registry.follows _ hk
    exact Handle.same_trans hx hkf he hxl (Handle.same_symm he hkf hek)
  · intro hxe
    exact (Table.get?_congr h.registry hx he hxe).trans hid

/-- An element that is not registered is not, whatever it is reached from. -/
theorem copyOf?_eq_none (h : Orderly lex n b) (hnone : b.copyOf? e = none) (he : e.Follows lex)
    (hx : x.Follows lex) (hxe : x.same e = true) : b.copyOf? x = none :=
  (Table.get?_congr h.registry hx he hxe).trans hnone

/-! ## Changing one working copy -/

/-- A change that leaves a working copy in use keeps the books orderly. -/
theorem modify {f : WorkingCopy → WorkingCopy} {refs : BufferId → Int} (h : Orderly lex n b)
    (hf : ∀ {e c}, b.copies[id]? = some c → c.InUse n e → (f c).InUse n e)
    (hlive : ∀ c, (f c).disposed = c.disposed ∧ (f c).element = c.element) :
    Orderly lex n { b with copies := b.copies.modify id f, refs } := by
  refine ⟨h.registry, h.ids, fun {e j} hm => ?_, fun {j c} hc hdisposed => ?_, h.pinned, h.size⟩
  · obtain ⟨c, hc, huse⟩ := h.registered hm
    by_cases hj : id = j
    · subst hj
      exact ⟨f c, by simp [hc], hf hc huse⟩
    · exact ⟨c, by simp [hj, hc], huse⟩
  · by_cases hj : id = j
    · subst hj
      obtain ⟨c₀, hc₀, rfl⟩ : ∃ c₀, b.copies[id]? = some c₀ ∧ f c₀ = c := by simpa using hc
      rw [(hlive c₀).2]
      exact h.ended hc₀ ((hlive c₀).1 ▸ hdisposed)
    · exact h.ended (by simpa [hj] using hc) hdisposed

theorem retained (h : Orderly lex n b) (id : CopyId) (i : BufferId) :
    Orderly lex n (b.retained id i) :=
  h.modify (fun _ huse => ⟨huse.element, huse.ready, huse.live, Nat.succ_pos _, huse.buffer⟩)
    (fun _ => ⟨rfl, rfl⟩)

theorem released (h : Orderly lex n b) (hc : b.copies[id]? = some c) (hrefs : 1 < c.refs)
    (i : BufferId) : Orderly lex n (b.released id i) := by
  refine h.modify (fun {e c'} hc' huse => ?_) (fun _ => ⟨rfl, rfl⟩)
  cases hc.symm.trans hc'
  exact ⟨huse.element, huse.ready, huse.live, Nat.sub_pos_of_lt hrefs, huse.buffer⟩

/-! ## New working copies -/

theorem of_getElem?_concat {c₀ : WorkingCopy} (hc : (b.copies ++ [c₀])[id]? = some c) :
    b.copies[id]? = some c ∨ id = b.copies.length ∧ c = c₀ := by
  by_cases hlt : id < b.copies.length
  · rw [List.getElem?_append_left hlt] at hc
    exact .inl hc
  · have hle : id < (b.copies ++ [c₀]).length := (List.getElem?_eq_some_iff.mp hc).1
    rw [List.length_append, List.length_singleton, Nat.lt_succ_iff] at hle
    obtain rfl := Nat.le_antisymm hle (Nat.le_of_not_lt hlt)
    exact .inr ⟨rfl, by simpa using hc.symm⟩

/-- A new working copy is registered under a number of its own, and its element is pinned. -/
theorem enrolled (h : Orderly lex n b) (he : e.Follows lex) (hnone : b.copyOf? e = none) {i : BufferId}
    (hi : i < n) (callback : Option CallbackId) : Orderly lex n (b.enrolled e i callback .ready) := by
  have hcontains := Books.contains_registry hnone
  have hregistry := Table.insert_of_not_contains b.copies.length hcontains
  have hkeys := (HandleSet.contains_keys b.registry e).trans hcontains
  refine ⟨Table.distinct_insert h.registry he, ?_, fun {x j} hm => ?_, fun {j c} hc hlive => ?_, ?_,
    h.size⟩
  · simp only [Books.enrolled, hregistry, List.map_append, List.map_cons, List.map_nil]
    refine List.nodup_append.mpr ⟨h.ids, by simp, ?_⟩
    rintro j hj j' hj' rfl
    obtain ⟨⟨x, j⟩, hm, rfl⟩ := List.mem_map.mp hj
    exact absurd (h.lt_of_mem hm) (List.mem_singleton.mp hj' ▸ Nat.lt_irrefl _)
  · simp only [Books.enrolled, hregistry, List.mem_append, List.mem_singleton, Prod.mk.injEq] at hm
    rcases hm with hm | ⟨rfl, rfl⟩
    · obtain ⟨c, hc, huse⟩ := h.registered hm
      exact ⟨c, by simp [Books.enrolled, List.getElem?_append_left (h.lt_of_mem hm), hc], huse⟩
    · refine ⟨{ element := x, buffer := i, callback, refs := 1, init := .ready }, ?_, ?_⟩
      · simp [Books.enrolled]
      · exact ⟨rfl, rfl, rfl, Nat.one_pos, hi⟩
  · simp only [Books.enrolled, hregistry, List.mem_append, List.mem_singleton, Prod.mk.injEq]
    rcases of_getElem?_concat hc with hc | ⟨rfl, rfl⟩
    · exact .inl (h.ended hc hlive)
    · exact .inr ⟨rfl, rfl⟩
  · simp only [Books.enrolled, hregistry, h.pinned, HandleSet.insert, hkeys]
    simp [Table.keys]

/-- A working copy that failed is at its end already. It gets a number of its own, but is not in the registry and
holds neither buffer nor pin. -/
theorem failed (h : Orderly lex n b) (e : Handle) (i : BufferId) (callback : Option CallbackId) :
    Orderly lex n (b.failed e i callback) := by
  refine ⟨h.registry, h.ids, fun {x j} hm => ?_, fun {j c} hc hlive => ?_, h.pinned, h.size⟩
  · obtain ⟨c, hc, huse⟩ := h.registered hm
    exact ⟨c, by simp [Books.failed, List.getElem?_append_left (h.lt_of_mem hm), hc], huse⟩
  · rcases of_getElem?_concat hc with hc | ⟨-, rfl⟩
    · exact h.ended hc hlive
    · cases hlive

/-! ## Ends -/

/-- With the last reference, working copy, registration and pin go together. -/
theorem last (h : Orderly lex n b) (he : e.Follows lex) (hid : b.copyOf? e = some id) (i : BufferId) :
    Orderly lex n ((b.released id i).ended e id) := by
  obtain ⟨k, c, hk, hek, hc, huse⟩ := h.lookup hid
  have hregistry : Table.erase b.registry e = b.registry.filter fun p => !e.same p.1 :=
    Table.erase_eq_filter h.registry he
  refine ⟨Table.distinct_erase h.registry he, ?_, fun {x j} hm => ?_, fun {j c'} hc' hlive => ?_, ?_,
    h.size⟩
  · simp only [Books.ended, Books.released, hregistry]
    exact h.ids.sublist (List.filter_sublist.map _)
  · simp only [Books.ended, Books.released, hregistry, List.mem_filter, Bool.not_eq_true'] at hm
    obtain ⟨c', hc', huse'⟩ := h.registered hm.1
    have hne : id ≠ j := by
      rintro rfl
      have hkx := h.eq_of_mem hk hm.1
      rw [← hkx, hek] at hm
      cases hm.2
    exact ⟨c', by simp [Books.ended, Books.released, hne, hc'], huse'⟩
  · by_cases hj : id = j
    · -- the working copy that has come to its end
      subst hj
      obtain ⟨c₀, -, rfl⟩ : ∃ c₀, b.copies[id]? = some c₀ ∧ _ = c' := by
        simpa [Books.ended, Books.released] using hc'
      cases hlive
    · have hc₀ : b.copies[j]? = some c' := by simpa [Books.ended, Books.released, hj] using hc'
      have hm := h.ended hc₀ hlive
      simp only [Books.ended, Books.released, hregistry, List.mem_filter, hm, true_and,
        Bool.not_eq_true']
      by_contra hsame
      have hget := h.registry.get?_of_mem he hm (by simpa using hsame)
      exact hj (Option.some.inj (hid.symm.trans hget))
  · simp only [Books.ended, Books.released, h.pinned, HandleSet.erase_keys]

/-! ## Turns -/

variable {listeners : Listeners} {entry : Entry σ n}

/-- **Every turn** keeps the books orderly, each kind of turn in its way: one reference is taken or dropped, a
working copy is registered, comes to its end, or fails to be set up. -/
theorem turn (h : Orderly lex n b) (hturn : Turn listeners b entry b')
    (hfile : entry.request.Follows lex) : Orderly lex n b' := by
  cases hturn with
  | notOpenable ho => exact h
  | @started _ buffer callback _ status ho hnone => exact h.enrolled (hfile _ rfl) hnone buffer.2 callback
  | refused ho hnone => exact h.failed _ _ _
  | joined ho hid hc => exact h.retained _ _
  | acquired hid hc => exact h.retained _ _
  | missed hnone => exact h
  | unknown hnone => exact h
  | kept hid hc hrefs => exact h.released hc hrefs _
  | last status hid hc hrefs => exact h.last (hfile _ rfl) hid _
  | apart => exact h

/-! ## Counts of references -/

theorem count_of_some (hid : b.copyOf? x = some id) (hc : b.copies[id]? = some c) :
    b.count x = c.refs := by
  simp [Books.count, hid, hc]

theorem count_of_none (hnone : b.copyOf? x = none) : b.count x = 0 := by
  simp [Books.count, hnone]

/-- **An element is registered** as long as it is referenced, since a working copy in use has a reference, and an
element without one has none. -/
theorem isSome_copyOf?_iff (h : Orderly lex n b) : (b.copyOf? x).isSome = true ↔ 0 < b.count x := by
  rcases hid : b.copyOf? x with _ | id
  · simp [count_of_none hid]
  · obtain ⟨k, c, -, -, hc, huse⟩ := h.lookup hid
    simp [count_of_some hid hc, huse.referenced]

/-- Only the elements of a working copy notice what is done to it: the count of any element is that of the working
copy it is registered with. -/
theorem count_modify (h : Orderly lex n b) (he : e.Follows lex) (hx : x.Follows lex)
    (hid : b.copyOf? e = some id) (hc : b.copies[id]? = some c) (f : WorkingCopy → WorkingCopy)
    (refs : BufferId → Int) :
    Books.count { b with copies := b.copies.modify id f, refs } x =
      if x.same e then (f c).refs else b.count x := by
  have hiff := h.copyOf?_eq_some_iff hid he hx
  by_cases hxe : x.same e = true
  · rw [if_pos hxe]
    exact count_of_some (hiff.mpr hxe) (by simp [hc])
  · rw [if_neg hxe]
    rcases hxid : b.copyOf? x with _ | j
    · rw [count_of_none hxid]
      exact count_of_none hxid
    · have hne : id ≠ j := by
        rintro rfl
        exact hxe (hiff.mp hxid)
      obtain ⟨-, c', -, -, hc', -⟩ := h.lookup hxid
      rw [count_of_some hxid hc']
      exact count_of_some hxid (by simp [hne, hc'])

theorem count_retained (h : Orderly lex n b) (he : e.Follows lex) (hx : x.Follows lex)
    (hid : b.copyOf? e = some id) (hc : b.copies[id]? = some c) (i : BufferId) :
    (b.retained id i).count x = b.count x + if x.same e then 1 else 0 := by
  rw [Books.retained, h.count_modify he hx hid hc]
  by_cases hxe : x.same e = true
  · have hxid := (h.copyOf?_eq_some_iff hid he hx).mpr hxe
    simp [hxe, WorkingCopy.retain, count_of_some hxid hc]
  · simp [hxe]

/-- A new working copy does not touch the old ones. -/
theorem count_concat (h : Orderly lex n b) (c₀ : WorkingCopy) (refs : BufferId → Int) (x : Handle) :
    Books.count { b with copies := b.copies ++ [c₀], refs } x = b.count x := by
  rcases hxid : b.copyOf? x with _ | j
  · rw [count_of_none hxid]
    exact count_of_none hxid
  · obtain ⟨k, c', hk, -, hc', -⟩ := h.lookup hxid
    rw [count_of_some hxid hc']
    exact count_of_some hxid (by simp [List.getElem?_append_left (h.lt_of_mem hk), hc'])

theorem count_enrolled (h : Orderly lex n b) (he : e.Follows lex) (hx : x.Follows lex)
    (i : BufferId) (callback : Option CallbackId) :
    (b.enrolled e i callback .ready).count x = if x.same e then 1 else b.count x := by
  have hget : (b.enrolled e i callback .ready).copyOf? x =
      if x.same e then some b.copies.length else b.copyOf? x := Table.get?_insert h.registry he hx
  by_cases hxe : x.same e = true
  · rw [if_pos hxe] at hget ⊢
    exact count_of_some (c := { element := e, buffer := i, callback, refs := 1, init := .ready }) hget
      (by simp [Books.enrolled])
  · rw [if_neg hxe] at hget ⊢
    rw [Books.count, hget]
    exact h.count_concat _ b.refs x

theorem count_last (h : Orderly lex n b) (he : e.Follows lex) (hx : x.Follows lex)
    (hid : b.copyOf? e = some id) (i : BufferId) :
    ((b.released id i).ended e id).count x = if x.same e then 0 else b.count x := by
  have hget : ((b.released id i).ended e id).copyOf? x = if x.same e then none else b.copyOf? x :=
    Table.get?_erase h.registry he hx
  by_cases hxe : x.same e = true
  · rw [if_pos hxe] at hget ⊢
    exact count_of_none hget
  · rw [if_neg hxe] at hget ⊢
    obtain ⟨-, c, -, -, hc, -⟩ := h.lookup hid
    have hcount := h.count_modify he hx hid hc
      (fun c => { c with refs := c.refs - 1, disposed := true }) b.refs
    rw [if_neg hxe] at hcount
    rw [Books.count, hget, ← hcount]
    simp only [Books.ended, Books.released, List.modify_modify_eq]
    rfl

/-- **The references on an element** change by those that an entry takes or drops, and those on all other elements
stay as they are. -/
theorem count_turn (h : Orderly lex n b) (hturn : Turn listeners b entry b')
    (hfile : entry.request.Follows lex) (hx : x.Follows lex) :
    (b'.count x : Int) =
      b.count x + (if entry.takes x then 1 else 0) - (if entry.drops x then 1 else 0) := by
  cases hturn with
  | notOpenable | missed | unknown | apart => simp [Entry.takes, Entry.drops]
  | @started file _ _ _ status ho hnone =>
    rw [h.count_enrolled (hfile _ rfl) hx]
    by_cases hsame : x.same file = true
    · have hxnone := h.copyOf?_eq_none hnone (hfile _ rfl) hx hsame
      simp [Entry.takes, Entry.drops, hsame, count_of_none hxnone]
    · simp [Entry.takes, Entry.drops, hsame]
  | refused ho hnone =>
    rw [Books.failed, h.count_concat]
    simp [Entry.takes, Entry.drops]
  | @joined file _ _ _ _ _ ho hid hc =>
    rw [h.count_retained (hfile _ rfl) hx hid hc]
    by_cases hsame : x.same file = true <;> simp [Entry.takes, Entry.drops, hsame]
  | @acquired file _ _ hid hc =>
    rw [h.count_retained (hfile _ rfl) hx hid hc]
    by_cases hsame : x.same file = true <;> simp [Entry.takes, Entry.drops, hsame]
  | @kept file id c hid hc hrefs =>
    rw [Books.released, h.count_modify (hfile _ rfl) hx hid hc]
    by_cases hsame : x.same file = true
    · have hxid := (h.copyOf?_eq_some_iff hid (hfile _ rfl) hx).mpr hsame
      have hpred : ((c.refs - 1 : Nat) : Int) = c.refs - 1 := Int.ofNat_sub (Nat.le_of_lt hrefs)
      simp [Entry.takes, Entry.drops, hsame, count_of_some hxid hc, hpred]
    · simp [Entry.takes, Entry.drops, hsame]
  | @last file id c status hid hc hrefs =>
    rw [h.count_last (hfile _ rfl) hx hid]
    by_cases hsame : x.same file = true
    · have hxid := (h.copyOf?_eq_some_iff hid (hfile _ rfl) hx).mpr hsame
      simp [Entry.takes, Entry.drops, hsame, count_of_some hxid hc, hrefs]
    · simp [Entry.takes, Entry.drops, hsame]

/-! ## References on buffers -/

/-- The registration of a working copy and all others. -/
theorem split (h : Orderly lex n b) (hk : (k, id) ∈ b.registry) :
    ∃ l₁ l₂, b.registry = l₁ ++ (k, id) :: l₂ ∧ ∀ p ∈ l₁ ++ l₂, id ≠ p.2 := by
  obtain ⟨l₁, l₂, hl⟩ := List.append_of_mem hk
  refine ⟨l₁, l₂, hl, fun p hp => ?_⟩
  have hids := h.ids
  simp only [hl, List.map_append, List.map_cons, List.perm_middle.nodup_iff] at hids
  rw [← List.map_append] at hids
  rintro rfl
  exact (List.nodup_cons.mp hids).1 (List.mem_map_of_mem hp)

/-- What a working copy holds of a buffer is part of what is held of it. -/
theorem held_modify (h : Orderly lex n b) (hk : (k, id) ∈ b.registry) (hc : b.copies[id]? = some c)
    (f : WorkingCopy → WorkingCopy) (refs : BufferId → Int) (i : BufferId) :
    Books.held { b with copies := b.copies.modify id f, refs } i + c.refsOn i =
      b.held i + (f c).refsOn i := by
  obtain ⟨l₁, l₂, hl, hne⟩ := h.split hk
  have hothers : ∀ l : Table CopyId, (∀ p ∈ l, id ≠ p.2) →
      (l.map fun p => ((b.copies.modify id f)[p.2]?.elim 0 (·.refsOn i) : Nat)) =
        l.map fun p => (b.copies[p.2]?.elim 0 (·.refsOn i)) := by
    intro l hl
    refine List.map_congr_left fun p hp => ?_
    simp [hl p hp]
  have h₁ := hothers l₁ fun p hp => hne p (List.mem_append_left _ hp)
  have h₂ := hothers l₂ fun p hp => hne p (List.mem_append_right _ hp)
  simp only [Books.held, hl, List.map_append, List.map_cons, List.sum_append, List.sum_cons, h₁, h₂,
    List.getElem?_modify_eq, hc, Option.map_eq_map, Option.map_some, Option.elim_some]
  omega

theorem refsOn_le_held (h : Orderly lex n b) (hk : (k, id) ∈ b.registry)
    (hc : b.copies[id]? = some c) (i : BufferId) : c.refsOn i ≤ b.held i := by
  obtain ⟨l₁, l₂, hl, -⟩ := h.split hk
  simp only [Books.held, hl, List.map_append, List.map_cons, List.sum_append, List.sum_cons, hc,
    Option.elim_some]
  omega

/-- A new working copy that is not registered holds nothing, as only registered ones are counted for a buffer. -/
theorem held_concat (h : Orderly lex n b) (c₀ : WorkingCopy) (i : BufferId) :
    (b.registry.map fun p => ((b.copies ++ [c₀])[p.2]?.elim 0 (·.refsOn i) : Nat)).sum = b.held i := by
  rw [Books.held]
  congr 1
  refine List.map_congr_left fun p hp => ?_
  rw [List.getElem?_append_left (h.lt_of_mem hp)]

theorem held_enrolled (h : Orderly lex n b) (hnone : b.copyOf? e = none) (i j : BufferId)
    (callback : Option CallbackId) :
    (b.enrolled e j callback .ready).held i = b.held i + if j = i then 1 else 0 := by
  have hregistry := Table.insert_of_not_contains b.copies.length (Books.contains_registry hnone)
  rw [← h.held_concat { element := e, buffer := j, callback, refs := 1, init := .ready }]
  simp [Books.held, Books.enrolled, hregistry, WorkingCopy.refsOn]

/-- What is erased from a table is missing from its sum. -/
theorem sum_erase {t : Table CopyId} (h : Table.get? t e = some id) (f : Handle × CopyId → Nat) :
    ∃ k, ((Table.erase t e).map f).sum + f (k, id) = (t.map f).sum := by
  induction t with
  | nil => cases h
  | cons p t ih =>
    obtain ⟨k, j⟩ := p
    rw [Table.get?_cons] at h
    by_cases hek : e.same k = true
    · rw [if_pos hek] at h
      cases h
      exact ⟨k, by simp [Table.erase, hek, Nat.add_comm]⟩
    · rw [if_neg hek] at h
      obtain ⟨l, hl⟩ := ih h
      exact ⟨l, by simp [Table.erase, hek, ← hl, Nat.add_assoc]⟩

/-- With its last reference a working copy lets its buffer go: the buffer is held once less than before, and other
buffers as often as before. -/
theorem held_last (h : Orderly lex n b) (hid : b.copyOf? e = some id) (hc : b.copies[id]? = some c)
    (hrefs : c.refs = 1) (i j : BufferId) :
    ((b.released id j).ended e id).held i + (if c.buffer = i then 1 else 0) = b.held i := by
  obtain ⟨k, -, hk, -⟩ := h.lookup hid
  let f : WorkingCopy → WorkingCopy := fun c => { c with refs := c.refs - 1, disposed := true }
  have hended : ((b.released id j).ended e id).held i =
      ((Table.erase b.registry e).map fun p => ((b.copies.modify id f)[p.2]?.elim 0 (·.refsOn i))).sum := by
    simp only [Books.held, Books.ended, Books.released, List.modify_modify_eq]
    rfl
  have hnothing : (f c).refsOn i = 0 := by simp [f, WorkingCopy.refsOn, hrefs]
  have hheld := h.held_modify hk hc f b.refs i
  obtain ⟨l, hl⟩ := sum_erase hid fun p => ((b.copies.modify id f)[p.2]?.elim 0 (·.refsOn i))
  have hterm : ((b.copies.modify id f)[id]?.elim 0 (·.refsOn i)) = 0 := by simp [hc, hnothing]
  rw [hterm, Nat.add_zero] at hl
  rw [hended, hl]
  rw [hnothing, Nat.add_zero, WorkingCopy.refsOn, hrefs] at hheld
  exact hheld

section Shared

variable (h : Orderly lex n b) (hshared : ∀ i, b.refs i = b.held i)

include h hshared

/-- A change of the references on a working copy is one of those on its buffer. -/
theorem shared_modify {f : WorkingCopy → WorkingCopy} {d : Int} (hid : b.copyOf? x = some id)
    (hc : b.copies[id]? = some c) (hbuffer : (f c).buffer = c.buffer) (hrefs : ((f c).refs : Int) = c.refs + d)
    (i : BufferId) :
    Books.charge b.refs c.buffer d i =
      Books.held { b with copies := b.copies.modify id f, refs := Books.charge b.refs c.buffer d } i := by
  obtain ⟨k, -, hk, -⟩ := h.lookup hid
  have hheld := h.held_modify hk hc f (Books.charge b.refs c.buffer d) i
  have hi := hshared i
  simp only [WorkingCopy.refsOn, hbuffer] at hheld
  rw [Books.charge]
  by_cases hsame : c.buffer = i
  · rw [if_pos hsame, if_pos hsame] at hheld
    rw [if_pos hsame]
    omega
  · rw [if_neg hsame, if_neg hsame] at hheld
    rw [if_neg hsame]
    omega

theorem shared_retained (hid : b.copyOf? x = some id) (hc : b.copies[id]? = some c) (i : BufferId) :
    (b.retained id c.buffer).refs i = (b.retained id c.buffer).held i :=
  h.shared_modify hshared hid hc rfl rfl i

theorem shared_released (hid : b.copyOf? x = some id) (hc : b.copies[id]? = some c) (hrefs : 1 < c.refs)
    (i : BufferId) : (b.released id c.buffer).refs i = (b.released id c.buffer).held i := by
  refine h.shared_modify hshared hid hc rfl ?_ i
  simp only
  omega

theorem shared_last (hid : b.copyOf? x = some id) (hc : b.copies[id]? = some c) (hrefs : c.refs = 1)
    (i : BufferId) :
    ((b.released id c.buffer).ended x id).refs i = ((b.released id c.buffer).ended x id).held i := by
  have hheld := h.held_last hid hc hrefs i c.buffer
  have hi := hshared i
  have hcharge : ((b.released id c.buffer).ended x id).refs = Books.charge b.refs c.buffer (-1) := rfl
  rw [hcharge, Books.charge]
  by_cases hbuffer : c.buffer = i
  · simp only [hbuffer, if_true] at hheld ⊢
    omega
  · simp only [hbuffer, if_false] at hheld ⊢
    omega

theorem shared_enrolled (hnone : b.copyOf? e = none) (j : BufferId) (callback : Option CallbackId)
    (i : BufferId) :
    (b.enrolled e j callback .ready).refs i = (b.enrolled e j callback .ready).held i := by
  have hi := hshared i
  have hcharge : (b.enrolled e j callback .ready).refs = Books.charge b.refs j 1 := rfl
  rw [h.held_enrolled hnone, hcharge, Books.charge]
  split <;> omega

/-- **Every turn** leaves each buffer with the references of the registered working copies on it: whatever is done
to the references on a working copy is done to those on its buffer. -/
theorem shared_turn (hturn : Turn listeners b entry b') (i : BufferId) : b'.refs i = b'.held i := by
  cases hturn with
  | notOpenable | missed | unknown | apart => exact hshared i
  | started status ho hnone => exact h.shared_enrolled hshared hnone _ _ i
  | refused ho hnone => exact (hshared i).trans (congrArg _ (h.held_concat _ i).symm)
  | joined ho hid hc => exact h.shared_retained hshared hid hc i
  | acquired hid hc => exact h.shared_retained hshared hid hc i
  | kept hid hc hrefs => exact h.shared_released hshared hid hc hrefs i
  | last status hid hc hrefs => exact h.shared_last hshared hid hc hrefs i

/-- Orderly books are usable, if each buffer has the references of the working copies on it: what is registered is
referenced, and so is its buffer. -/
theorem usable : Usable n b := by
  refine ⟨fun {e id} hid => ?_, fun i => hshared i ▸ Int.natCast_nonneg _, h.pinned, h.size⟩
  obtain ⟨k, c, hk, -, hc, huse⟩ := h.lookup hid
  have hle := h.refsOn_le_held hk hc c.buffer
  have hpos := huse.referenced
  refine ⟨c, hc, huse.ready, huse.live, huse.referenced, huse.buffer, ?_⟩
  rw [WorkingCopy.refsOn, if_pos rfl] at hle
  rw [hshared]
  omega

end Shared

end Orderly

end References

end CodeModel
