import CodeModel.Proofs.Cache.Requests
import Mathlib.Data.List.Nodup

/-!
# Eviction by age

What a cache evicts is decided by the history of its use alone.

* The **age** of an element is how many uses there have been since its own last one. A body is used when
  it is stored and when it is asked for.
* After any run the entries stand in the **order of age** (`inOrder_run`), and the pinned elements are those
  that the run has pinned and not unpinned since (`contains_pinned_run`).
* An overflow evicts the **oldest** entries that are neither new nor pinned, until the target is met or none
  of them is left (`serve_evicts_oldest`).
-/

namespace CodeModel

namespace Cache

variable {lex : Lexicon} {c d : Cache} {e k x : Handle} {b : Body} {u : List Handle} {r : Request}
  {rs : List Request} {limit : Nat}

/-! ## Ages -/

/-- The elements that a request uses, in order. -/
def Request.uses : Request → List Handle
  | .get e => [e]
  | .put e _ => [e]
  | .putAll bodies => bodies.map Prod.fst
  | _ => []

/-- Where the size is checked, what is used is what is stored. -/
theorem Request.uses_of_limit? (h : r.limit? c = some limit) : r.batch.map Prod.fst = r.uses := by
  cases r with
  | get => cases h
  | _ => rfl

/-- All uses of a run, the last one first. -/
def usesOf (rs : List Request) : List Handle := (rs.flatMap Request.uses).reverse

/-- How many uses there have been since the last one of the element. -/
def age (uses : List Handle) (e : Handle) : Nat := uses.findIdx (·.same e)

theorem age_cons_of_same (h : e.same k = true) : age (e :: u) k = 0 := by
  rw [age, List.findIdx_cons, h]
  rfl

theorem age_cons_of_not_same (h : e.same k = false) : age (e :: u) k = age u k + 1 := by
  rw [age, List.findIdx_cons, h]
  rfl

/-- The entries are distinct, and the younger ones come first. Ages are told from the uses of a run alone, so this
connects the order that the cache keeps with its history. -/
structure InOrder (lex : Lexicon) (u : List Handle) (c : Cache) : Prop where
  /-- no element has two entries -/
  distinct : Table.Distinct lex c.entries
  /-- entries get older towards the end -/
  ordered : c.entries.Pairwise fun p q => age u p.1 < age u q.1

/-- Taking entries out leaves the others in order, so evictions and removals do not disturb recency. -/
theorem InOrder.sublist (h : InOrder lex u c) (hd : d.entries.Sublist c.entries) : InOrder lex u d :=
  ⟨h.distinct.sublist hd, h.ordered.sublist hd⟩

/-- Where no entry is used, all of them get older by one, and so they stay in order. -/
theorem pairwise_older {t : Table Body} (h : t.Pairwise fun p q => age u p.1 < age u q.1)
    (hne : ∀ p ∈ t, e.same p.1 = false) : t.Pairwise fun p q => age (e :: u) p.1 < age (e :: u) q.1 := by
  apply h.imp_of_mem
  intro p q hp hq hpq
  rw [age_cons_of_not_same (hne p hp), age_cons_of_not_same (hne q hq)]
  omega

/-- The entry that is **used** comes first: it is the youngest now, and the others, all of them one use older, are
in the order they were in. -/
theorem InOrder.front (h : InOrder lex u c) (he : e.Follows lex) (hk : k.Follows lex)
    (hek : e.same k = true) (hd : d.entries = (k, b) :: Table.erase c.entries e) :
    InOrder lex (e :: u) d := by
  refine ⟨hd ▸ Table.distinct_front h.distinct he hk hek, ?_⟩
  rw [hd, Table.erase_eq_filter h.distinct he]
  have hne : ∀ p ∈ c.entries.filter fun p => !e.same p.1, e.same p.1 = false := by
    intro p hp
    simpa using (List.mem_filter.mp hp).2
  refine List.pairwise_cons.mpr ⟨?_, pairwise_older (h.ordered.sublist List.filter_sublist) hne⟩
  intro p hp
  rw [age_cons_of_same hek, age_cons_of_not_same (hne p hp)]
  omega

theorem InOrder.touch (h : InOrder lex u c) (he : e.Follows lex) :
    InOrder lex (e :: u) (c.touch e) := by
  rcases entries_touch c e with ⟨hc, hnone⟩ | ⟨k, b, hm, hek, hc⟩
  · refine ⟨hc ▸ h.distinct, ?_⟩
    rw [hc]
    exact pairwise_older h.ordered (Table.get?_eq_none_iff.mp hnone)
  · exact h.front he (h.distinct.follows _ hm) hek hc

theorem InOrder.store (h : InOrder lex u c) (he : e.Follows lex) (b : Body) :
    InOrder lex (e :: u) (c.store e b) := by
  obtain ⟨k, hk, hek, -, hc⟩ := entries_store h.distinct he b
  exact h.front he hk hek hc

/-- Storing several is storing them one after the other. -/
theorem InOrder.storeAll {bodies : Table Body} (h : InOrder lex u c)
    (hb : ∀ p ∈ bodies, p.1.Follows lex) :
    InOrder lex ((bodies.map Prod.fst).reverse ++ u) (c.storeAll bodies) := by
  induction bodies generalizing c u with
  | nil => exact h
  | cons p bodies ih =>
    have hp := h.store (hb p (List.mem_cons_self ..)) p.2
    rw [List.map_cons, List.reverse_cons, List.append_assoc]
    exact ih hp fun q hq => hb q (List.mem_cons_of_mem _ hq)

theorem trim_sublist (h : Table.Distinct lex c.entries) (protect : HandleSet) :
    (c.trim protect).2.entries.Sublist c.entries := by
  rw [trim_entries h]
  exact List.filter_sublist

/-- **A request** keeps the entries in the order of age: it uses what its history says it uses, in that order, and
an eviction takes entries out without moving any. -/
theorem InOrder.serve (h : InOrder lex u c) (hr : r.Follows lex) :
    InOrder lex (r.uses.reverse ++ u) (r.serve c).2 := by
  rcases hlimit : r.limit? c with _ | limit
  · cases r with
    | get e => exact h.touch hr
    | erase e => exact h.sublist (by
        show (Table.erase c.entries e).Sublist c.entries
        rw [Table.erase_eq_filter h.distinct hr]
        exact List.filter_sublist)
    | raise n owner =>
      obtain ⟨n', headroom, hraise⟩ := Request.exists_raiseCapacity c n owner
      have hentries : (c.raiseCapacity n owner).entries = c.entries := by rw [hraise]
      exact ⟨hentries ▸ h.distinct, hentries ▸ h.ordered⟩
    | lower n owner =>
      rw [Request.serve, Request.lowerCapacity_of_limit?_eq_none hlimit]
      exact h
    | peek | contains | pin | unpin | setLoadFactor => exact ⟨h.distinct, h.ordered⟩
    | _ => cases hlimit
  · obtain ⟨s, hserve, hentries, -⟩ := Request.serve_of_limit? hlimit
    have hstored := h.storeAll hr.batch
    rw [Request.uses_of_limit? hlimit] at hstored
    have hs : InOrder lex (r.uses.reverse ++ u) s := ⟨hentries ▸ hstored.distinct, hentries ▸ hstored.ordered⟩
    rw [hserve]
    exact hs.sublist (trim_sublist hs.distinct _)

/-- After any **run** the entries stand in the order of age, by induction on the requests. -/
theorem inOrder_run (n : Nat) (x : Float) (hrs : ∀ r ∈ rs, r.Follows lex) :
    InOrder lex (usesOf rs) (run rs (new n x)) := by
  induction rs using List.reverseRecOn with
  | nil => exact ⟨Table.distinct_nil, List.Pairwise.nil⟩
  | append_singleton rs r ih =>
    have hbefore := ih fun q hq => hrs q (List.mem_append_left _ hq)
    have hafter := hbefore.serve (hrs r (by simp))
    rw [run_concat]
    simpa [usesOf] using hafter

/-! ## Pins -/

/-- Whether an element is pinned after the request, given whether it was before. -/
def Request.pins (x : Handle) (before : Bool) : Request → Bool
  | .pin e => before || x.same e
  | .unpin e => before && !x.same e
  | _ => before

/-- The element has been pinned, and not unpinned since. -/
def pinnedBy (rs : List Request) (x : Handle) : Bool := rs.foldl (fun before r => r.pins x before) false

/-- Only two kinds of requests change what is pinned, and each of them does so for one element. -/
theorem pinned_serve (c : Cache) (r : Request) :
    (r.serve c).2.pinned = match r with
      | .pin e => HandleSet.insert c.pinned e
      | .unpin e => HandleSet.erase c.pinned e
      | _ => c.pinned := by
  rcases hlimit : r.limit? c with _ | limit
  · cases r with
    | get e => exact pinned_touch c e
    | raise n owner =>
      obtain ⟨n', headroom, hraise⟩ := Request.exists_raiseCapacity c n owner
      show (c.raiseCapacity n owner).pinned = c.pinned
      rw [hraise]
    | lower n owner => rw [Request.serve, Request.lowerCapacity_of_limit?_eq_none hlimit]
    | peek | contains | erase | pin | unpin | setLoadFactor => rfl
    | _ => cases hlimit
  · obtain ⟨s, hserve, -, -, -, -, hpinned⟩ := Request.serve_of_limit? hlimit
    rw [hserve, pinned_trim, hpinned]
    cases r <;> first | rfl | cases hlimit

/-- After any run the **pinned** elements are those that the run has pinned and not unpinned since. Matching
elements are pinned and unpinned together, so it does not matter by which of them a request has named an element. -/
theorem contains_pinned_run (n : Nat) (x : Float) (hrs : ∀ r ∈ rs, r.Follows lex) :
    HandleSet.Distinct lex (run rs (new n x)).pinned ∧
      ∀ e, e.Follows lex → HandleSet.contains (run rs (new n x)).pinned e = pinnedBy rs e := by
  induction rs using List.reverseRecOn with
  | nil => exact ⟨Table.distinct_nil, fun _ _ => rfl⟩
  | append_singleton rs r ih =>
    obtain ⟨hdistinct, hcontains⟩ := ih fun q hq => hrs q (List.mem_append_left _ hq)
    have hr := hrs r (by simp)
    have hpinned : ∀ e, pinnedBy (rs ++ [r]) e = r.pins e (pinnedBy rs e) := by
      intro e
      simp [pinnedBy, List.foldl_append]
    simp only [run_concat, pinned_serve, hpinned]
    cases r with
    | pin d =>
      refine ⟨HandleSet.distinct_insert hdistinct hr, ?_⟩
      intro e he
      rw [HandleSet.contains_insert hdistinct.follows hr he, hcontains e he, Bool.or_comm]
      rfl
    | unpin d =>
      refine ⟨HandleSet.distinct_erase hdistinct hr, ?_⟩
      intro e he
      rw [HandleSet.contains_erase hdistinct hr he, hcontains e he]
      rfl
    | _ => exact ⟨hdistinct, hcontains⟩

/-! ## Overflow -/

/-- The entry is new, or it stands at or below an element that is pinned. -/
def keeps (rs : List Request) (r : Request) (e : Handle) : Bool :=
  r.batch.any (fun p => e.same p.1) || (e :: e.ancestors).any (pinnedBy rs)

/-- What a request does that has the size checked: the **oldest** entries go that are neither new nor pinned, until
the target is met or none of them is left. All of it is told from the history: which entries are live, how old they
are and which of them are spared. -/
structure EvictsOldest (lex : Lexicon) (rs : List Request) (r : Request) (c : Cache) (limit : Nat)
    (live evicted : Table Body) (after : Cache) : Prop where
  /-- the live entries are those of the request, where the last body counts, and what was there besides -/
  present : ∀ x, x.Follows lex → Table.get? live x = (Table.get? r.batch.reverse x).or (c.peek? x)
  /-- no element has two of them -/
  distinct : Table.Distinct lex live
  /-- the oldest ones come first -/
  ordered : live.Pairwise fun p q => age (usesOf (rs ++ [r])) q.1 < age (usesOf (rs ++ [r])) p.1
  /-- as long as they fit, nothing is evicted -/
  fits : live.length ≤ limit → evicted = []
  /-- else the first ones go, in order, as many as are beyond the target -/
  evicts : limit < live.length → evicted = (live.filter fun p => !keeps rs r p.1).take
    (min (live.length - { c with capacity := limit }.target) (live.countP fun p => !keeps rs r p.1))
  /-- the others stay, in their order and with their bodies -/
  survives : after.entries.reverse = live.filter fun p => p ∉ evicted
  /-- the target is met, unless too many entries are new or pinned -/
  size : limit < live.length → { c with capacity := limit }.target ≤ limit →
    after.size = max { c with capacity := limit }.target (live.countP fun p => keeps rs r p.1)
  /-- all evictions are counted -/
  counted : after.evictions = c.evictions + evicted.length

/-- The stored bodies hide the earlier ones, and of two bodies for one element the later one counts. -/
theorem peek?_storeAll_of_repeated {bodies : Table Body} (h : Table.Distinct lex c.entries)
    (hb : ∀ p ∈ bodies, p.1.Follows lex) (hx : x.Follows lex) :
    (c.storeAll bodies).peek? x = (Table.get? bodies.reverse x).or (c.peek? x) := by
  induction bodies generalizing c with
  | nil => rfl
  | cons p bodies ih =>
    have hp := hb p (List.mem_cons_self ..)
    refine (ih (distinct_store h hp) fun q hq => hb q (List.mem_cons_of_mem _ hq)).trans ?_
    rw [peek?_store h hp hx, List.reverse_cons, Table.get?_append, Option.or_assoc, Table.get?_cons]
    cases x.same p.1 <;> rfl

/-- A trim evicts only if there are more entries than the capacity allows. -/
theorem trim_fst (c : Cache) (protect : HandleSet) :
    (c.trim protect).1 = if c.size ≤ c.capacity then [] else c.victims protect := by
  rw [trim]
  split <;> rfl

/-- Evictions are counted. -/
theorem evictions_trim (c : Cache) (protect : HandleSet) :
    (c.trim protect).2.evictions = c.evictions + (c.trim protect).1.length := by
  have hsettle : ∀ (d : Cache) (evicted : Table Body), (d.settle evicted).evictions = d.evictions := by
    intro d evicted
    rw [settle]
    split
    · split <;> rfl
    · rfl
  rw [trim]
  split
  · rfl
  · simp only [hsettle, foldl_erase_fst, foldl_erase_eq]

theorem reverse_trim (h : Table.Distinct lex c.entries) (protect : HandleSet) :
    (c.trim protect).2.entries.reverse = c.entries.reverse.filter fun p => p ∉ (c.trim protect).1 := by
  rw [trim_entries h, ← List.filter_reverse]
  apply List.filter_congr
  intro p hp
  rw [Bool.eq_iff_iff, Bool.not_eq_true', decide_eq_true_iff, ← Bool.not_eq_true, not_iff_not, List.any_eq_true]
  constructor
  · rintro ⟨q, hq, hqp⟩
    rwa [← h.eq_of_mem (of_mem_trim hq).1 (List.mem_reverse.mp hp) hqp]
  · intro hp
    exact ⟨p, hp, Handle.same_refl _⟩

/-- A sublist of a list without repetitions can be taken out of it, and the length goes down by just that of the
sublist. -/
theorem length_filter_not_mem {l m : Table Body} (hl : l.Nodup) (h : m.Sublist l) :
    (l.filter fun p => p ∉ m).length = l.length - m.length := by
  have hmem : (l.filter fun p => p ∈ m).Perm m := by
    refine (List.perm_ext_iff_of_nodup (hl.filter _) (hl.sublist h)).mpr fun p => ?_
    simp only [List.mem_filter, decide_eq_true_iff, and_iff_right_iff_imp]
    exact fun hp => h.subset hp
  have hsplit := List.length_eq_countP_add_countP (fun p => decide (p ∈ m)) (l := l)
  simp only [decide_eq_true_eq, List.countP_eq_length_filter, hmem.length_eq] at hsplit
  omega

/-- An overflow leaves as many entries as the target says, or as many as cannot go. -/
theorem size_trim (h : Table.Distinct lex c.entries) (protect : HandleSet) (hover : c.capacity < c.size)
    (htarget : c.target ≤ c.capacity) :
    (c.trim protect).2.size = max c.target
      (c.entries.reverse.countP fun p => HandleSet.contains protect p.1 || c.isPinned p.1) := by
  have hevicted : (c.trim protect).1 = c.victims protect := by
    rw [trim_fst, if_neg (by omega)]
  have hsize : (c.trim protect).2.size = (c.trim protect).2.entries.reverse.length := by simp [size]
  have hsublist : (c.victims protect).Sublist c.entries.reverse :=
    (List.take_sublist ..).trans List.filter_sublist
  have hnodup : c.entries.reverse.Nodup := List.nodup_reverse.mpr h.nodup
  have hfree : (c.entries.reverse.filter fun p => !HandleSet.contains protect p.1 && !c.isPinned p.1).length =
      c.size - c.entries.reverse.countP fun p => HandleSet.contains protect p.1 || c.isPinned p.1 := by
    have hsplit := List.length_eq_countP_add_countP
      (fun p : Handle × Body => HandleSet.contains protect p.1 || c.isPinned p.1) (l := c.entries.reverse)
    rw [← List.countP_eq_length_filter]
    simp only [Bool.not_eq_true, Bool.decide_eq_false, Bool.not_or, List.length_reverse] at hsplit
    rw [size]
    omega
  have hkept : c.entries.reverse.countP (fun p => HandleSet.contains protect p.1 || c.isPinned p.1) ≤ c.size := by
    rw [size, ← List.length_reverse]
    exact List.countP_le_length
  rw [hsize, reverse_trim h, hevicted, length_filter_not_mem hnodup hsublist, victims, List.length_take, hfree,
    List.length_reverse, ← size]
  omega

/-- What a trim does to a cache whose entries stand in the order of age: it takes from the end of the list, and the
end of the list is where the oldest ones are. -/
theorem InOrder.evictsOldest {protect : HandleSet} (h : InOrder lex (usesOf (rs ++ [r])) d)
    (hpresent : ∀ x, x.Follows lex → d.peek? x = (Table.get? r.batch.reverse x).or (c.peek? x))
    (hkeeps : ∀ e, e.Follows lex → (HandleSet.contains protect e || d.isPinned e) = keeps rs r e)
    (hcapacity : d.capacity = limit) (hload : d.loadFactor = c.loadFactor) (hcount : d.evictions = c.evictions) :
    EvictsOldest lex rs r c limit d.entries.reverse (d.trim protect).1 (d.trim protect).2 := by
  have htarget : { c with capacity := limit }.target = d.target := by
    rw [target, target, hcapacity, hload]
  have hfollows : ∀ p ∈ d.entries.reverse, p.1.Follows lex := by
    intro p hp
    exact h.distinct.follows p (List.mem_reverse.mp hp)
  have hfree : (d.entries.reverse.filter fun p => !HandleSet.contains protect p.1 && !d.isPinned p.1) =
      d.entries.reverse.filter fun p => !keeps rs r p.1 := by
    apply List.filter_congr
    intro p hp
    rw [← Bool.not_or, hkeeps p.1 (hfollows p hp)]
  have hlength : d.entries.reverse.length = d.size := List.length_reverse
  have hreverse : Table.Distinct lex d.entries.reverse := by
    refine ⟨hfollows, List.pairwise_reverse.mpr (h.distinct.apart.imp_of_mem ?_)⟩
    intro p q hp hq hpq
    rw [Handle.same_comm (h.distinct.follows q hq) (h.distinct.follows p hp), hpq]
  constructor
  case present =>
    intro x hx
    rw [← hpresent x hx, Option.ext_iff]
    intro b
    rw [peek?, Table.get?_eq_some_iff hreverse hx, Table.get?_eq_some_iff h.distinct hx]
    simp only [List.mem_reverse]
  case distinct => exact hreverse
  case ordered => exact List.pairwise_reverse.mpr h.ordered
  case fits =>
    intro hle
    rw [trim_fst, if_pos (by omega)]
  case evicts =>
    intro hlt
    rw [trim_fst, if_neg (by omega), victims, hfree, htarget, hlength, List.countP_eq_length_filter]
    -- no more can be taken than there are
    rw [← List.take_eq_take_min]
  case survives => exact reverse_trim h.distinct protect
  case size =>
    intro hlt hle
    rw [htarget] at hle ⊢
    rw [size_trim h.distinct protect (by omega) (by omega)]
    congr 1
    apply List.countP_congr
    intro p hp
    rw [hkeeps p.1 (hfollows p hp)]
  case counted => rw [evictions_trim, hcount]

/-- The entries that an overflow spares are those that the history says. -/
theorem spared_eq_keeps (n : Nat) (x : Float) (hrs : ∀ r ∈ rs, r.Follows lex) (hr : r.Follows lex)
    {s : Cache} (hs : s.pinned = (run rs (new n x)).pinned) (he : e.Follows lex) :
    (HandleSet.contains (HandleSet.ofList (r.batch.map Prod.fst)) e || s.isPinned e) = keeps rs r e := by
  have hbatch : ∀ k ∈ r.batch.map Prod.fst, k.Follows lex := by
    intro k hk
    obtain ⟨p, hp, rfl⟩ := List.mem_map.mp hk
    exact hr.batch p hp
  have hpinned := (contains_pinned_run n x hrs).2
  have hancestors : e.ancestors.any (HandleSet.contains s.pinned) = e.ancestors.any (pinnedBy rs) := by
    rw [Bool.eq_iff_iff, List.any_eq_true, List.any_eq_true]
    refine exists_congr fun a => and_congr_right fun ha => ?_
    rw [hs, hpinned a (he.ancestor ha)]
  rw [HandleSet.contains_ofList hbatch he, isPinned, HandleSet.covers, hancestors, hs, hpinned e he, keeps,
    List.any_map, List.any_cons]
  rfl

/-- An element is taken out of the cache by the request. -/
def Request.erases (x : Handle) : Request → Bool
  | .erase e => x.same e
  | _ => false

/-- Where the size is not checked, **nothing is lost** but what is taken out: the requests that remain look bodies
up or take them out, and change pins or settings. -/
theorem peek?_serve (h : Table.Distinct lex c.entries) (hr : r.Follows lex) (hx : x.Follows lex)
    (hlimit : r.limit? c = none) :
    (r.serve c).2.peek? x = if r.erases x then none else c.peek? x := by
  cases r with
  | get e => exact peek?_touch h hr hx
  | erase e => exact Table.get?_erase h hr hx
  | raise n owner =>
    obtain ⟨n', headroom, hraise⟩ := Request.exists_raiseCapacity c n owner
    show (c.raiseCapacity n owner).peek? x = c.peek? x
    rw [hraise]
    rfl
  | lower n owner =>
    rw [Request.serve, Request.lowerCapacity_of_limit?_eq_none hlimit]
    rfl
  | peek | contains | pin | unpin | setLoadFactor => rfl
  | _ => cases hlimit

/-- **The oldest entries are evicted.** After any run, a request that has the size checked evicts the oldest entries
that are neither new nor pinned, as many as are beyond the target; any other request evicts none. The order in which
the cache keeps its entries is that of their ages, and the pins are those of the history, so both can be told
without looking into the cache. -/
theorem serve_evicts_oldest (n : Nat) (x : Float) (hrs : ∀ r ∈ rs, r.Follows lex) (hr : r.Follows lex) :
    match r.limit? (run rs (new n x)) with
    | some limit => ∃ live, EvictsOldest lex rs r (run rs (new n x)) limit live
        (r.serve (run rs (new n x))).1 (r.serve (run rs (new n x))).2
    | none => (r.serve (run rs (new n x))).1 = [] ∧
        (r.serve (run rs (new n x))).2.evictions = (run rs (new n x)).evictions ∧
        ∀ e, e.Follows lex → (r.serve (run rs (new n x))).2.peek? e =
          if r.erases e then none else (run rs (new n x)).peek? e := by
  have horder := inOrder_run n x hrs
  split
  · next limit hlimit =>
    obtain ⟨s, hserve, hentries, hcapacity, hload, hevictions, hpinned⟩ := Request.serve_of_limit? hlimit
    have hstored := horder.storeAll hr.batch
    have huses : (r.batch.map Prod.fst).reverse ++ usesOf rs = usesOf (rs ++ [r]) := by
      rw [Request.uses_of_limit? hlimit]
      simp [usesOf]
    have hs : InOrder lex (usesOf (rs ++ [r])) s :=
      huses ▸ ⟨hentries ▸ hstored.distinct, hentries ▸ hstored.ordered⟩
    rw [hserve]
    refine ⟨s.entries.reverse, hs.evictsOldest ?_ ?_ hcapacity hload hevictions⟩
    · intro e he
      rw [peek?, hentries]
      exact peek?_storeAll_of_repeated horder.distinct hr.batch he
    · intro e he
      exact spared_eq_keeps n x hrs hr hpinned he
  · next hlimit =>
    obtain ⟨hnone, hcount⟩ := Request.serve_of_limit?_eq_none hlimit
    exact ⟨hnone, hcount, fun e he => peek?_serve horder.distinct hr he hlimit⟩

/-- Fills a cache of four, uses the oldest entry and pins another one. -/
def filling : List Request :=
  [.putAll [(unit "b", {}), (unit "d", {}), (unit "a", {}), (unit "e", {})], .get (unit "b"), .pin (unit "a")]

/-- One entry too many costs two, so that three quarters are left. The one in use and the pinned one stay. -/
theorem serve_evicts_oldest_of_filling :
    ∃ live, EvictsOldest (fun _ => { name := "unit", openable := true }) filling (.put (unit "f") {})
      (run filling (new 4 0.75)) 4 live [(unit "d", {}), (unit "e", {})]
      (Request.serve (.put (unit "f") {}) (run filling (new 4 0.75))).2 :=
  @serve_evicts_oldest (fun _ => { name := "unit", openable := true }) (.put (unit "f") {}) filling 4 0.75
    (by decide) (by decide)

end Cache

end CodeModel
