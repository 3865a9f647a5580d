import CodeModel.Proofs.Cache.Entries
import CodeModel.Store

/-!
# Committing and closing

What a commit and a closing do to the bodies that the store has, for plain handles.

* A commit brings in **all** bodies of the batch, and of the others it keeps none that the element
  owned (`Committed`).
* The overflow that a commit may cause spares what is **pinned**, and it never leaves the body of an
  element behind whose **owner** it evicts.
* Closing takes out an element and what it owns, and nothing else (`peek?_eraseTree`).
-/

namespace CodeModel

namespace Store

variable {lex : Lexicon} {c : Cache} {e x : Handle} {b : Body} {s : Store} {bodies : Table Body}

/-! ## Dropping what an element owns -/

theorem dropOwned_eq (h : Table.Distinct lex c.entries) (o : Handle) :
    dropOwned c o = { c with entries := c.entries.filter fun p => !p.1.isOwnedBy o } :=
  Cache.foldl_erase_keysWhere h (·.isOwnedBy o)

/-- Some evicted openable element owns `x`. -/
def lostOwner (evicted : Evicted) (x : Handle) : Bool :=
  evicted.any fun p => p.1.openable && x.isOwnedBy p.1

/-- **Dependents** go with the elements that own them, which is a filter as well: whether an entry goes is told by
the elements that were evicted, and not by what was dropped before it. -/
theorem dropDependents_eq (h : Table.Distinct lex c.entries) (evicted : Evicted) :
    dropDependents c evicted =
      { c with entries := c.entries.filter fun p => !lostOwner evicted p.1 } := by
  induction evicted generalizing c with
  | nil => simp [dropDependents, lostOwner, List.filter_eq_self.mpr]
  | cons q evicted ih =>
    rw [dropDependents, List.foldl_cons, ← dropDependents]
    by_cases hq : q.1.openable = true
    · rw [if_pos hq, dropOwned_eq h, ih (h.filter _)]
      simp only [List.filter_filter]
      congr 1
      refine List.filter_congr fun p _ => ?_
      simp [lostOwner, hq, Bool.and_comm]
    · rw [if_neg hq, ih h]
      simp [lostOwner, hq]

/-- Owners can be opened. -/
theorem openable_of_isOwnedBy {o : Handle} (hx : x.Plain lex) (ho : o.Plain lex)
    (h : x.isOwnedBy o = true) : o.openable = true :=
  Handle.openable_owner? ((Handle.isOwnedBy_iff hx.follows ho.follows).mp h).2

theorem not_isOwnedBy_of_openable (h : x.openable = true) (o : Handle) : x.isOwnedBy o = false := by
  simp [Handle.isOwnedBy, h]

/-! ## Overflow -/

/-- What an overflow makes of a cache: some bodies are gone, none is changed. What is not said is which bodies are
gone; so two caches of different histories can both have shed what they liked. -/
structure Shed (lex : Lexicon) (safe : Handle → Prop) (c c' : Cache) : Prop where
  /-- keys stay plain -/
  plain : Table.Plain lex c'.entries
  /-- pins stay -/
  pinned : c'.pinned = c.pinned
  /-- what is there was there -/
  kept : ∀ {x b}, x.Plain lex → c'.peek? x = some b → c.peek? x = some b
  /-- what is safe together with its owner stays -/
  spared : ∀ {x}, x.Plain lex → safe x → (∀ o, o.Plain lex → x.isOwnedBy o = true → safe o) →
    c'.peek? x = c.peek? x
  /-- an element stays no longer than its owner -/
  owner : ∀ {x o}, x.Plain lex → o.Plain lex → x.isOwnedBy o = true → c'.contains x = true →
    c.contains o = true → c'.contains o = true

theorem Shed.refl {safe : Handle → Prop} (h : Table.Plain lex c.entries) : Shed lex safe c c :=
  ⟨h, rfl, fun _ h => h, fun _ _ _ => rfl, fun _ _ _ _ h => h⟩

/-- What is left after an overflow: what is not evicted and has not lost its owner. -/
theorem peek?_afterEviction_trim {protect : HandleSet} (h : Table.Plain lex c.entries)
    (hx : x.Plain lex) :
    (s.afterEviction (c.trim protect)).2.cache.peek? x = some b ↔
      c.peek? x = some b ∧ (∀ p ∈ (c.trim protect).1, p.1 ≠ x) ∧
        lostOwner (c.trim protect).1 x = false := by
  have htrim : Table.Plain lex (c.trim protect).2.entries := by
    rw [Cache.trim_entries h.toDistinct]
    exact h.filter _
  rw [afterEviction, dropDependents_eq htrim.toDistinct, Cache.peek?,
    (htrim.filter _).get?_eq_some_iff hx, List.mem_filter, Cache.trim_entries h.toDistinct,
    List.mem_filter, Cache.peek?, h.get?_eq_some_iff hx, and_assoc]
  refine and_congr_right fun _ => and_congr ?_ (by simp)
  rw [Bool.not_eq_true', List.any_eq_false]
  refine forall₂_congr fun p hp => ?_
  rw [(h.keys p (Cache.of_mem_trim hp).1).same_iff hx]

/-- **Overflow** spares what is protected or pinned, and takes dependents along. An entry goes for one of two
reasons: it was evicted itself, or its owner was; and neither happens to what is safe together with its owner. -/
theorem shed_trim (h : Table.Plain lex c.entries) (protect : HandleSet) :
    Shed lex (fun x => HandleSet.contains protect x = true ∨ c.isPinned x = true) c
      (s.afterEviction (c.trim protect)).2.cache := by
  have htrim : Table.Plain lex (c.trim protect).2.entries := by
    rw [Cache.trim_entries h.toDistinct]
    exact h.filter _
  refine ⟨?_, ?_, fun hx hb => ((peek?_afterEviction_trim h hx).mp hb).1, ?_, ?_⟩
  · rw [afterEviction, dropDependents_eq htrim.toDistinct]
    exact htrim.filter _
  · rw [afterEviction, dropDependents_eq htrim.toDistinct]
    exact Cache.pinned_trim c protect
  · -- neither the element nor its owner is among the evicted ones
    intro x hx hsafe howner
    have hgone : ∀ p ∈ (c.trim protect).1,
        ¬ (HandleSet.contains protect p.1 = true ∨ c.isPinned p.1 = true) := by
      intro p hp
      obtain ⟨-, hprot, hpin⟩ := Cache.of_mem_trim hp
      simp [hprot, hpin]
    rw [Option.ext_iff]
    intro b
    rw [peek?_afterEviction_trim h hx, and_iff_left]
    refine ⟨fun p hp hpx => hgone p hp (hpx ▸ hsafe), List.any_eq_false.mpr fun p hp => ?_⟩
    rw [Bool.and_eq_true]
    rintro ⟨-, hxp⟩
    exact hgone p hp (howner p.1 (h.keys p (Cache.of_mem_trim hp).1) hxp)
  · -- had the owner been evicted, its dependents would be gone
    intro x o hx ho hxo hcx hco
    obtain ⟨b, hb⟩ := Option.isSome_iff_exists.mp hcx
    obtain ⟨bo, hbo⟩ := Option.isSome_iff_exists.mp hco
    have hopen := openable_of_isOwnedBy hx ho hxo
    have hlost := ((peek?_afterEviction_trim h hx).mp hb).2.2
    refine Option.isSome_iff_exists.mpr
      ⟨bo, (peek?_afterEviction_trim h ho).mpr ⟨hbo, ?_, List.any_eq_false.mpr fun p _ => ?_⟩⟩
    · rintro p hp rfl
      have := List.any_eq_false.mp hlost p hp
      simp [hopen, hxo] at this
    · simp [not_isOwnedBy_of_openable hopen]

/-- Setting a raised capacity back may cause an overflow. What goes then goes by recency, and pinned entries stay.
-/
theorem shed_lowerCapacity (h : Table.Plain lex s.cache.entries) (n : Nat) (o : Handle) :
    Shed lex (s.cache.isPinned · = true) s.cache (s.lowerCapacity n o).2.cache := by
  rw [lowerCapacity, Cache.lowerCapacity]
  split
  · have := shed_trim (s := s) (c := { s.cache with capacity := max n 1, headroom := none }) h []
    exact ⟨this.plain, this.pinned, this.kept,
      fun hx hsafe ho => this.spared hx (.inr hsafe) fun o hp hxo => .inr (ho o hp hxo), this.owner⟩
  · exact Shed.refl h

/-! ## Commits -/

/-- What a commit of `bodies` for `e` makes of a cache: the bodies of the batch are in, the others may be gone but
not changed, and pinned ones and owners are treated with care. In what order the bodies went in, and what was
evicted for them, is left open. -/
structure Committed (lex : Lexicon) (c : Cache) (e : Handle) (bodies : Table Body) (c' : Cache) :
    Prop where
  /-- keys stay plain -/
  plain : Table.Plain lex c'.entries
  /-- pins stay -/
  pinned : c'.pinned = c.pinned
  /-- the batch goes in together with its owners -/
  brought : ∀ {x b}, x.Plain lex → Table.get? bodies x = some b →
    (∀ o, o.Plain lex → x.isOwnedBy o = true → Table.contains bodies o = true) →
      c'.peek? x = some b
  /-- what else is there was there, and is not owned by the element -/
  kept : ∀ {x b}, x.Plain lex → Table.get? bodies x = none → c'.peek? x = some b →
    c.peek? x = some b ∧ x.isOwnedBy e = false
  /-- what is pinned together with its owner stays -/
  spared : ∀ {x}, x.Plain lex → Table.get? bodies x = none → x.isOwnedBy e = false →
    c.isPinned x = true → (∀ o, o.Plain lex → x.isOwnedBy o = true → c.isPinned o = true) →
      c'.peek? x = c.peek? x
  /-- an element stays no longer than its owner -/
  owner : ∀ {x o}, x.Plain lex → o.Plain lex → x.isOwnedBy o = true → c'.contains x = true →
    c.contains o = true → c'.contains o = true

/-- The cache that a commit is about to trim. -/
def overlay (c : Cache) (e : Handle) (bodies : Table Body) : Cache :=
  ({ c with
      entries := c.entries.filter fun p => !(p.1.isOwnedBy e && !Table.contains bodies p.1)
    } : Cache).storeAll bodies

/-- A commit trims the cache that the batch was put into, sparing the batch. -/
theorem commit_eq (h : Table.Distinct lex s.cache.entries) :
    s.commit e bodies =
      s.afterEviction ((overlay s.cache e (s.arrangement.arrange bodies)).trim
        (HandleSet.ofList ((s.arrangement.arrange bodies).map Prod.fst))) := by
  rw [commit, Cache.foldl_erase_keysWhere h, Cache.insertAll_eq, overlay]
  simp only [Table.contains_perm (s.arrangement.perm bodies)]

theorem plain_overlay (h : Table.Plain lex c.entries) (hb : Table.Plain lex bodies) :
    Table.Plain lex (overlay c e bodies).entries :=
  Cache.plain_storeAll (h.filter _) hb.keys

/-- In the overlay, the bodies of the batch hide earlier ones, and what else the element owned is gone. -/
theorem peek?_overlay (h : Table.Plain lex c.entries) (hb : Table.Plain lex bodies)
    (hx : x.Plain lex) :
    (overlay c e bodies).peek? x = (Table.get? bodies x).or
      (if x.isOwnedBy e && !Table.contains bodies x then none else c.peek? x) := by
  rw [overlay, Cache.peek?_storeAll (h.filter _).toDistinct hb.toDistinct hx.follows]
  congr 1
  rw [Option.ext_iff]
  intro b
  rw [Cache.peek?, (h.filter _).get?_eq_some_iff hx, List.mem_filter, Cache.peek?]
  by_cases hstale : (x.isOwnedBy e && !Table.contains bodies x) = true
  · simp [hstale]
  · rw [if_neg hstale, h.get?_eq_some_iff hx]
    simp only [Bool.not_eq_true] at hstale
    simp [hstale]

theorem pinned_overlay (c : Cache) (e : Handle) (bodies : Table Body) :
    (overlay c e bodies).pinned = c.pinned := Cache.pinned_storeAll _ _

theorem contains_batch (hb : Table.Plain lex bodies) (hx : x.Plain lex) :
    HandleSet.contains (HandleSet.ofList (bodies.map Prod.fst)) x = Table.contains bodies x := by
  have hkeys : ∀ k ∈ bodies.map Prod.fst, k.Follows lex := by
    intro k hk
    obtain ⟨p, hp, rfl⟩ := List.mem_map.mp hk
    exact hb.follows p hp
  rw [HandleSet.contains_ofList hkeys hx.follows, Table.contains, Table.get?_eq_find?,
    Bool.eq_iff_iff]
  simp

/-- An overlay and an overflow that spares the batch make a commit of it. -/
theorem committed_of_shed {c' : Cache} (h : Table.Plain lex s.cache.entries) (hb : Table.Plain lex bodies)
    (hshed : Shed lex (fun x => HandleSet.contains (HandleSet.ofList (bodies.map Prod.fst)) x = true ∨
      (overlay s.cache e bodies).isPinned x = true) (overlay s.cache e bodies) c') :
    Committed lex s.cache e bodies c' := by
  have hpin : ∀ x, (overlay s.cache e bodies).isPinned x = s.cache.isPinned x := fun x => by
    rw [Cache.isPinned, pinned_overlay, Cache.isPinned]
  refine ⟨hshed.plain, hshed.pinned.trans (pinned_overlay ..), ?_, ?_, ?_, ?_⟩
  · -- the batch goes over what was there and is protected from the overflow
    intro x b hx hxb howned
    have hbatch : ∀ y, y.Plain lex → Table.contains bodies y = true →
        HandleSet.contains (HandleSet.ofList (bodies.map Prod.fst)) y = true ∨
          (overlay s.cache e bodies).isPinned y = true := by
      intro y hy hyb
      rw [contains_batch hb hy]
      exact .inl hyb
    rw [hshed.spared hx (hbatch x hx (by simp [Table.contains, hxb]))
      fun o ho hxo => hbatch o ho (howned o ho hxo), peek?_overlay h hb hx, hxb]
    rfl
  · intro x b hx hnone hxb
    have hover := hshed.kept hx hxb
    rw [peek?_overlay h hb hx, hnone, Option.none_or, Table.contains, hnone] at hover
    split at hover
    · cases hover
    · rename_i hne
      exact ⟨hover, by simpa using hne⟩
  · intro x hx hnone hne hpx howner
    rw [hshed.spared hx (.inr (by rwa [hpin])) fun o ho hxo => .inr (by rw [hpin, howner o ho hxo]),
      peek?_overlay h hb hx, hnone]
    simp [hne]
  · intro x o hx ho hxo hcx hco
    refine hshed.owner hx ho hxo hcx ?_
    rw [Cache.contains, peek?_overlay h hb ho,
      not_isOwnedBy_of_openable (openable_of_isOwnedBy hx ho hxo)]
    rcases Table.get? bodies o with _ | b
    · exact hco
    · rfl

theorem Committed.perm {bodies' : Table Body} {c' : Cache} (h : Committed lex c e bodies' c')
    (hb : Table.Plain lex bodies) (hp : bodies'.Perm bodies) : Committed lex c e bodies c' := by
  have hget : ∀ {x}, x.Plain lex → Table.get? bodies' x = Table.get? bodies x := fun hx => hb.get?_perm hp hx
  refine ⟨h.plain, h.pinned, fun hx hxb howner => ?_, fun hx hnone => ?_, fun hx hnone => ?_, h.owner⟩
  · refine h.brought hx ((hget hx).trans hxb) fun o ho hxo => ?_
    rw [Table.contains_perm hp]
    exact howner o ho hxo
  · exact h.kept hx ((hget hx).trans hnone)
  · exact h.spared hx ((hget hx).trans hnone)

/-- **A commit** is an overlay and an overflow that spares the batch. The arrangement of the store decides which
bodies of the batch are the most recently used ones, and thereby what a later overflow evicts; what there is after
the commit does not depend on it. -/
theorem committed_commit (h : Table.Plain lex s.cache.entries) (hb : Table.Plain lex bodies) :
    Committed lex s.cache e bodies (s.commit e bodies).2.cache := by
  have hp := s.arrangement.perm bodies
  rw [commit_eq h.toDistinct]
  refine (committed_of_shed h (hb.perm hp) ?_).perm hb hp
  exact shed_trim (plain_overlay h (hb.perm hp)) _

/-! ## Closing -/

/-- **Closing** filters out the element and what it owns. Elements that stand below it and are owned by others stay.
-/
theorem entries_eraseTree (h : Table.Distinct lex s.cache.entries) (he : e.Follows lex) :
    (s.eraseTree e).2.cache.entries =
      s.cache.entries.filter fun p => !e.same p.1 && !p.1.isOwnedBy e := by
  have howned : ∀ k ∈ s.cache.keysWhere (·.isOwnedBy e),
      ∃ p ∈ s.cache.entries, p.1 = k ∧ k.isOwnedBy e = true := by
    intro k hk
    obtain ⟨hk, hke⟩ := List.mem_filter.mp hk
    obtain ⟨p, hp, rfl⟩ := List.mem_map.mp hk
    exact ⟨p, hp, rfl, hke⟩
  have hremoved : ∀ k ∈ (s.eraseTree e).1, k ∈ s.cache.keysWhere (·.isOwnedBy e) ∨ k = e := by
    intro k hk
    simp only [eraseTree] at hk
    split at hk
    · exact (List.mem_append.mp hk).imp_right List.mem_singleton.mp
    · exact .inl hk
  have hentries : (s.eraseTree e).2.cache.entries =
      (s.eraseTree e).1.foldl Table.erase (Table.erase s.cache.entries e) := by
    simp only [eraseTree, Cache.foldl_erase_eq, Cache.erase]
  rw [hentries, Table.foldl_erase (Table.distinct_erase h he), Table.erase_eq_filter h he,
    List.filter_filter]
  · refine List.filter_congr fun p hp => ?_
    rw [Bool.and_comm]
    by_cases hep : e.same p.1 = true
    · simp [hep]
    · -- beside `e` itself, what is removed and matches `p` is the key of `p`
      congr 2
      rw [Bool.eq_iff_iff, List.any_eq_true]
      constructor
      · rintro ⟨k, hk, hkp⟩
        rcases hremoved k hk with hk | rfl
        · obtain ⟨q, hq, rfl, hqe⟩ := howned k hk
          rwa [← h.eq_of_mem hq hp hkp]
        · exact absurd hkp hep
      · intro hpe
        refine ⟨p.1, ?_, Handle.same_refl _⟩
        have hk : p.1 ∈ s.cache.keysWhere (·.isOwnedBy e) :=
          List.mem_filter.mpr ⟨List.mem_map_of_mem hp, hpe⟩
        simp only [eraseTree]
        split
        · exact List.mem_append_left _ hk
        · exact hk
  · intro k hk
    rcases hremoved k hk with hk | rfl
    · obtain ⟨q, hq, rfl, -⟩ := howned k hk
      exact h.follows q hq
    · exact he

theorem plain_eraseTree (h : Table.Plain lex s.cache.entries) (he : e.Plain lex) :
    Table.Plain lex (s.eraseTree e).2.cache.entries := by
  rw [entries_eraseTree h.toDistinct he.follows]
  exact h.filter _

/-- After closing, the element and what it owned have no body, and everything else has the one it had. -/
theorem peek?_eraseTree (h : Table.Plain lex s.cache.entries) (he : e.Plain lex)
    (hx : x.Plain lex) :
    (s.eraseTree e).2.cache.peek? x =
      if x = e ∨ x.isOwnedBy e = true then none else s.cache.peek? x := by
  rw [Option.ext_iff]
  intro b
  rw [Cache.peek?, (plain_eraseTree h he).get?_eq_some_iff hx, entries_eraseTree h.toDistinct
    he.follows, List.mem_filter, Bool.and_eq_true, Bool.not_eq_true', Bool.not_eq_true',
    ← Bool.not_eq_true, he.same_iff hx, eq_comm]
  by_cases hgone : x = e ∨ x.isOwnedBy e = true
  · rw [if_pos hgone]
    rcases hgone with rfl | hgone <;> simp_all
  · rw [if_neg hgone, Cache.peek?, h.get?_eq_some_iff hx]
    simp_all

@[simp] theorem pinned_eraseTree (s : Store) (e : Handle) :
    (s.eraseTree e).2.cache.pinned = s.cache.pinned := by
  simp only [eraseTree, Cache.foldl_erase_eq, Cache.erase]

end Store

end CodeModel
