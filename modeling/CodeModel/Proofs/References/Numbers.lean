import CodeModel.Proofs.References.Orderly

/-!
# Numbers and ends of working copies

What the books have to do with the registrations in a history, and with the calls made in it.

* Working copies are numbered in the order of their registrations, and the registered one of an element is
  its **latest** (`Numbered.turn`).
* The callback of a working copy hears of its end **once**, when it comes, and not before
  (`Farewelled.turn`).
* A turn calls those who have to be called, and nobody else (`Numbered.proper`).
-/

namespace CodeModel.References

open Session

variable {σ : Type} {lex : Lexicon} {n : Nat} {b b' : Books} {x : Handle} {id : CopyId} {c : WorkingCopy}
  {listeners : Listeners} {e : Entry σ n} {h : History σ n}

/-! ## Registrations -/

theorem registrations_cons (e : Entry σ n) (h : History σ n) :
    registrations (e :: h) = e.registration?.toList ++ registrations h := by
  rw [registrations, List.filterMap_cons]
  cases e.registration? <;> rfl

/-- The working copies are those that were registered, in order. -/
structure Numbered (lex : Lexicon) (h : History σ n) (b : Books) : Prop where
  /-- their numbers count the registrations -/
  copies : b.copies.map (fun c => (c.element, c.callback)) = (registrations h).reverse
  /-- the registered working copy of an element is its latest -/
  latest : ∀ {x id c}, x.Follows lex → b.copyOf? x = some id → b.copies[id]? = some c →
    latest? x h = some (id, c.callback)

theorem Numbered.length (hn : Numbered lex h b) : (registrations h).length = b.copies.length := by
  have hlength := congrArg List.length hn.copies
  simpa using hlength.symm

theorem map_tag_modify {f : WorkingCopy → WorkingCopy}
    (hf : ∀ c, (f c).element = c.element ∧ (f c).callback = c.callback) (copies : List WorkingCopy)
    (id : CopyId) :
    (copies.modify id f).map (fun c => (c.element, c.callback)) =
      copies.map (fun c => (c.element, c.callback)) := by
  refine List.ext_getElem? fun j => ?_
  by_cases hj : id = j <;> simp [hj, hf, Function.comp_def]

/-- A turn adds the working copy that it registers, if it registers one. -/
theorem Turn.map_tag (hturn : Turn listeners b e b') :
    b'.copies.map (fun c => (c.element, c.callback)) =
      b.copies.map (fun c => (c.element, c.callback)) ++ e.registration?.toList := by
  cases hturn with
  | notOpenable ho => simp [Entry.registration?, ho]
  | started status ho hnone => simp [Entry.registration?, ho, Books.enrolled]
  | refused ho hnone => simp [Entry.registration?, ho, Books.failed]
  | joined | acquired | kept =>
    simp [Entry.registration?, Books.retained, Books.released, WorkingCopy.retain, map_tag_modify]
  | missed | unknown | apart => simp [Entry.registration?]
  | last status hid hc hrefs =>
    simp [Entry.registration?, Books.released, Books.ended, map_tag_modify]

theorem Turn.exists_of_getElem? (hturn : Turn listeners b e b') (hc : b.copies[id]? = some c) :
    ∃ c', b'.copies[id]? = some c' ∧ c'.callback = c.callback := by
  have hlt : id < b.copies.length := (List.getElem?_eq_some_iff.mp hc).1
  have htag : (b'.copies.map fun c => (c.element, c.callback))[id]? = some (c.element, c.callback) := by
    rw [hturn.map_tag, List.getElem?_append_left (by simpa using hlt)]
    simp [hc]
  obtain ⟨c', hc', heq⟩ : ∃ c', b'.copies[id]? = some c' ∧
      (c'.element, c'.callback) = (c.element, c.callback) := by simpa using htag
  exact ⟨c', hc', (Prod.mk.inj heq).2⟩

/-- A registered working copy is one that the turn registered, or one that it left as it was. -/
theorem Orderly.of_copyOf?_turn (ho : Orderly lex n b) (hturn : Turn listeners b e b')
    (hfile : e.request.Follows lex) (hx : x.Follows lex) (hid : b'.copyOf? x = some id) :
    (∃ p, e.registration? = some p ∧ x.same p.1 = true ∧ id = b.copies.length) ∨
      b.copyOf? x = some id ∧ ∀ p, e.registration? = some p → x.same p.1 = false := by
  cases hturn with
  | notOpenable hopen => exact .inr ⟨hid, by simp [Entry.registration?, hopen]⟩
  | @started file _ callback _ status hopen hnone =>
    have hget : Table.get? (Table.insert b.registry file b.copies.length) x =
        if x.same file then some b.copies.length else b.copyOf? x :=
      Table.get?_insert ho.registry (hfile _ rfl) hx
    have hid' := hget.symm.trans hid
    by_cases hsame : x.same file = true
    · rw [if_pos hsame] at hid'
      exact .inl ⟨(file, callback), by simp [Entry.registration?, hopen], hsame,
        (Option.some.inj hid').symm⟩
    · rw [if_neg hsame] at hid'
      exact .inr ⟨hid', by simpa [Entry.registration?, hopen] using hsame⟩
  | @refused file _ _ _ _ hopen hnone =>
    -- nobody else was registered for that file
    refine .inr ⟨hid, fun p hp => ?_⟩
    obtain rfl : (file, _) = p := by simpa [Entry.registration?, hopen] using hp
    by_contra hsame
    have hxnone := ho.copyOf?_eq_none hnone (hfile _ rfl) hx (by simpa using hsame)
    cases hxnone.symm.trans hid
  | joined | acquired | missed | unknown | kept | apart =>
    exact .inr ⟨hid, by simp [Entry.registration?]⟩
  | @last file id' c status hid' hc hrefs =>
    have hget : Table.get? (Table.erase b.registry file) x =
        if x.same file then none else b.copyOf? x := Table.get?_erase ho.registry (hfile _ rfl) hx
    have hid'' := hget.symm.trans hid
    split at hid''
    · cases hid''
    · exact .inr ⟨hid'', by simp [Entry.registration?]⟩

/-- **Every turn** keeps the numbers of working copies in step with the registrations: a turn that registers adds
one to both, a failed set-up included, and any other adds none. -/
theorem Numbered.turn (hn : Numbered lex h b) (ho : Orderly lex n b) (hturn : Turn listeners b e b')
    (hfile : e.request.Follows lex) : Numbered lex (e :: h) b' := by
  refine ⟨?_, fun {x id c} hx hid hc => ?_⟩
  · rw [hturn.map_tag, hn.copies, registrations_cons, List.reverse_append]
    cases e.registration? <;> rfl
  · rcases ho.of_copyOf?_turn hturn hfile hx hid with ⟨p, hp, hsame, rfl⟩ | ⟨hid, hother⟩
    · have htag : (b'.copies.map fun c => (c.element, c.callback))[b.copies.length]? = some p := by
        rw [hturn.map_tag, hp]
        simp
      obtain rfl : (c.element, c.callback) = p := by simpa [hc] using htag
      simp [latest?, hp, hsame, hn.length]
    · obtain ⟨-, c₀, -, -, hc₀, -⟩ := ho.lookup hid
      obtain ⟨c', hc', hcallback⟩ := hturn.exists_of_getElem? hc₀
      cases hc.symm.trans hc'
      rw [hcallback, ← hn.latest hx hid hc₀, latest?]
      split
      · rename_i file callback hp
        rw [if_neg (by simp [hother _ hp])]
      · rfl

/-! ## Farewells -/

/-- Of every working copy that has come to its end, its callback has heard so once. The count goes over all calls of
the history, so it also says that nobody heard of an end that has not come. -/
structure Farewelled (h : History σ n) (b : Books) : Prop where
  /-- nobody hears of working copies that there are not -/
  bounded : ∀ p ∈ h.flatMap Entry.farewells, p.2 < b.copies.length
  /-- the callback of a working copy hears of its end when it comes, and not before -/
  once : ∀ {id c callback}, b.copies[id]? = some c → c.callback = some callback →
    (h.flatMap Entry.farewells).count (callback, id) = if c.disposed then 1 else 0

/-- A change that ends no working copy calls for no farewell. Who has been disposed of, and whose callback it was,
is the same as before. -/
theorem Farewelled.modify {f : WorkingCopy → WorkingCopy} {registry : Table CopyId} {refs : BufferId → Int}
    {size : Nat} {pinned : HandleSet} (hf : Farewelled h b) (he : e.farewells = [])
    (hsame : ∀ c, (f c).disposed = c.disposed ∧ (f c).callback = c.callback) :
    Farewelled (e :: h) ⟨registry, b.copies.modify id f, refs, size, pinned⟩ := by
  refine ⟨by simpa [he] using hf.bounded, fun {j c callback} hc hcallback => ?_⟩
  rw [List.flatMap_cons, he, List.nil_append]
  by_cases hj : id = j
  · subst hj
    obtain ⟨c₀, hc₀, rfl⟩ : ∃ c₀, b.copies[id]? = some c₀ ∧ f c₀ = c := by simpa using hc
    rw [(hsame c₀).1]
    exact hf.once hc₀ ((hsame c₀).2 ▸ hcallback)
  · exact hf.once (by simpa [hj] using hc) hcallback

/-- Nobody has heard of a working copy that is still to come: numbers are given out in turn, and the next one has
not been used in any farewell. -/
theorem Farewelled.count_length (hf : Farewelled h b) (callback : CallbackId) :
    (h.flatMap Entry.farewells).count (callback, b.copies.length) = 0 := by
  rw [List.count_eq_zero]
  exact fun hmem => absurd (hf.bounded _ hmem) (Nat.lt_irrefl _)

/-- A new working copy gets its farewell at once if it is at its end already. -/
theorem Farewelled.concat {c₀ : WorkingCopy} {registry : Table CopyId} {refs : BufferId → Int}
    {size : Nat} {pinned : HandleSet} (hf : Farewelled h b)
    (he : e.farewells = if c₀.disposed then (c₀.callback.map (·, b.copies.length)).toList else []) :
    Farewelled (e :: h) ⟨registry, b.copies ++ [c₀], refs, size, pinned⟩ := by
  have hnew : ∀ p ∈ e.farewells, p.2 = b.copies.length := by
    intro p hp
    rw [he] at hp
    split at hp
    · obtain ⟨callback, -, rfl⟩ : ∃ callback, c₀.callback = some callback ∧
        (callback, b.copies.length) = p := by simpa using hp
      rfl
    · cases hp
  refine ⟨fun p hp => ?_, fun {j c callback} hc hcallback => ?_⟩
  · rw [List.length_append, List.length_singleton]
    rcases List.mem_append.mp hp with hp | hp
    · rw [hnew p hp]
      exact Nat.lt_succ_self _
    · exact Nat.lt_succ_of_lt (hf.bounded p hp)
  · rw [List.flatMap_cons, List.count_append]
    rcases Orderly.of_getElem?_concat hc with hc | ⟨rfl, rfl⟩
    · have hlt : j < b.copies.length := (List.getElem?_eq_some_iff.mp hc).1
      have hnone : e.farewells.count (callback, j) = 0 := by
        rw [List.count_eq_zero]
        exact fun hmem => absurd (hnew _ hmem) (Nat.ne_of_lt hlt)
      rw [hnone, Nat.zero_add, hf.once hc hcallback]
    · rw [hf.count_length, he, hcallback]
      cases c.disposed <;> simp

/-- The working copy that comes to its end gets its farewell, if it has a callback, and has had none before. -/
theorem Farewelled.last {registry : Table CopyId} {refs : BufferId → Int} {size : Nat}
    {pinned : HandleSet}
    {f : WorkingCopy → WorkingCopy} (hf : Farewelled h b) (hc : b.copies[id]? = some c)
    (hlive : c.disposed = false) (hended : (f c).disposed = true) (hcallback : (f c).callback = c.callback)
    (he : e.farewells = (c.callback.map (·, id)).toList) :
    Farewelled (e :: h) ⟨registry, b.copies.modify id f, refs, size, pinned⟩ := by
  have hthis : ∀ p ∈ e.farewells, p.2 = id := by
    intro p hp
    obtain ⟨callback, -, rfl⟩ : ∃ callback, c.callback = some callback ∧ (callback, id) = p := by
      simpa [he] using hp
    rfl
  refine ⟨fun p hp => ?_, fun {j c' callback} hc' hcallback' => ?_⟩
  · rw [List.length_modify]
    rcases List.mem_append.mp hp with hp | hp
    · rw [hthis p hp]
      exact (List.getElem?_eq_some_iff.mp hc).1
    · exact hf.bounded p hp
  · rw [List.flatMap_cons, List.count_append]
    by_cases hj : id = j
    · subst hj
      obtain rfl : f c = c' := by simpa [hc] using hc'
      rw [hcallback] at hcallback'
      rw [he, hf.once hc hcallback', hcallback', hended, hlive]
      simp
    · have hnone : e.farewells.count (callback, j) = 0 := by
        rw [List.count_eq_zero]
        exact fun hmem => hj (hthis _ hmem).symm
      rw [hnone, Nat.zero_add]
      exact hf.once (by simpa [hj] using hc') hcallback'

/-- **Every turn** says farewell to the working copy that it ends, and to no other. A working copy that has ended
stays ended, so its callback is not called again. -/
theorem Farewelled.turn (hf : Farewelled h b) (ho : Orderly lex n b)
    (hturn : Turn listeners b e b') : Farewelled (e :: h) b' := by
  cases hturn with
  | notOpenable | missed | unknown | apart => exact ⟨hf.bounded, hf.once⟩
  | joined | acquired | kept => exact hf.modify rfl fun _ => ⟨rfl, rfl⟩
  | started status hopen hnone => exact hf.concat (by simp [Entry.farewells])
  | refused hopen hnone => exact hf.concat (by simp [Entry.farewells])
  | last status hid hc hrefs =>
    obtain ⟨k, c, -, -, hc', huse⟩ := ho.lookup hid
    cases hc.symm.trans hc'
    rw [Books.ended, Books.released, List.modify_modify_eq]
    exact hf.last hc huse.live rfl rfl (by simp [Entry.farewells])

/-! ## Calls -/

/-- **A turn calls** those who have to be called, and nobody else: who that is can be told from the registrations
before it. -/
theorem Numbered.proper (hn : Numbered lex h b) (hturn : Turn listeners b e b')
    (hfile : e.request.Follows lex) : e.Proper listeners h := by
  cases hturn with
  | notOpenable hopen =>
    exact ⟨by simp [Entry.farewells, Entry.ended?, hopen], by simp [Entry.turnover?], fun _ => rfl⟩
  | joined | acquired | missed | unknown | kept | apart =>
    exact ⟨by simp [Entry.farewells, Entry.ended?], by simp [Entry.turnover?], fun _ => rfl⟩
  | started status hopen hnone =>
    refine ⟨by simp [Entry.farewells, Entry.ended?], fun file hf => ⟨status, ?_⟩,
      by simp [Entry.turnover?]⟩
    cases hf
    simp [Entry.news, workingCopyEvent]
  | refused hopen hnone =>
    refine ⟨?_, by simp [Entry.turnover?], fun _ => by simp [Entry.news]⟩
    simp [Entry.farewells, Entry.ended?, hopen, hn.length]
  | last status hid hc hrefs =>
    refine ⟨?_, fun file hf => ⟨status, ?_⟩, by simp [Entry.turnover?]⟩
    · simp [Entry.farewells, Entry.ended?, hn.latest (hfile _ rfl) hid hc]
    · cases hf
      simp [Entry.news, workingCopyEvent]

end CodeModel.References
