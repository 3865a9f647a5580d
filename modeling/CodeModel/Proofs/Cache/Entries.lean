import CodeModel.Cache
import CodeModel.Proofs.Element.Distinct

/-!
# What the cache holds

What each operation of the cache does to its entries, as long as these are distinct:

* **using** an entry changes nothing but the order (`peek?_touch`);
* **storing** replaces the entry of an element and leaves the others (`peek?_store`,
  `peek?_storeAll`);
* **erasing** filters (`foldl_erase_keysWhere`);
* **trimming** filters out the evicted entries, none of which is protected or pinned (`trim_entries`,
  `of_mem_trim`).
-/

namespace CodeModel

namespace Cache

variable {lex : Lexicon} {c : Cache} {e x : Handle} {b : Body}

/-! ## Using and storing -/

/-- Using an entry puts it first, and using what is not there does nothing. -/
theorem entries_touch (c : Cache) (e : Handle) :
    (c.touch e).entries = c.entries ∧ c.peek? e = none ∨
      ∃ k b, (k, b) ∈ c.entries ∧ e.same k = true ∧
        (c.touch e).entries = (k, b) :: Table.erase c.entries e := by
  rcases h : c.entries.find? (fun p => e.same p.1) with _ | ⟨k, b⟩
  · exact .inl ⟨by simp [touch, h], by simp [peek?, Table.get?_eq_find?, h]⟩
  · refine .inr ⟨k, b, List.mem_of_find?_eq_some h, by simpa using List.find?_some h, ?_⟩
    simp [touch, h]

theorem touch_of_peek?_eq_none (h : c.peek? e = none) : c.touch e = c := by
  rw [peek?, Table.get?_eq_find?, Option.map_eq_none_iff] at h
  rw [touch, h]

/-- Using an entry twice is using it once: after the first time it is in front already. -/
theorem touch_touch (c : Cache) (e : Handle) : (c.touch e).touch e = c.touch e := by
  rcases h : c.entries.find? (fun p => e.same p.1) with _ | ⟨k, b⟩
  · have hsame : c.touch e = c := by rw [touch, h]
    rw [hsame, hsame]
  · have hk : e.same k = true := by simpa using List.find?_some h
    have hfront : c.touch e = { c with entries := (k, b) :: Table.erase c.entries e } := by rw [touch, h]
    rw [hfront, touch, List.find?_cons, hk]
    simp [Table.erase, hk]

/-- What is not there does not appear when another entry is used. -/
theorem peek?_touch_eq_none (h : c.peek? x = none) : (c.touch e).peek? x = none := by
  rcases entries_touch c e with ⟨hc, -⟩ | ⟨k, b, hm, -, hc⟩
  · rwa [peek?, hc]
  · rw [peek?, Table.get?_eq_find?, Option.map_eq_none_iff, List.find?_eq_none] at h ⊢
    intro p hp
    rw [hc] at hp
    rcases List.mem_cons.mp hp with rfl | hp
    · exact h _ hm
    · exact h p ((Table.erase_sublist c.entries e).subset hp)

theorem distinct_touch (h : Table.Distinct lex c.entries) (he : e.Follows lex) :
    Table.Distinct lex (c.touch e).entries := by
  rcases entries_touch c e with ⟨hc, -⟩ | ⟨k, b, hm, hek, hc⟩
  · rwa [hc]
  · rw [hc]
    exact Table.distinct_front h he (h.follows _ hm) hek

/-- **Using an entry** changes nothing but the order of use. So a lookup can be told from what was stored and
erased, whatever was used meanwhile. -/
theorem peek?_touch (h : Table.Distinct lex c.entries) (he : e.Follows lex) (hx : x.Follows lex) :
    (c.touch e).peek? x = c.peek? x := by
  rcases entries_touch c e with ⟨hc, -⟩ | ⟨k, b, hm, hek, hc⟩
  · rw [peek?, hc, peek?]
  · rw [peek?, hc, Table.get?_front h he (h.follows _ hm) hek hx, peek?]
    by_cases hxe : x.same e = true
    · rw [if_pos hxe, Table.get?_congr h hx he hxe, h.get?_of_mem he hm hek]
    · rw [if_neg hxe]

theorem plain_touch (h : Table.Plain lex c.entries) (he : e.Follows lex) :
    Table.Plain lex (c.touch e).entries := by
  refine ⟨distinct_touch h.toDistinct he, fun p hp => ?_⟩
  rcases entries_touch c e with ⟨hc, -⟩ | ⟨k, b, hm, -, hc⟩
  · exact h.keys p (hc ▸ hp)
  · rw [hc, Table.erase_eq_filter h.toDistinct he] at hp
    rcases List.mem_cons.mp hp with rfl | hp
    · exact h.keys _ hm
    · exact h.keys p (List.mem_filter.mp hp).1

@[simp] theorem pinned_touch (c : Cache) (e : Handle) : (c.touch e).pinned = c.pinned := by
  rw [touch]
  split <;> rfl

/-- Storing puts the entry first, in the place of the one that matches; the key that was there stays. -/
theorem entries_store (h : Table.Distinct lex c.entries) (he : e.Follows lex) (b : Body) :
    ∃ k, k.Follows lex ∧ e.same k = true ∧ (k = e ∨ k ∈ c.keys) ∧
      (c.store e b).entries = (k, b) :: Table.erase c.entries e := by
  rcases hf : c.entries.find? (fun p => e.same p.1) with _ | ⟨k, v⟩
  · exact ⟨e, he, Handle.same_refl e, .inl rfl, by simp [store, hf]⟩
  · have hm := List.mem_of_find?_eq_some hf
    exact ⟨k, h.follows _ hm, by simpa using List.find?_some hf,
      .inr (List.mem_map_of_mem hm), by simp [store, hf]⟩

theorem distinct_store (h : Table.Distinct lex c.entries) (he : e.Follows lex) :
    Table.Distinct lex (c.store e b).entries := by
  obtain ⟨k, hk, hek, -, hc⟩ := entries_store h he b
  rw [hc]
  exact Table.distinct_front h he hk hek

/-- **Storing** replaces the entry of the element, and leaves all others. What matches the element finds the new
body from then on, under whatever key it is asked for. -/
theorem peek?_store (h : Table.Distinct lex c.entries) (he : e.Follows lex) (hx : x.Follows lex) :
    (c.store e b).peek? x = if x.same e then some b else c.peek? x := by
  obtain ⟨k, hk, hek, -, hc⟩ := entries_store h he b
  rw [peek?, hc, Table.get?_front h he hk hek hx, peek?]

theorem plain_store (h : Table.Plain lex c.entries) (he : e.Plain lex) :
    Table.Plain lex (c.store e b).entries := by
  refine ⟨distinct_store h.toDistinct he.follows, fun p hp => ?_⟩
  obtain ⟨k, -, -, hk, hc⟩ := entries_store h.toDistinct he.follows b
  rw [hc, Table.erase_eq_filter h.toDistinct he.follows] at hp
  rcases List.mem_cons.mp hp with rfl | hp
  · rcases hk with rfl | hk
    · exact he
    · obtain ⟨q, hq, rfl⟩ := List.mem_map.mp hk
      exact h.keys q hq
  · exact h.keys p (List.mem_filter.mp hp).1

/-- Stores the entries of a table one after the other. -/
def storeAll (c : Cache) (bodies : Table Body) : Cache :=
  bodies.foldl (fun c p => c.store p.1 p.2) c

/-- An insertion stores everything first and checks the size once, sparing what it has stored. -/
theorem insertAll_eq (c : Cache) (bodies : Table Body) :
    c.insertAll bodies = (c.storeAll bodies).trim (HandleSet.ofList (bodies.map Prod.fst)) := rfl

@[simp] theorem pinned_storeAll (c : Cache) (bodies : Table Body) :
    (c.storeAll bodies).pinned = c.pinned := by
  induction bodies generalizing c with
  | nil => rfl
  | cons p bodies ih => exact ih (c.store p.1 p.2)

/-- Storing bodies of plain handles keeps the table plain. -/
theorem plain_storeAll {bodies : Table Body} (h : Table.Plain lex c.entries)
    (hb : ∀ p ∈ bodies, p.1.Plain lex) : Table.Plain lex (c.storeAll bodies).entries := by
  induction bodies generalizing c with
  | nil => exact h
  | cons p bodies ih =>
    exact ih (plain_store h (hb p (List.mem_cons_self ..)))
      fun q hq => hb q (List.mem_cons_of_mem _ hq)

theorem peek?_storeAll {bodies : Table Body} (h : Table.Distinct lex c.entries)
    (hb : Table.Distinct lex bodies) (hx : x.Follows lex) :
    (c.storeAll bodies).peek? x = (Table.get? bodies x).or (c.peek? x) := by
  induction bodies generalizing c with
  | nil => rfl
  | cons p bodies ih =>
    obtain ⟨k, v⟩ := p
    obtain ⟨hk, hne, hbs⟩ := Table.distinct_cons.mp hb
    refine (ih (distinct_store h hk) hbs).trans ?_
    rw [peek?_store h hk hx, Table.get?_cons]
    by_cases hxk : x.same k = true
    · have hnone : Table.get? bodies x = none := by
        refine Table.get?_eq_none_iff.mpr fun q hq => ?_
        rw [Handle.same_congr_left hx hk (hbs.follows q hq) hxk, hne q hq]
      simp [hxk, hnone]
    · simp [hxk]

/-! ## Erasing -/

theorem foldl_erase_eq (c : Cache) (ks : List Handle) :
    ks.foldl erase c = { c with entries := ks.foldl Table.erase c.entries } := by
  induction ks generalizing c with
  | nil => rfl
  | cons k ks ih => exact ih (c.erase k)

/-- **Erasing all elements with a property** filters the entries: it asks for the keys first and erases them one by
one, which comes to the same. -/
theorem foldl_erase_keysWhere (h : Table.Distinct lex c.entries) (f : Handle → Bool) :
    (c.keysWhere f).foldl erase c = { c with entries := c.entries.filter fun p => !f p.1 } := by
  have hkeys : ∀ k ∈ c.keysWhere f, ∃ p ∈ c.entries, p.1 = k ∧ f k = true := by
    intro k hk
    obtain ⟨hk, hf⟩ := List.mem_filter.mp hk
    obtain ⟨p, hp, rfl⟩ := List.mem_map.mp hk
    exact ⟨p, hp, rfl, hf⟩
  rw [foldl_erase_eq, Table.foldl_erase h _ ?_]
  · congr 1
    refine List.filter_congr fun p hp => ?_
    -- among distinct keys, one that matches `p` is the key of `p` itself
    rw [Bool.not_inj_iff, Bool.eq_iff_iff, List.any_eq_true]
    constructor
    · rintro ⟨k, hk, hkp⟩
      obtain ⟨q, hq, rfl, hf⟩ := hkeys k hk
      rwa [← h.eq_of_mem hq hp hkp]
    · intro hf
      exact ⟨p.1, List.mem_filter.mpr ⟨List.mem_map_of_mem hp, hf⟩, Handle.same_refl _⟩
  · intro k hk
    obtain ⟨p, hp, rfl, -⟩ := hkeys k hk
    exact h.follows p hp

/-! ## Trimming -/

theorem entries_settle (c : Cache) (evicted : List (Handle × Body)) :
    (c.settle evicted).entries = c.entries := by
  rw [settle]
  split
  · split <;> rfl
  · rfl

theorem pinned_settle (c : Cache) (evicted : List (Handle × Body)) :
    (c.settle evicted).pinned = c.pinned := by
  rw [settle]
  split
  · split <;> rfl
  · rfl

theorem foldl_erase_fst (c : Cache) (l : List (Handle × Body)) :
    l.foldl (fun c p => c.erase p.1) c = (l.map Prod.fst).foldl erase c := by
  rw [List.foldl_map]

theorem pinned_trim (c : Cache) (protect : HandleSet) : (c.trim protect).2.pinned = c.pinned := by
  rw [trim]
  split
  · rfl
  · simp only [pinned_settle, foldl_erase_fst, foldl_erase_eq]

/-- **Nothing protected or pinned** is ever evicted: only entries that are neither are looked at for an eviction. -/
theorem of_mem_trim {protect : HandleSet} {p : Handle × Body} (hp : p ∈ (c.trim protect).1) :
    p ∈ c.entries ∧ HandleSet.contains protect p.1 = false ∧ c.isPinned p.1 = false := by
  rw [trim] at hp
  split at hp
  · cases hp
  · obtain ⟨hm, hf⟩ := List.mem_filter.mp (List.mem_of_mem_take hp)
    exact ⟨List.mem_reverse.mp hm, by simpa using hf⟩

/-- Trimming takes out the evicted entries and no others, and leaves these in the order in which they were. -/
theorem trim_entries (h : Table.Distinct lex c.entries) (protect : HandleSet) :
    (c.trim protect).2.entries =
      c.entries.filter fun p => !(c.trim protect).1.any (·.1.same p.1) := by
  have hev : ∀ p ∈ (c.trim protect).1, p.1.Follows lex := fun p hp =>
    h.follows p (of_mem_trim hp).1
  rw [trim] at hev ⊢
  split
  · exact (List.filter_eq_self.mpr (by simp)).symm
  · rename_i hsize
    rw [if_neg hsize] at hev
    simp only [entries_settle, foldl_erase_fst, foldl_erase_eq]
    rw [Table.foldl_erase h]
    · simp [List.any_map, Function.comp_def]
    · intro k hk
      obtain ⟨p, hp, rfl⟩ := List.mem_map.mp hk
      exact hev p hp

end Cache

end CodeModel
