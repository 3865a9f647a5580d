import CodeModel.Element.Table
import CodeModel.Proofs.Element.Lexicon
import Mathlib.Data.List.Induction
import Mathlib.Data.List.Nodup

/-!
# Tables with distinct keys

A table is **distinct** if its keys follow one lexicon and no two of them match. Every table that is
made by insertions is (`distinct_insert`, `distinct_ofList`). In a distinct table

* looking up finds exactly the entries that are there (`get?_eq_some_iff`);
* erasing filters (`erase_eq_filter`, `foldl_erase`);
* the order does not matter (`contains_perm`, `Plain.get?_perm`).

If the keys are **plain** as well, looking up is membership (`Plain.get?_eq_some_iff`). The caches, registries and
sets of the project are of this kind, and proofs about them use nothing else of tables.
-/

namespace CodeModel

namespace Table

variable {α : Type} {lex : Lexicon} {t : Table α} {e x : Handle} {v w : α}

/-- The keys follow the lexicon and no two of them match. It is the invariant of tables: an insertion replaces the
entry that its key matches, so that there is never a second one. -/
structure Distinct (lex : Lexicon) (t : Table α) : Prop where
  /-- the keys follow the lexicon -/
  follows : ∀ p ∈ t, p.1.Follows lex
  /-- no key matches a later one -/
  apart : t.Pairwise fun p q => p.1.same q.1 = false

theorem distinct_nil : Distinct lex ([] : Table α) := ⟨by simp, List.Pairwise.nil⟩

/-- One more entry in front is fine if it matches none of the others. -/
theorem distinct_cons {k : Handle} :
    Distinct lex ((k, v) :: t) ↔
      k.Follows lex ∧ (∀ q ∈ t, k.same q.1 = false) ∧ Distinct lex t := by
  constructor
  · intro h
    obtain ⟨hk, ht⟩ := List.pairwise_cons.mp h.apart
    exact ⟨h.follows _ (List.mem_cons_self ..), hk,
      ⟨fun p hp => h.follows p (List.mem_cons_of_mem _ hp), ht⟩⟩
  · rintro ⟨hk, hne, ht⟩
    refine ⟨?_, List.pairwise_cons.mpr ⟨hne, ht.apart⟩⟩
    intro p hp
    rcases List.mem_cons.mp hp with rfl | hp
    · exact hk
    · exact ht.follows p hp

theorem Distinct.sublist {u : Table α} (h : Distinct lex t) (hu : u.Sublist t) : Distinct lex u :=
  ⟨fun p hp => h.follows p (hu.subset hp), h.apart.sublist hu⟩

theorem Distinct.filter (h : Distinct lex t) (f : Handle × α → Bool) :
    Distinct lex (t.filter f) := h.sublist List.filter_sublist

theorem Distinct.nodup (h : Distinct lex t) : t.Nodup := by
  refine h.apart.imp ?_
  rintro p _ hp rfl
  rw [Handle.same_refl] at hp
  cases hp

/-! ## Looking up -/

theorem get?_cons (k : Handle) : get? ((k, v) :: t) e = if e.same k then some v else get? t e := rfl

/-- Looking up is finding the first entry that matches. -/
theorem get?_eq_find? (t : Table α) (e : Handle) :
    get? t e = (t.find? fun p => e.same p.1).map Prod.snd := by
  induction t with
  | nil => rfl
  | cons p t ih =>
    obtain ⟨k, w⟩ := p
    by_cases h : e.same k = true <;> simp [get?_cons, h, ih]

/-- What is not found in the first part is looked for in the second one. -/
theorem get?_append (t u : Table α) (e : Handle) : get? (t ++ u) e = (get? t e).or (get? u e) := by
  rw [get?_eq_find?, get?_eq_find?, get?_eq_find?, List.find?_append]
  cases t.find? fun p => e.same p.1 <;> rfl

/-- What is found stands under a key that matches. The key need not be the handle asked for, as the comparison is
relaxed. -/
theorem exists_of_get? (h : get? t e = some v) : ∃ k, (k, v) ∈ t ∧ e.same k = true := by
  rw [get?_eq_find?] at h
  obtain ⟨⟨k, w⟩, hf, rfl⟩ := Option.map_eq_some_iff.mp h
  exact ⟨k, List.mem_of_find?_eq_some hf, by simpa using List.find?_some hf⟩

theorem get?_eq_none_iff : get? t e = none ↔ ∀ p ∈ t, e.same p.1 = false := by
  rw [get?_eq_find?]
  simp

/-- Of the entries of a distinct table, only one can match. So an entry that matches is the one that is found,
wherever it stands. -/
theorem Distinct.get?_of_mem {k : Handle} (h : Distinct lex t) (he : e.Follows lex)
    (hm : (k, v) ∈ t) (hk : e.same k = true) : get? t e = some v := by
  induction t with
  | nil => cases hm
  | cons p t ih =>
    obtain ⟨l, w⟩ := p
    obtain ⟨hl, hne, ht⟩ := distinct_cons.mp h
    rcases List.mem_cons.mp hm with heq | hm
    · obtain ⟨rfl, rfl⟩ := Prod.mk.inj heq
      rw [get?_cons, if_pos hk]
    · have hkf := ht.follows _ hm
      have hel : ¬ e.same l = true := by
        intro hel
        have := Handle.same_trans hl he hkf (Handle.same_symm he hl hel) hk
        simp [hne _ hm] at this
      rw [get?_cons, if_neg hel, ih ht hm]

/-- **Looking up** finds exactly the entries whose keys match. There is at most one, so it does not matter where in
the table it stands. -/
theorem get?_eq_some_iff (h : Distinct lex t) (he : e.Follows lex) :
    get? t e = some v ↔ ∃ k, (k, v) ∈ t ∧ e.same k = true :=
  ⟨exists_of_get?, fun ⟨_, hm, hk⟩ => h.get?_of_mem he hm hk⟩

theorem get?_congr (h : Distinct lex t) (he : e.Follows lex) (hx : x.Follows lex)
    (hex : e.same x = true) : get? t e = get? t x := by
  induction t with
  | nil => rfl
  | cons p t ih =>
    obtain ⟨hk, -, ht⟩ := distinct_cons.mp h
    rw [get?_cons, get?_cons, ih ht, Handle.same_congr_left he hx hk hex]

/-- The keys of a distinct table that match are one and the same entry. -/
theorem Distinct.eq_of_mem {p q : Handle × α} (h : Distinct lex t) (hp : p ∈ t) (hq : q ∈ t)
    (hpq : p.1.same q.1 = true) : p = q := by
  induction t with
  | nil => cases hp
  | cons r t ih =>
    obtain ⟨hr, hne, ht⟩ := distinct_cons.mp h
    rcases List.mem_cons.mp hp with rfl | hp' <;> rcases List.mem_cons.mp hq with rfl | hq'
    · rfl
    · simp [hne q hq'] at hpq
    · have := Handle.same_symm (ht.follows p hp') hr hpq
      simp [hne p hp'] at this
    · exact ih ht hp' hq'

/-! ## Order -/

/-- The order of a distinct table does not matter for its being one: the keys follow a lexicon, where comparing is
symmetric. -/
theorem Distinct.perm {u : Table α} (h : Distinct lex t) (hu : u.Perm t) : Distinct lex u := by
  refine ⟨fun p hp => h.follows p (hu.subset hp), ?_⟩
  apply List.Nodup.pairwise_of_forall_ne (hu.nodup_iff.mpr h.nodup)
  intro p hp q hq hne
  exact Bool.eq_false_iff.mpr fun hpq => hne (h.eq_of_mem (hu.subset hp) (hu.subset hq) hpq)

/-- What a table has an entry for does not depend on its order. The value that is found may, unless the table is
distinct. -/
theorem contains_perm {u : Table α} (hu : u.Perm t) (e : Handle) : contains u e = contains t e := by
  rw [contains, contains, get?_eq_find?, get?_eq_find?, Option.isSome_map, Option.isSome_map,
    List.isSome_find?, List.isSome_find?]
  exact hu.any_eq

/-! ## Erasing -/

theorem erase_eq_filter (h : Distinct lex t) (he : e.Follows lex) :
    erase t e = t.filter fun p => !e.same p.1 := by
  induction t with
  | nil => rfl
  | cons p t ih =>
    obtain ⟨k, w⟩ := p
    obtain ⟨hk, hne, ht⟩ := distinct_cons.mp h
    by_cases hek : e.same k = true
    · have hrest : ∀ q ∈ t, (!e.same q.1) = true := by
        intro q hq
        rw [Handle.same_congr_left he hk (ht.follows q hq) hek, hne q hq]
        rfl
      simp [erase, hek, List.filter_eq_self.mpr hrest]
    · simp [erase, hek, ih ht]

theorem distinct_erase (h : Distinct lex t) (he : e.Follows lex) : Distinct lex (erase t e) := by
  rw [erase_eq_filter h he]
  exact h.filter _

/-- After erasing, nothing is found for what matches the handle, and the same as before for everything else. -/
theorem get?_erase (h : Distinct lex t) (he : e.Follows lex) (hx : x.Follows lex) :
    get? (erase t e) x = if x.same e then none else get? t x := by
  by_cases hxe : x.same e = true
  · rw [if_pos hxe, get?_eq_none_iff, erase_eq_filter h he]
    intro p hp
    obtain ⟨hp, hep⟩ := List.mem_filter.mp hp
    rw [Handle.same_congr_left hx he (h.follows p hp) hxe]
    simpa using hep
  · rw [if_neg hxe, Option.ext_iff]
    intro v
    rw [get?_eq_some_iff (distinct_erase h he) hx, get?_eq_some_iff h hx, erase_eq_filter h he]
    refine exists_congr fun k => and_congr_left fun hxk => ?_
    rw [List.mem_filter, and_iff_left_iff_imp]
    intro hk
    have hek : ¬ e.same k = true := fun hek =>
      hxe (Handle.same_trans hx (h.follows _ hk) he hxk (Handle.same_symm he (h.follows _ hk) hek))
    simpa using hek

/-- **Erasing several keys** takes out what matches any of them: since each single step is a filter, all of them
together are one. -/
theorem foldl_erase (h : Distinct lex t) (ks : List Handle) (hks : ∀ k ∈ ks, k.Follows lex) :
    ks.foldl erase t = t.filter fun p => !ks.any (·.same p.1) := by
  induction ks generalizing t with
  | nil => exact (List.filter_eq_self.mpr (by simp)).symm
  | cons k ks ih =>
    have hk := hks k (List.mem_cons_self ..)
    rw [List.foldl_cons, ih (distinct_erase h hk) fun l hl => hks l (List.mem_cons_of_mem _ hl),
      erase_eq_filter h hk, List.filter_filter]
    refine List.filter_congr fun p _ => ?_
    simp [Bool.and_comm]

/-! ## Inserting -/

theorem mem_keys_of_insert {q : Handle × α} (hq : q ∈ insert t e v) : q.1 ∈ keys t ∨ q.1 = e := by
  induction t with
  | nil =>
    obtain rfl := List.mem_singleton.mp hq
    exact .inr rfl
  | cons r t ih =>
    obtain ⟨l, u⟩ := r
    by_cases hel : e.same l = true
    · rw [insert, if_pos hel] at hq
      rcases List.mem_cons.mp hq with rfl | hq
      · exact .inl (by simp [keys])
      · exact .inl (List.mem_cons_of_mem _ (List.mem_map_of_mem hq))
    · rw [insert, if_neg hel] at hq
      rcases List.mem_cons.mp hq with rfl | hq
      · exact .inl (by simp [keys])
      · exact (ih hq).imp_left fun h => List.mem_cons_of_mem _ h

theorem erase_sublist (t : Table α) (e : Handle) : (erase t e).Sublist t := by
  induction t with
  | nil => exact .slnil
  | cons p t ih =>
    obtain ⟨k, v⟩ := p
    rw [erase]
    split
    · exact List.sublist_cons_self (k, v) t
    · exact ih.cons_cons (k, v)

theorem erase_insert_of_get?_eq_none (h : get? t e = none) : erase (insert t e v) e = t := by
  induction t with
  | nil => simp [insert, erase]
  | cons p t ih =>
    obtain ⟨k, w⟩ := p
    by_cases hek : e.same k = true
    · simp [get?_cons, hek] at h
    · rw [get?_cons, if_neg hek] at h
      simp [insert, erase, hek, ih h]

/-- **An insertion** keeps a table distinct: it replaces the entry that matches, or there is none and the new one
goes to the end. -/
theorem distinct_insert (h : Distinct lex t) (he : e.Follows lex) : Distinct lex (insert t e v) := by
  induction t with
  | nil => exact distinct_cons.mpr ⟨he, by simp, distinct_nil⟩
  | cons p t ih =>
    obtain ⟨k, w⟩ := p
    obtain ⟨hk, hne, ht⟩ := distinct_cons.mp h
    by_cases hek : e.same k = true
    · rw [insert, if_pos hek]
      exact distinct_cons.mpr ⟨hk, hne, ht⟩
    · rw [insert, if_neg hek]
      refine distinct_cons.mpr ⟨hk, ?_, ih ht⟩
      intro q hq
      rcases mem_keys_of_insert hq with hq | rfl
      · obtain ⟨r, hr, hrq⟩ := List.mem_map.mp hq
        rw [← hrq, hne r hr]
      · rw [Handle.same_comm hk he]
        exact Bool.not_eq_true _ ▸ hek

/-- After an insertion, what matches the handle finds the new value, and everything else finds what it found before.
-/
theorem get?_insert (h : Distinct lex t) (he : e.Follows lex) (hx : x.Follows lex) :
    get? (insert t e v) x = if x.same e then some v else get? t x := by
  induction t with
  | nil => rfl
  | cons p t ih =>
    obtain ⟨k, w⟩ := p
    obtain ⟨hk, -, ht⟩ := distinct_cons.mp h
    by_cases hek : e.same k = true
    · have hxk : x.same k = x.same e := by
        rw [Handle.same_comm hx hk, Handle.same_comm hx he, Handle.same_congr_left he hk hx hek]
      rw [insert, if_pos hek, get?_cons, get?_cons, hxk]
      by_cases hxe : x.same e = true <;> simp [hxe]
    · rw [insert, if_neg hek, get?_cons, get?_cons, ih ht]
      by_cases hxk : x.same k = true
      · have hxe : ¬ x.same e = true := fun hxe =>
          hek (Handle.same_trans he hx hk (Handle.same_symm hx he hxe) hxk)
        simp [hxk, hxe]
      · simp [hxk]

/-! ## Moving to the front -/

/-- A new first entry in the place of the one that matches, as when an element is used: it goes to the front, and
there is no other entry for it. -/
theorem distinct_front {k : Handle} (h : Distinct lex t) (he : e.Follows lex) (hk : k.Follows lex)
    (hek : e.same k = true) : Distinct lex ((k, v) :: erase t e) := by
  refine distinct_cons.mpr ⟨hk, ?_, distinct_erase h he⟩
  intro q hq
  rw [erase_eq_filter h he] at hq
  obtain ⟨hq, heq⟩ := List.mem_filter.mp hq
  rw [← Handle.same_congr_left he hk (h.follows q hq) hek]
  simpa using heq

/-- Where the entry that matches is replaced by a first one, all other lookups are as before. -/
theorem get?_front {k : Handle} (h : Distinct lex t) (he : e.Follows lex) (hk : k.Follows lex)
    (hek : e.same k = true) (hx : x.Follows lex) :
    get? ((k, v) :: erase t e) x = if x.same e then some v else get? t x := by
  have hxk : x.same k = x.same e := by
    rw [Handle.same_comm hx hk, Handle.same_comm hx he, Handle.same_congr_left he hk hx hek]
  rw [get?_cons, hxk, get?_erase h he hx]
  by_cases hxe : x.same e = true <;> simp [hxe]

/-! ## Tables made of lists -/

/-- A table that is made of a list is made by inserting its last entry last. -/
theorem ofList_concat (l : List (Handle × α)) (p : Handle × α) :
    ofList (l ++ [p]) = insert (ofList l) p.1 p.2 := by
  simp [ofList, List.foldl_append]

/-- A table that is made of a list is distinct, whatever the list repeats. -/
theorem distinct_ofList (l : List (Handle × α)) (hl : ∀ p ∈ l, p.1.Follows lex) :
    Distinct lex (ofList l) := by
  induction l using List.reverseRecOn with
  | nil => exact distinct_nil
  | append_singleton l p ih =>
    rw [ofList_concat]
    exact distinct_insert (ih fun q hq => hl q (List.mem_append_left _ hq)) (hl p (by simp))

/-- A value of a table comes from the list it was made of, though not every value of the list gets into the table.
-/
theorem exists_of_get?_ofList {l : List (Handle × α)} (hl : ∀ p ∈ l, p.1.Follows lex)
    (hx : x.Follows lex) (h : get? (ofList l) x = some v) : ∃ k, (k, v) ∈ l ∧ x.same k = true := by
  induction l using List.reverseRecOn with
  | nil => cases h
  | append_singleton l p ih =>
    have hl' : ∀ q ∈ l, q.1.Follows lex := fun q hq => hl q (List.mem_append_left _ hq)
    rw [ofList_concat, get?_insert (distinct_ofList l hl') (hl p (by simp)) hx] at h
    by_cases hxp : x.same p.1 = true
    · rw [if_pos hxp] at h
      obtain rfl := Option.some.inj h
      exact ⟨p.1, by simp, hxp⟩
    · rw [if_neg hxp] at h
      obtain ⟨k, hk, hxk⟩ := ih hl' h
      exact ⟨k, List.mem_append_left _ hk, hxk⟩

/-! ## Plain keys -/

/-- A distinct table whose keys are plain: matching is equality, so it is a finite map. -/
structure Plain (lex : Lexicon) (t : Table α) : Prop extends Distinct lex t where
  /-- the keys are plain -/
  keys : ∀ p ∈ t, p.1.Plain lex

theorem plain_nil : Plain lex ([] : Table α) := ⟨distinct_nil, by simp⟩

theorem Plain.filter (h : Plain lex t) (f : Handle × α → Bool) : Plain lex (t.filter f) :=
  ⟨h.toDistinct.filter f, fun p hp => h.keys p (List.mem_filter.mp hp).1⟩

theorem Plain.perm {u : Table α} (h : Plain lex t) (hu : u.Perm t) : Plain lex u :=
  ⟨h.toDistinct.perm hu, fun p hp => h.keys p (hu.subset hp)⟩

theorem Plain.get?_eq_some_iff (h : Plain lex t) (hx : x.Plain lex) :
    get? t x = some v ↔ (x, v) ∈ t := by
  rw [Table.get?_eq_some_iff h.toDistinct hx.follows]
  constructor
  · rintro ⟨k, hk, hxk⟩
    rwa [(hx.same_iff (h.keys _ hk)).mp hxk]
  · intro hm
    exact ⟨x, hm, Handle.same_refl x⟩

/-- **Looking up** does not depend on the order of a plain table, for it is membership. So what a build makes can be
put into a cache in any order. -/
theorem Plain.get?_perm {u : Table α} (h : Plain lex t) (hu : u.Perm t) (hx : x.Plain lex) :
    get? u x = get? t x := by
  rw [Option.ext_iff]
  intro v
  rw [(h.perm hu).get?_eq_some_iff hx, h.get?_eq_some_iff hx, hu.mem_iff]

/-- In a plain table an insertion is seen at its own key and nowhere else. -/
theorem Plain.get?_insert (h : Plain lex t) (he : e.Plain lex) (hx : x.Plain lex) :
    get? (insert t e v) x = if x = e then some v else get? t x := by
  rw [Table.get?_insert h.toDistinct he.follows hx.follows]
  simp [hx.same_iff he]

/-- In a plain table erasing is seen at the erased key and nowhere else. -/
theorem Plain.get?_erase (h : Plain lex t) (he : e.Plain lex) (hx : x.Plain lex) :
    get? (erase t e) x = if x = e then none else get? t x := by
  rw [Table.get?_erase h.toDistinct he.follows hx.follows]
  simp [hx.same_iff he]

theorem Plain.insert (h : Plain lex t) (he : e.Plain lex) : Plain lex (insert t e v) := by
  refine ⟨distinct_insert h.toDistinct he.follows, fun q hq => ?_⟩
  rcases mem_keys_of_insert hq with hq | rfl
  · obtain ⟨r, hr, hrq⟩ := List.mem_map.mp hq
    exact hrq ▸ h.keys r hr
  · exact he

theorem Plain.erase (h : Plain lex t) (he : e.Plain lex) : Plain lex (erase t e) := by
  rw [erase_eq_filter h.toDistinct he.follows]
  exact h.filter _

theorem plain_ofList (l : List (Handle × α)) (hl : ∀ p ∈ l, p.1.Plain lex) :
    Plain lex (ofList l) := by
  induction l using List.reverseRecOn with
  | nil => exact ⟨distinct_nil, by simp [ofList]⟩
  | append_singleton l p ih =>
    rw [ofList_concat]
    exact (ih fun q hq => hl q (List.mem_append_left _ hq)).insert (hl p (by simp))

end Table

namespace HandleSet

variable {lex : Lexicon} {s : HandleSet} {e x : Handle}

/-- A set contains what matches one of its members, so it may contain handles that were never put in. -/
theorem contains_iff : contains s x = true ↔ ∃ k ∈ s, x.same k = true := by
  simp [contains]

/-- The keys of a table are the elements that it has an entry for. -/
theorem contains_keys {α : Type} (t : Table α) (e : Handle) :
    contains (Table.keys t) e = Table.contains t e := by
  rw [Table.contains, Table.get?_eq_find?, Bool.eq_iff_iff]
  simp [contains, Table.keys]

/-- The keys of a table lose what the table loses. -/
theorem erase_keys {α : Type} (t : Table α) (e : Handle) :
    erase (Table.keys t) e = Table.keys (Table.erase t e) := by
  induction t with
  | nil => rfl
  | cons p t ih =>
    obtain ⟨k, v⟩ := p
    simp only [erase, Table.keys, List.map_cons] at ih ⊢
    by_cases hek : e.same k = true
    · simp [Table.erase, hek]
    · simp [Table.erase, hek, ih]

theorem erase_insert_of_not_contains (h : contains s e = false) : erase (insert s e) e = s := by
  have hany : ¬ s.any (e.same ·) = true := by rw [← contains, h]; simp
  rw [insert, if_neg (by rw [h]; simp), erase, List.eraseP_append, if_neg hany]
  simp

/-- After an addition, a set contains what it contained before and what matches the new member. -/
theorem contains_insert (hs : ∀ k ∈ s, k.Follows lex) (he : e.Follows lex) (hx : x.Follows lex) :
    contains (insert s e) x = (x.same e || contains s x) := by
  by_cases h : contains s e = true
  · rw [insert, if_pos h]
    by_cases hxe : x.same e = true
    · obtain ⟨k, hk, hek⟩ := contains_iff.mp h
      have hxk := Handle.same_trans hx he (hs k hk) hxe hek
      simp [hxe, contains_iff.mpr ⟨k, hk, hxk⟩]
    · simp [hxe]
  · rw [insert, if_neg h]
    simp [contains, Bool.or_comm]

/-- What is in a set after an addition was there before, or is the handle that was added. -/
theorem mem_of_mem_insert (h : x ∈ insert s e) : x ∈ s ∨ x = e := by
  rw [insert] at h
  split at h
  · exact .inl h
  · exact (List.mem_append.mp h).imp_right List.mem_singleton.mp

/-- A set that is made of a list is made by adding its last handle last. -/
theorem ofList_concat (l : List Handle) (e : Handle) : ofList (l ++ [e]) = insert (ofList l) e := by
  simp [ofList, List.foldl_append]

/-- A set has no handle that it was not made of, though not every handle of the list gets into it. -/
theorem mem_of_mem_ofList {l : List Handle} (h : x ∈ ofList l) : x ∈ l := by
  induction l using List.reverseRecOn with
  | nil => cases h
  | append_singleton l e ih =>
    rw [ofList_concat] at h
    rw [List.mem_append, List.mem_singleton]
    exact (mem_of_mem_insert h).imp_left ih

/-- A set has what matches one of the handles it was made of, also if some of them were left out for matching
earlier ones. -/
theorem contains_ofList {l : List Handle} (hl : ∀ k ∈ l, k.Follows lex) (hx : x.Follows lex) :
    contains (ofList l) x = l.any (x.same ·) := by
  induction l using List.reverseRecOn with
  | nil => rfl
  | append_singleton l e ih =>
    have hl' : ∀ k ∈ l, k.Follows lex := fun k hk => hl k (List.mem_append_left _ hk)
    have hs : ∀ k ∈ ofList l, k.Follows lex := fun k hk => hl' k (mem_of_mem_ofList hk)
    rw [ofList_concat, contains_insert hs (hl e (by simp)) hx, ih hl', List.any_append, Bool.or_comm]
    simp

/-- The members follow the lexicon and no two of them match. -/
def Distinct (lex : Lexicon) (s : HandleSet) : Prop := Table.Distinct lex (s.map (·, ()))

theorem keys_map_unit (s : HandleSet) : Table.keys (s.map (·, ())) = s := by
  simp [Table.keys, Function.comp_def]

theorem Distinct.follows (h : Distinct lex s) : ∀ k ∈ s, k.Follows lex := by
  intro k hk
  exact Table.Distinct.follows h (k, ()) (List.mem_map_of_mem hk)

theorem distinct_insert (h : Distinct lex s) (he : e.Follows lex) : Distinct lex (insert s e) := by
  have hinsert : (insert s e).map (·, ()) = Table.insert (s.map (·, ())) e () ∨ insert s e = s := by
    rw [insert]
    split
    · exact .inr rfl
    · next hne =>
      refine .inl ?_
      rw [← keys_map_unit s, contains_keys, Bool.not_eq_true] at hne
      rw [Table.insert_of_not_contains () hne]
      simp
  rcases hinsert with hinsert | hinsert
  · rw [Distinct, hinsert]
    exact Table.distinct_insert h he
  · rwa [hinsert]

theorem map_erase (s : HandleSet) (e : Handle) :
    (erase s e).map (·, ()) = Table.erase (s.map (·, ())) e := by
  induction s with
  | nil => rfl
  | cons k s ih =>
    simp only [erase] at ih
    by_cases hek : e.same k = true
    · simp [erase, Table.erase, hek]
    · simp [erase, Table.erase, hek, ih]

theorem distinct_erase (h : Distinct lex s) (he : e.Follows lex) : Distinct lex (erase s e) := by
  rw [Distinct, map_erase]
  exact Table.distinct_erase h he

/-- Taking out a member takes out all that it matches, since handles of one lexicon that match a third one match
each other. -/
theorem contains_erase (h : Distinct lex s) (he : e.Follows lex) (hx : x.Follows lex) :
    contains (erase s e) x = (contains s x && !x.same e) := by
  have hkeys : ∀ s : HandleSet, contains s x = Table.contains (s.map (·, ())) x := by
    intro s
    rw [← contains_keys, keys_map_unit]
  rw [hkeys, hkeys, map_erase, Table.contains, Table.get?_erase h he hx, Table.contains]
  cases x.same e <;> simp

/-- In a set of plain handles, adding a handle adds it and nothing else. -/
theorem mem_insert (hs : ∀ k ∈ s, k.Plain lex) (he : e.Plain lex) :
    x ∈ insert s e ↔ x ∈ s ∨ x = e := by
  by_cases h : contains s e = true
  · rw [insert, if_pos h, iff_self_or]
    rintro rfl
    obtain ⟨k, hk, hek⟩ := contains_iff.mp h
    exact (he.same_iff (hs k hk)).mp hek ▸ hk
  · rw [insert, if_neg h, List.mem_append, List.mem_singleton]

/-- In a set of plain handles, taking out a handle leaves the others. -/
theorem mem_erase_of_ne (hs : ∀ k ∈ s, k.Plain lex) (he : e.Plain lex) (hx : x ∈ s) (hne : x ≠ e) :
    x ∈ erase s e := by
  refine (List.mem_eraseP_of_neg fun hsame => hne ?_).mpr hx
  exact ((he.same_iff (hs x hx)).mp hsame).symm

theorem mem_of_mem_erase (hx : x ∈ erase s e) : x ∈ s := List.mem_of_mem_eraseP hx

end HandleSet

end CodeModel
