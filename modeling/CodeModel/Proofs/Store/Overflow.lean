import CodeModel.Proofs.Store.Moves

/-!
# Working copies and overflow

A registered working copy is pinned, and a pin protects all that is below it. Evicted elements take along
what they own. Whether the two rules fit together depends on where a body is **filed**: a shared element has
one body, under the first of its places that was stored.

* An overflow leaves all bodies that are filed **at or below** a working copy, and evicts none of them
  (`Guarded.careful`).
* So an element keeps its body if its place up to the working copy is its only one, that is, if no kind in
  between does without its parent (`Tied`).
* A **shared** element below a working copy may be filed elsewhere, and then it loses its body with the
  element that it is filed below (`shared_body_lost`).
-/

namespace CodeModel

namespace Handle

variable {lex : Lexicon} {a k o w x : Handle}

/-- Matching elements are of the same kind, with all its switches: the lexicon settles them for the name. -/
theorem kind_eq_of_same (ha : a.Follows lex) (hx : x.Follows lex) (h : a.same x = true) : a.kind = x.kind := by
  have hnode : a.node = x.node := by
    cases a with
    | root m => cases x with
      | root n => exact Node.eq_of_same ha hx h
      | child q n => exact ((same_root_child_iff ha hx.2).mp h).1
    | child p m => cases x with
      | root n => exact ((same_child_root_iff ha.2 hx).mp h).1
      | child q n => exact ((same_child_child_iff ha.2 hx.2).mp h).1
  rw [kind, kind, hnode]

/-- An openable ancestor is the owner of the element, or above it, since the owner is the nearest ancestor that can
be opened. -/
theorem eq_or_mem_ancestors_owner? (ho : k.owner? = some o) (hk : k.openable = false) (ha : a ∈ k.ancestors)
    (hopen : a.openable = true) : a = o ∨ a ∈ o.ancestors := by
  induction k with
  | root n => cases ha
  | child p n ih =>
    have hn : n.kind.openable = false := hk
    simp only [owner?, hn] at ho
    by_cases hp : p.openable = true
    · have hself : p.owner? = some p := by
        cases p <;> exact if_pos hp
      obtain rfl : p = o := Option.some.inj (hself.symm.trans ho)
      exact List.mem_cons.mp ha
    · rcases List.mem_cons.mp ha with rfl | ha
      · exact absurd hopen hp
      · exact ih ho (Bool.not_eq_true _ ▸ hp) ha

/-- The element is `w` or below it, and no kind in between does without its parent. So it has one place only, and
what matches it stands at or below `w` as well. -/
def Tied : Handle → Handle → Prop
  | .root n, w => (Handle.root n).same w = true
  | .child p n, w => (Handle.child p n).same w = true ∨ n.kind.parentIndependent = false ∧ p.Tied w

/-- A place that is tied is matched by tied places alone. -/
theorem Tied.covers (h : x.Tied w) (hx : x.Follows lex) (hk : k.Follows lex) (hw : w.Follows lex)
    (hxk : x.same k = true) : k.same w = true ∨ ∃ a ∈ k.ancestors, a.same w = true := by
  -- a match of the whole chain is a match of the places of the working copy
  have hself : x.same w = true → k.same w = true := by
    intro hxw
    rwa [← same_congr_left hx hk hw hxk]
  induction x generalizing k with
  | root n => exact .inl (hself h)
  | child p n ih =>
    rcases h with h | ⟨hn, hp⟩
    · exact .inl (hself h)
    · cases k with
      | root m =>
        obtain ⟨-, hi⟩ := (same_child_root_iff hx.2 hk).mp hxk
        rw [hn] at hi
        cases hi
      | child q m =>
        obtain ⟨-, hi | hpq⟩ := (same_child_child_iff hx.2 hk.2).mp hxk
        · rw [hn] at hi
          cases hi
        · apply Or.inr
          rcases ih hp hx.1 hk.1 hpq (fun hpw => by rwa [← same_congr_left hx.1 hk.1 hw hpq]) with hq | ⟨a, ha, haw⟩
          · exact ⟨q, List.mem_cons_self .., hq⟩
          · exact ⟨a, List.mem_cons_of_mem _ ha, haw⟩

end Handle

namespace HandleSet

/-- A set covers an element if it has the element or something above it. -/
theorem covers_iff {t : HandleSet} {e : Handle} :
    covers t e = true ↔ ∃ a ∈ e :: e.ancestors, contains t a = true := by
  simp [covers]

end HandleSet

namespace Store

variable {lex : Lexicon} {s : Store} {c : Cache} {e k o x : Handle} {m : Move} {protect : HandleSet}

/-- The body is filed at or below a working copy. -/
def guards (s : Store) (k : Handle) : Bool := HandleSet.covers s.workingCopies k

/-- The working copies are the registered elements, and what matches one of them. -/
theorem contains_workingCopies {a : Handle} :
    HandleSet.contains s.workingCopies a = true ↔ ∃ p ∈ s.registry, a.same p.1 = true := by
  simp [HandleSet.contains, workingCopies, Table.keys]

/-- What is at or below a working copy is pinned. A guarded store has a pin for every registration, and a pin covers
the tree below it. -/
theorem Guarded.isPinned (h : Guarded lex s) (hk : k.Follows lex) (hg : s.guards k = true) :
    s.cache.isPinned k = true := by
  obtain ⟨a, ha, hcontains⟩ := HandleSet.covers_iff.mp hg
  obtain ⟨p, hp, hap⟩ := contains_workingCopies.mp hcontains
  obtain ⟨q, hq, hpq⟩ := HandleSet.contains_iff.mp (h.pinned p hp)
  have haf : a.Follows lex := by
    rcases List.mem_cons.mp ha with rfl | ha
    · exact hk
    · exact hk.ancestor ha
  refine HandleSet.covers_iff.mpr ⟨a, ha, HandleSet.contains_iff.mpr ⟨q, hq, ?_⟩⟩
  exact Handle.same_trans haf (h.registry.follows p hp) (h.pins.follows q hq) hap hpq

/-- **The owner** of what is below a working copy is at or below it itself: working copies can be opened, and the
owner is the nearest element above that can be. -/
theorem Guarded.owner (h : Guarded lex s) (hk : k.Follows lex) (ho : o.Follows lex)
    (hg : s.guards k = true) (howned : k.isOwnedBy o = true) : s.guards o = true := by
  obtain ⟨hclosed, howner⟩ := (Handle.isOwnedBy_iff hk ho).mp howned
  obtain ⟨a, ha, hcontains⟩ := HandleSet.covers_iff.mp hg
  obtain ⟨p, hp, hap⟩ := contains_workingCopies.mp hcontains
  have hopen : ∀ {b : Handle}, b.Follows lex → b.same p.1 = true → b.openable = true := by
    intro b hb hbp
    rw [Handle.openable, Handle.kind_eq_of_same hb (h.registry.follows p hp) hbp]
    exact h.openable p hp
  refine HandleSet.covers_iff.mpr ⟨a, ?_, hcontains⟩
  rcases List.mem_cons.mp ha with rfl | ha
  · rw [hopen hk hap] at hclosed
    cases hclosed
  · have := Handle.eq_or_mem_ancestors_owner? howner hclosed ha (hopen (hk.ancestor ha) hap)
    exact List.mem_cons.mpr this

/-- What an overflow of a cache `c` may not do to the working copies of a store. The third part is about elements,
the second about the places where their bodies are filed; a shared element below a working copy may be filed
elsewhere. -/
structure Spares (lex : Lexicon) (s : Store) (c : Cache) (evicted : Evicted) (after : Cache) : Prop where
  /-- nothing at or below a working copy is evicted -/
  evicted : ∀ p ∈ evicted, s.guards p.1 = false
  /-- bodies that are filed there stay -/
  entries : ∀ p ∈ c.entries, s.guards p.1 = true → p ∈ after.entries
  /-- elements that are tied to a working copy keep their bodies -/
  bodies : ∀ {w x : Handle}, w ∈ s.workingCopies → x.Follows lex → x.Tied w → after.peek? x = c.peek? x

/-- **An overflow** spares what is filed at or below a working copy, and what is tied to one. Such a body is pinned,
so it is not evicted; and its owner is at or below the working copy, too, so it is not dropped with an evicted
owner. -/
theorem Guarded.spares_trim (h : Guarded lex s) (hc : Table.Distinct lex c.entries)
    (hpinned : c.pinned = s.cache.pinned) (protect : HandleSet) :
    Spares lex s c (c.trim protect).1 (s.afterEviction (c.trim protect)).2.cache := by
  have hevicted : ∀ p ∈ (c.trim protect).1, s.guards p.1 = false := by
    intro p hp
    obtain ⟨hentry, -, hunpinned⟩ := Cache.of_mem_trim hp
    rw [← Bool.not_eq_true]
    intro hg
    rw [Cache.isPinned, hpinned, ← Cache.isPinned, h.isPinned (hc.follows p hentry) hg] at hunpinned
    cases hunpinned
  have hentries : ∀ p ∈ c.entries, s.guards p.1 = true →
      p ∈ (s.afterEviction (c.trim protect)).2.cache.entries := by
    intro p hp hg
    rw [entries_afterEviction hc]
    refine List.mem_filter.mpr ⟨hp, ?_⟩
    have hlost : lostOwner (c.trim protect).1 p.1 = false := by
      apply List.any_eq_false.mpr
      intro q hq
      rw [Bool.and_eq_true]
      rintro ⟨-, howned⟩
      have hguarded := h.owner (hc.follows p hp) (hc.follows q (Cache.of_mem_trim hq).1) hg howned
      rw [hevicted q hq] at hguarded
      cases hguarded
    have hstays : (c.trim protect).1.any (·.1.same p.1) = false := by
      apply List.any_eq_false.mpr
      intro q hq hqp
      -- the evicted entry would be this one
      obtain rfl := hc.eq_of_mem (Cache.of_mem_trim hq).1 hp hqp
      rw [hevicted _ hq] at hg
      cases hg
    rw [hlost, hstays]
    rfl
  refine ⟨hevicted, hentries, ?_⟩
  intro w x hw hx htied
  have hafter : Table.Distinct lex (s.afterEviction (c.trim protect)).2.cache.entries := by
    rw [entries_afterEviction hc]
    exact hc.filter _
  obtain ⟨q, hq, rfl⟩ := List.mem_map.mp hw
  rcases hpeek : c.peek? x with _ | b
  · -- what was not there does not come
    rw [Cache.peek?, Table.get?_eq_none_iff] at hpeek ⊢
    intro p hp
    rw [entries_afterEviction hc] at hp
    exact hpeek p (List.mem_filter.mp hp).1
  · obtain ⟨k, hk, hxk⟩ := Table.exists_of_get? hpeek
    have hg : s.guards k = true := by
      rw [guards, HandleSet.covers_iff]
      rcases htied.covers hx (hc.follows _ hk) (h.registry.follows q hq) hxk with hkw | ⟨a, ha, haw⟩
      · exact ⟨k, List.mem_cons_self .., contains_workingCopies.mpr ⟨q, hq, hkw⟩⟩
      · exact ⟨a, List.mem_cons_of_mem _ ha, contains_workingCopies.mpr ⟨q, hq, haw⟩⟩
    exact hafter.get?_of_mem hx (hentries _ hk hg) hxk

/-- The move evicts nothing, or the size of a cache is checked, and then the working copies are spared. -/
def Move.Careful (lex : Lexicon) (s : Store) (m : Move) : Prop :=
  match m.overflow? s with
  | none => (m.make s).1 = []
  | some (c, _) => Spares lex s c (m.make s).1 (m.make s).2.cache

/-- **A move** of a guarded store is careful: it evicts nothing, or comes to an overflow of a cache with the pins of
the store. -/
theorem Guarded.careful (h : Guarded lex s) (hm : m.Follows lex) : m.Careful lex s := by
  rw [Move.Careful]
  split
  · next ho => exact make_of_overflow?_eq_none ho
  · next c protect ho =>
    obtain ⟨hmake, hc, hpinned⟩ := h.make_of_overflow? hm ho
    rw [hmake]
    exact h.spares_trim hc.toDistinct hpinned protect

/-- **Moves** are careful, each at the store that the ones before it lead to, since they keep stores guarded. -/
theorem Guarded.careful_run {before after ms : List Move} (h : Guarded lex s) (hms : ∀ m ∈ ms, m.Follows lex)
    (hsplit : ms = before ++ m :: after) : m.Careful lex (Store.run before s) := by
  subst hsplit
  have hbefore : Guarded lex (Store.run before s) := h.run fun n hn => hms n (List.mem_append_left _ hn)
  exact hbefore.careful (hms m (List.mem_append_right _ (List.mem_cons_self ..)))

/-! ## A shared library -/

namespace Library

/-- All elements are openable but for libraries, which do without their parents. -/
def kinds : Lexicon := fun name =>
  { name, openable := name != "library", parentIndependent := name == "library" }

/-- A file on its own. -/
def file (name : String) : Handle := Handle.top (kinds "file") (some name)

/-- The library, as a file reaches it. -/
def library (file : Handle) : Handle := file.sub (kinds "library") "lib"

/-- One file is built with the library, then another one becomes a working copy and is built with it too. -/
def moves : List Move :=
  [.commit (file "a") [(file "a", {}), (library (file "a"), {})], .enroll (file "b") 0,
    .commit (file "b") [(file "b", {}), (library (file "b"), {})]]

end Library

open Library in
/-- **A shared body is lost**: the library is below a working copy, but it is filed below the other file, and goes
with it when that is evicted, though the pin on the working copy covers the library as well. -/
theorem shared_body_lost : ¬ ∀ (lex : Lexicon) (ms : List Move) (n : Nat) (w x : Handle),
    (∀ m ∈ ms, m.Follows lex) → w ∈ (run ms { cache := Cache.new 10 1 }).workingCopies → x.Follows lex →
    w ∈ x.ancestors → ((Move.setCapacity n).make (run ms { cache := Cache.new 10 1 })).2.cache.peek? x =
      (run ms { cache := Cache.new 10 1 }).cache.peek? x := by
  intro h
  have hmoves : ∀ m ∈ moves, m.Follows kinds := by
    intro m hm
    simp only [moves, List.mem_cons, List.not_mem_nil, or_false] at hm
    rcases hm with rfl | rfl | rfl
    · exact ⟨by decide, ⟨by decide, by decide⟩, by decide⟩
    · exact ⟨by decide, by decide⟩
    · exact ⟨by decide, ⟨by decide, by decide⟩, by decide⟩
  have hpeek := h kinds moves 2 (file "b") (library (file "b")) hmoves (by decide) (by decide) (by decide)
  exact absurd hpeek (by decide)

end Store

end CodeModel
