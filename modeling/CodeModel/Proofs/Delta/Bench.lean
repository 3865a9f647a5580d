import CodeModel.Proofs.Delta.Regular

/-!
# A bench of deltas and builders

Deltas and builders side by side, and every way to make and change them.

* A task that **fails** leaves everything as it was (`perform_of_error`).
* Whatever was done, every node of every delta is **well formed** (`wellFormed_run`): the parts of a
  tree that stand for more than themselves say so, and nothing is said twice or in the wrong place.

That the trees on the bench are regular is kept by every task (`isRegular_perform`), and all else follows
from it.
-/

namespace CodeModel

namespace Delta

open Handle

variable {lex : Lexicon} {e : Handle} {c d n : Delta}

/-! ## Well-formed nodes -/

/-- **A well-formed node**, seen without regard to any lexicon: what clients may rely on when they walk a delta, in
terms of what they can see of it. -/
structure WellFormed (d : Delta) : Prop where
  /-- an element that came or went as a whole stands for all below it -/
  whole : d.isWhole = true → d.children = []
  /-- whoever has children is changed and says so -/
  changed : d.children ≠ [] → d.status = .changed ∧ d.flags.contains Flags.children = true
  /-- children say something -/
  telling : ∀ c ∈ d.children, c.status ≠ .unchanged
  /-- nothing reported, nothing there -/
  blank : d.status = .unchanged → d.flags = ∅ ∧ d.movedFrom = none ∧ d.movedTo = none ∧
    d.children = [] ∧ d.markers = [] ∧ d.resources = []
  /-- so it is the status that tells whether there is anything at all -/
  empty : d.isEmpty = true ↔ d.status = .unchanged
  /-- every child is found under its element -/
  stored : ∀ c ∈ d.children, about? d.children c.element = some c
  /-- children are strictly below the node's element -/
  parent : ∀ c ∈ d.children, ∃ p, c.element.parent? = some p ∧ p.sameChain d.element = true
  /-- no two children are strictly the same -/
  apart : d.children.Pairwise fun c k => c.element.sameChain k.element = false
  /-- an element that came from another place says so -/
  movedFrom : d.movedFrom.isSome = true → d.flags.contains Flags.movedFrom = true
  /-- an element that went to another place says so -/
  movedTo : d.movedTo.isSome = true → d.flags.contains Flags.movedTo = true

/-- Moves are told by flags. -/
structure Flagged (d : Delta) : Prop where
  /-- a move from another place is -/
  movedFrom : d.movedFrom.isSome = true → d.flags ∪ Flags.movedFrom = d.flags
  /-- a move to another place is -/
  movedTo : d.movedTo.isSome = true → d.flags ∪ Flags.movedTo = d.flags

/-- That moves are told by flags is kept by composition: flags and moves are joined together. -/
theorem lasting_flagged : Lasting Flagged where
  blank e := ⟨by simp, by simp⟩
  field _ _ _ h := ⟨h.movedFrom, h.movedTo⟩
  grow f h := by
    refine ⟨fun hm => ?_, fun hm => ?_⟩
    · rw [Flags.union_right_comm, h.movedFrom hm]
    · rw [Flags.union_right_comm, h.movedTo hm]
  join {d k} hd hk := by
    refine ⟨fun hm => ?_, fun hm => ?_⟩
    · rcases (by simpa [joinNode] using hm : k.movedFrom.isSome = true ∨ d.movedFrom.isSome = true)
        with hm | hm
      · rw [joinNode, Flags.union_assoc, hk.movedFrom hm]
      · rw [joinNode, Flags.union_right_comm, hd.movedFrom hm]
    · rcases (by simpa [joinNode] using hm : k.movedTo.isSome = true ∨ d.movedTo.isSome = true)
        with hm | hm
      · rw [joinNode, Flags.union_assoc, hk.movedTo hm]
      · rw [joinNode, Flags.union_right_comm, hd.movedTo hm]

theorem flagged_toDelta (r : Report) : Flagged r.toDelta := by
  cases r <;> exact ⟨by simp [Report.toDelta, Flags.union_self], by simp [Report.toDelta, Flags.union_self]⟩

theorem Regular.wellFormed (h : Regular lex Flagged d) : WellFormed d := by
  have hsib := h.tidy.siblings
  refine ⟨fun hw => h.children_eq_nil fun hs => ?_, fun hc => ?_, h.tidy.telling, fun hs => ?_,
    h.tidy.isEmpty_iff, fun c hc => ?_, fun c hc => ?_, ?_, fun hm => ?_, fun hm => ?_⟩
  · rw [isWhole, hs] at hw
    cases hw
  · rw [Flags.contains_iff]
    exact h.tidy.changed hc
  · rw [h.tidy.blank hs]
    exact ⟨rfl, rfl, rfl, rfl, rfl, rfl⟩
  · exact about?_of_mem hsib ⟨hsib.follows c hc, hsib.parent c hc⟩ hc rfl
  · exact ⟨d.element, hsib.parent c hc, sameChain_refl _⟩
  · refine hsib.apart.imp_of_mem fun {c k} hc hk hne => ?_
    rw [← Bool.not_eq_true, sameChain_iff (hsib.follows c hc) (hsib.follows k hk)]
    exact hne
  · rw [Flags.contains_iff]
    exact h.own.movedFrom hm
  · rw [Flags.contains_iff]
    exact h.own.movedTo hm

end Delta

/-! ## The bench -/

/-- The deltas and the builders that were made so far. -/
structure Bench where
  /-- The deltas, in the order in which they were made. -/
  deltas : List Delta := []
  /-- The builders, in the order in which they were made. -/
  builders : List Builder := []

/-- What can be done at the bench; deltas and builders go by their numbers. -/
inductive Task where
  /-- Make an empty delta. -/
  | delta (root : Handle)
  /-- Make a builder. -/
  | builder (root : Handle)
  /-- Report something to a builder. -/
  | report (builder : Nat) (r : Report)
  /-- Take the delta that a builder made. -/
  | build (builder : Nat)
  /-- Take the part of a delta that is about one element. -/
  | part (delta : Nat) (element : Handle)
  /-- Merge a delta into another one. -/
  | merge (delta incoming : Nat)
  /-- Copy a delta to another one. -/
  | copy (delta source : Nat) (deep : Bool)

/-- The handles that a task brings in follow the lexicon. -/
def Task.Follows (lex : Lexicon) : Task → Prop
  | .delta root | .builder root => root.Follows lex
  | .report _ r => r.element.Follows lex
  | .build _ | .part _ _ | .merge _ _ | .copy _ _ _ => True

instance Task.decidableFollows (lex : Lexicon) : (t : Task) → Decidable (t.Follows lex)
  | .delta root | .builder root => inferInstanceAs (Decidable (root.Follows lex))
  | .report _ r => inferInstanceAs (Decidable (r.element.Follows lex))
  | .build _ | .part _ _ | .merge _ _ | .copy _ _ _ => inferInstanceAs (Decidable True)

namespace Bench

open Delta

variable {lex : Lexicon} {bench : Bench} {t : Task} {tasks : List Task}

/-- Changes one member of a list, if there is one with that number and the change does not fail. -/
def revise {α : Type} (l : List α) (i : Nat) (change : α → Except Error α) : Except Error Unit × List α :=
  match l[i]?.map change with
  | some (.ok a) => (.ok (), l.set i a)
  | some (.error e) => (.error e, l)
  | none => (.ok (), l)

/-- Changes one delta by what another one says. -/
def reviseBy (bench : Bench) (i j : Nat) (change : Delta → Delta → Except Error Delta) :
    Except Error Unit × Bench :=
  match bench.deltas[j]? with
  | some source =>
    let (outcome, deltas) := revise bench.deltas i fun d => change d source
    (outcome, { bench with deltas })
  | none => (.ok (), bench)

/-- Does one task. -/
def perform (bench : Bench) : Task → Except Error Unit × Bench
  | .delta root => (.ok (), { bench with deltas := bench.deltas ++ [{ element := root }] })
  | .builder root => (.ok (), { bench with builders := bench.builders ++ [Builder.new root] })
  | .report i r =>
    let (outcome, builders) := revise bench.builders i (·.report r)
    (outcome, { bench with builders })
  | .build i => (.ok (), { bench with deltas := bench.deltas ++ (bench.builders[i]?.map (·.delta)).toList })
  | .part i e =>
    (.ok (), { bench with deltas := bench.deltas ++ (bench.deltas[i]?.bind (·.find? e)).toList })
  | .merge i j => bench.reviseBy i j fun d incoming => d.merge incoming
  | .copy i j deep => bench.reviseBy i j fun d source => d.copy source deep

/-- Does one task after the other; one that fails does not keep the others from being done. -/
def run (bench : Bench) (tasks : List Task) : Bench := tasks.foldl (fun bench t => (bench.perform t).2) bench

/-- The trees on the bench. -/
def trees (bench : Bench) : List Delta := bench.deltas ++ bench.builders.map (·.delta)

/-! ## Failures -/

/-- A change that fails leaves the list as it was. -/
theorem revise_of_error {α : Type} {l : List α} {i : Nat} {change : α → Except Error α}
    (h : (revise l i change).1.isOk = false) : (revise l i change).2 = l := by
  unfold revise at h ⊢
  split at h
  · cases h
  · rfl
  · cases h

theorem reviseBy_of_error {i j : Nat} {change : Delta → Delta → Except Error Delta}
    (h : (bench.reviseBy i j change).1.isOk = false) : (bench.reviseBy i j change).2 = bench := by
  unfold reviseBy at h ⊢
  split at h
  · exact congrArg (fun deltas => { bench with deltas }) (revise_of_error h)
  · cases h

/-- **A task that fails** leaves everything as it was: a failing report, merge or copy has made its checks before it
changes anything. -/
theorem perform_of_error (h : (bench.perform t).1.isOk = false) :
    (bench.perform t).2 = bench := by
  cases t with
  | report i r => exact congrArg (fun builders => { bench with builders }) (revise_of_error h)
  | merge i j => exact reviseBy_of_error h
  | copy i j deep => exact reviseBy_of_error h
  | delta root => cases h
  | builder root => cases h
  | build i => cases h
  | part i e => cases h

/-! ## The invariant -/

/-- The trees of the deltas and of the builders are regular. -/
structure IsRegular (lex : Lexicon) (bench : Bench) : Prop where
  /-- those of the deltas are -/
  deltas : ∀ d ∈ bench.deltas, Regular lex Flagged d
  /-- those of the builders are -/
  builders : ∀ b ∈ bench.builders, Regular lex Flagged b.delta

/-- A change that keeps a property of the members keeps it along the list. -/
theorem forall_mem_revise {α : Type} {Q : α → Prop} {l : List α} {change : α → Except Error α}
    (hl : ∀ a ∈ l, Q a) (hchange : ∀ a ∈ l, ∀ a', change a = .ok a' → Q a') (i : Nat) :
    ∀ a ∈ (revise l i change).2, Q a := by
  unfold revise
  split
  · rename_i a' ha'
    obtain ⟨a, ha, hok⟩ := Option.map_eq_some_iff.mp ha'
    intro x hx
    rcases List.mem_or_eq_of_mem_set hx with hx | rfl
    · exact hl x hx
    · exact hchange a (List.mem_of_getElem? ha) x hok
  · exact hl
  · exact hl

theorem isRegular_reviseBy {change : Delta → Delta → Except Error Delta} (h : bench.IsRegular lex)
    (hchange : ∀ {d source d' : Delta}, Regular lex Flagged d → Regular lex Flagged source →
      change d source = .ok d' → Regular lex Flagged d') (i j : Nat) :
    (bench.reviseBy i j change).2.IsRegular lex := by
  unfold reviseBy
  split
  · rename_i source hsource
    have hregular := h.deltas source (List.mem_of_getElem? hsource)
    exact ⟨forall_mem_revise h.deltas (fun d hd d' => hchange (h.deltas d hd) hregular) i, h.builders⟩
  · exact h

/-- **Every task** keeps the trees on the bench regular. The tasks are looked at one by one; each of them makes an
empty tree, takes one from another place, or changes one by reporting, merging or copying. -/
theorem isRegular_perform (h : bench.IsRegular lex) (ht : t.Follows lex) :
    (bench.perform t).2.IsRegular lex := by
  cases t with
  | delta root =>
    have hnew : Regular lex Flagged (Builder.new root).delta := .blank lasting_flagged ht
    exact ⟨List.forall_mem_append.mpr ⟨h.deltas, List.forall_mem_singleton.mpr hnew⟩, h.builders⟩
  | builder root =>
    have hnew : Regular lex Flagged (Builder.new root).delta := .blank lasting_flagged ht
    exact ⟨h.deltas, List.forall_mem_append.mpr ⟨h.builders, List.forall_mem_singleton.mpr hnew⟩⟩
  | report i r =>
    exact ⟨h.deltas, forall_mem_revise h.builders (fun b hb b' hok =>
      (h.builders b hb).report lasting_flagged ht (flagged_toDelta r) hok) i⟩
  | build i =>
    refine ⟨fun d hd => ?_, h.builders⟩
    rcases List.mem_append.mp hd with hd | hd
    · exact h.deltas d hd
    · obtain ⟨b, hb, rfl⟩ := Option.map_eq_some_iff.mp (Option.mem_toList.mp hd)
      exact h.builders b (List.mem_of_getElem? hb)
  | part i e =>
    refine ⟨fun d hd => ?_, h.builders⟩
    rcases List.mem_append.mp hd with hd | hd
    · exact h.deltas d hd
    · obtain ⟨whole, hwhole, hfind⟩ := Option.bind_eq_some_iff.mp (Option.mem_toList.mp hd)
      exact (h.deltas whole (List.mem_of_getElem? hwhole)).part (part_of_find? hfind)
  | merge i j => exact isRegular_reviseBy h (fun hd hs => hd.merge lasting_flagged hs) i j
  | copy i j deep => exact isRegular_reviseBy h (fun hd hs => hd.copy lasting_flagged hs) i j

/-- All runs leave regular trees on the bench, by induction on the tasks. -/
theorem isRegular_run (h : bench.IsRegular lex) (ht : ∀ t ∈ tasks, t.Follows lex) :
    (bench.run tasks).IsRegular lex := by
  induction tasks generalizing bench with
  | nil => exact h
  | cons t tasks ih =>
    exact ih (isRegular_perform h (ht t (List.mem_cons_self ..)))
      fun t' ht' => ht t' (List.mem_cons_of_mem _ ht')

theorem IsRegular.tree {d : Delta} (h : bench.IsRegular lex) (hd : d ∈ bench.trees) :
    Regular lex Flagged d := by
  rcases List.mem_append.mp hd with hd | hd
  · exact h.deltas d hd
  · obtain ⟨b, hb, rfl⟩ := List.mem_map.mp hd
    exact h.builders b hb

/-- **Whatever was done**, every node of every tree on the bench is well formed, and a task that fails next changes
nothing. The first holds since regular trees are well formed at each of their parts, and runs keep trees regular. -/
theorem wellFormed_run (ht : ∀ t ∈ tasks, t.Follows lex) :
    (∀ d ∈ (run {} tasks).trees, ∀ n, Part n d → WellFormed n) ∧
      ∀ t, ((run {} tasks).perform t).1.isOk = false →
        ((run {} tasks).perform t).2 = run {} tasks := by
  have hregular : (run {} tasks).IsRegular lex := isRegular_run ⟨by simp, by simp⟩ ht
  refine ⟨fun d hd n hn => ?_, fun t => perform_of_error⟩
  have hd : Regular lex Flagged d := by
    rcases List.mem_append.mp hd with hd | hd
    · exact hregular.deltas d hd
    · obtain ⟨b, hb, rfl⟩ := List.mem_map.mp hd
      exact hregular.builders b hb
  exact (hd.part hn).wellFormed

/-- The invariant below a parent-independent element, after a move, a merge, a copy and a merge that is
refused. -/
theorem wellFormed_run_below_library :
    let root := Handle.top { name := "Tree" } (some "t")
    let library := root.sub { name := "Library", parentIndependent := true } "l"
    let leaf := library.sub { name := "Leaf" } "x"
    let bench := run {} [.builder root, .report 0 (.movedFrom leaf root), .delta root, .build 0, .merge 0 1,
      .delta library, .part 0 library, .copy 2 3 true]
    (∀ d ∈ bench.trees, ∀ n, Part n d → WellFormed n) ∧ (bench.perform (.merge 0 2)).2 = bench ∧
      bench.deltas.map (fun d => (d.find? leaf).map (·.flags)) =
        [some Flags.movedFrom, some Flags.movedFrom, some Flags.movedFrom, some Flags.movedFrom] := by
  intro root library leaf bench
  let lex : Lexicon := fun name => { name, parentIndependent := name == "Library" }
  have hfollows : ∀ t ∈ [.builder root, .report 0 (.movedFrom leaf root), .delta root, .build 0, .merge 0 1,
      .delta library, .part 0 library, .copy 2 3 true], Task.Follows lex t := by decide
  obtain ⟨hwell, hfail⟩ := wellFormed_run hfollows
  exact ⟨hwell, hfail (.merge 0 2) (by decide), by decide⟩

end Bench

end CodeModel
