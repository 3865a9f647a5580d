import CodeModel.Proofs.Cache.Requests
import Mathlib.Data.List.Induction

/-!
# Headroom

Builds raise the capacity on their own behalf, one after the other or at the same time. There is one headroom
for all of them, and it belongs to the element that raised the capacity **last**.

* Nothing but the **owner** takes headroom away: when it sets the capacity back, or when it is evicted
  (`capacity_serve_lt_iff`). What happens to all other elements never does.
* So the capacity stays where a build has raised it for as long as the owners let it (`headroom_stays`).
* An element that is **not** the owner has no say, though its build may still need the room
  (`headroom_lost`).
-/

namespace CodeModel

namespace Cache

variable {c d : Cache} {e : Handle} {n : Nat} {r : Request} {rs : List Request}

/-- The element raised the capacity last. -/
def owns (c : Cache) (e : Handle) : Bool := c.headroom.any (·.owner.sameChain e)

namespace Request

/-- The request sets the capacity, whoever has raised it. -/
def isSetCapacity : Request → Bool
  | .setCapacity _ => true
  | _ => false

/-- The request sets the capacity back, if it may. -/
def isLower : Request → Bool
  | .lower _ _ => true
  | _ => false

/-- The request sets the capacity back on behalf of the element. -/
def lowersFor (e : Handle) : Request → Bool
  | .lower _ owner => owner.sameChain e
  | _ => false

/-- The request evicts the element. -/
def evicts (e : Handle) (c : Cache) (r : Request) : Bool := (r.serve c).1.any (·.1.sameChain e)

/-- The request takes headroom away so that less than `n` is left: the owner sets the capacity back to less,
or it is evicted and there was less before the first raise. -/
def ends (n : Nat) (c : Cache) (r : Request) : Bool :=
  c.headroom.any fun w => match r with
    | .lower k owner => w.owner.sameChain owner && max k 1 < n
    | r => r.evicts w.owner c && w.previous < n

end Request

/-! ## One request -/

theorem capacity_settle (c : Cache) (evicted : Table Body) :
    (c.settle evicted).capacity = match c.headroom with
      | some w => if evicted.any (·.1.sameChain w.owner) then w.previous else c.capacity
      | none => c.capacity := by
  rw [settle]
  rcases c.headroom with _ | w
  · rfl
  · dsimp only
    split <;> rfl

/-- A trim changes the capacity only if it evicts the owner of the headroom. -/
theorem capacity_trim (c : Cache) (protect : HandleSet) :
    (c.trim protect).2.capacity = match c.headroom with
      | some w => if (c.trim protect).1.any (·.1.sameChain w.owner) then w.previous else c.capacity
      | none => c.capacity := by
  by_cases h : c.size ≤ c.capacity
  · rw [trim_of_size_le h]
    cases c.headroom <;> simp
  · rw [trim, if_neg h]
    simp only [capacity_settle, foldl_erase_fst, foldl_erase_eq]

theorem capacity_insertAll_lt_iff (hc : n ≤ c.capacity) (bodies : Table Body) :
    (c.insertAll bodies).2.capacity < n ↔
      (c.headroom.any fun w => (c.insertAll bodies).1.any (·.1.sameChain w.owner) && w.previous < n) = true := by
  rw [insertAll_eq, capacity_trim]
  have hheadroom : (c.storeAll bodies).headroom = c.headroom := by rw [Request.storeAll_eq]
  have hcapacity : (c.storeAll bodies).capacity = c.capacity := by rw [Request.storeAll_eq]
  rw [hheadroom, hcapacity]
  rcases c.headroom with _ | w
  · simp only [Option.any_none, Bool.false_eq_true, iff_false]
    omega
  · simp only [Option.any_some, Bool.and_eq_true, decide_eq_true_iff]
    split
    · next h => simp [h]
    · next h =>
      simp only [h, Bool.false_eq_true, false_and, iff_false]
      omega

/-- **Only the owner** takes headroom away. Of the requests that do not set the capacity outright, those that take
it below what it was are told by the owner of the headroom: it sets the capacity back, or its eviction does. -/
theorem capacity_serve_lt_iff (hc : n ≤ c.capacity) (hr : r.isSetCapacity = false) :
    (r.serve c).2.capacity < n ↔ r.ends n c = true := by
  -- a request that evicts nothing ends nothing, and no such request makes the capacity smaller
  have hquiet : (r.serve c).1 = [] → c.capacity ≤ (r.serve c).2.capacity → r.isLower = false →
      ((r.serve c).2.capacity < n ↔ r.ends n c = true) := by
    intro hnone hle hlower
    have hends : r.ends n c = false := by
      rw [Request.ends]
      cases c.headroom with
      | none => rfl
      | some w => cases r <;> simp_all [Request.evicts, Request.isLower]
    rw [hends]
    simp only [Bool.false_eq_true, iff_false]
    omega
  cases r with
  | put e b => exact capacity_insertAll_lt_iff hc [(e, b)]
  | putAll bodies => exact capacity_insertAll_lt_iff hc bodies
  | setCapacity n => cases hr
  | get e => exact hquiet rfl (Nat.le_of_eq (capacity_touch c e).symm) rfl
  | raise k owner =>
    refine hquiet rfl ?_ rfl
    show c.capacity ≤ (c.raiseCapacity k owner).capacity
    rw [raiseCapacity]
    split
    · exact Nat.le_refl _
    · dsimp only
      omega
  | lower k owner =>
    show (c.lowerCapacity k owner).2.capacity < n ↔ _
    rw [lowerCapacity, Request.ends]
    split
    · next howner =>
      rw [capacity_trim]
      rcases hw : c.headroom with _ | w
      · simp [hw] at howner
      · rw [hw, Option.any_some] at howner
        show max k 1 < n ↔ (w.owner.sameChain owner && decide (max k 1 < n)) = true
        rw [howner, Bool.true_and, decide_eq_true_iff]
    · next howner =>
      rcases hw : c.headroom with _ | w
      · simpa using hc
      · rw [hw] at howner
        simp at howner
        simpa [howner] using hc
  | _ => exact hquiet rfl (Nat.le_refl _) rfl

/-! ## Runs -/

/-- A property that requests keep unless they **break** it holds through a run exactly as long as no request breaks
it. By induction on the run; it is used for lower and for upper bounds of the capacity. -/
theorem holds_run_iff {P : Cache → Prop} {breaks : Cache → Request → Bool} (hc : P c)
    (hstep : ∀ r ∈ rs, ∀ d, P d → (P (r.serve d).2 ↔ breaks d r = false)) :
    (∀ before, before <+: rs → P (run before c)) ↔
      ∀ before r, before ++ [r] <+: rs → breaks (run before c) r = false := by
  have hnext : ∀ before r, before ++ [r] <+: rs → P (run before c) →
      (P (run (before ++ [r]) c) ↔ breaks (run before c) r = false) := by
    intro before r hr hbefore
    rw [run_concat]
    exact hstep r (hr.subset (by simp)) _ hbefore
  constructor
  · intro h before r hr
    exact (hnext before r hr (h before ((List.prefix_append before [r]).trans hr))).mp (h _ hr)
  · intro h before hbefore
    induction before using List.reverseRecOn with
    | nil => exact hc
    | append_singleton before r ih =>
      exact (hnext before r hbefore (ih ((List.prefix_append before [r]).trans hbefore))).mpr
        (h before r hbefore)

/-- Through a run the capacity does not fall below `n`, as long as **no request ends** the headroom. For the
capacity is at least `n` at the beginning, and only such a request can take it below. -/
theorem capacity_run_iff (hc : n ≤ c.capacity) (hrs : ∀ r ∈ rs, r.isSetCapacity = false) :
    (∀ before, before <+: rs → n ≤ (run before c).capacity) ↔
      ∀ before r, before ++ [r] <+: rs → r.ends n (run before c) = false := by
  refine holds_run_iff (P := (n ≤ ·.capacity)) hc fun r hr d hd => ?_
  rw [← Nat.not_lt, capacity_serve_lt_iff hd (hrs r hr), Bool.not_eq_true]

/-- Whoever raises the capacity has it raised: it is afterwards at least what was asked for, and more if it had been
more. -/
theorem le_capacity_raiseCapacity (c : Cache) (n : Nat) (e : Handle) :
    n ≤ (c.raiseCapacity n e).capacity := by
  rw [raiseCapacity]
  split
  · assumption
  · exact Nat.le_refl n

/-- What the owner does not do does not happen: if the element is the owner, neither sets the capacity back nor is
evicted, then the headroom stays. -/
theorem ends_eq_false (howns : c.owns e = true) (hlowers : r.lowersFor e = false)
    (hevicts : r.evicts e c = false) : r.ends n c = false := by
  rcases hw : c.headroom with _ | w
  · simp [owns, hw] at howns
  have howner : w.owner.sameChain e = true := by simpa [owns, hw] using howns
  have hevicted : r.evicts w.owner c = false := by
    rw [← Bool.not_eq_true, Request.evicts, List.any_eq_true]
    rintro ⟨p, hp, hsame⟩
    have hany : r.evicts e c = true := List.any_eq_true.mpr ⟨p, hp, Handle.sameChain_trans hsame howner⟩
    rw [hevicts] at hany
    cases hany
  rw [Request.ends, hw]
  cases r with
  | lower k owner =>
    have hother : w.owner.sameChain owner = false := by
      rw [← Bool.not_eq_true]
      intro hsame
      rw [Handle.sameChain_comm] at hsame
      have hlower : owner.sameChain e = true := Handle.sameChain_trans hsame howner
      rw [Request.lowersFor, hlower] at hlowers
      cases hlowers
    simp [hother]
  | _ => simp [hevicted]

/-- **Headroom stays** for as long as its owners let it. After an element has asked for a capacity of `n`,
there is less exactly from the request on by which the owner of the headroom sets it back to less, or by which
the owner is evicted and there was less before. So as long as the element itself is the owner, and neither sets
the capacity back nor is evicted, nothing that happens to others matters. -/
theorem headroom_stays (c : Cache) (n : Nat) (e : Handle) (rs : List Request)
    (hrs : ∀ r ∈ rs, r.isSetCapacity = false) :
    ((∀ before, before <+: rs → n ≤ (run before (c.raiseCapacity n e)).capacity) ↔
      ∀ before r, before ++ [r] <+: rs → r.ends n (run before (c.raiseCapacity n e)) = false) ∧
    ((∀ before r, before ++ [r] <+: rs → (run before (c.raiseCapacity n e)).owns e = true ∧
        r.lowersFor e = false ∧ r.evicts e (run before (c.raiseCapacity n e)) = false) →
      ∀ before, before <+: rs → n ≤ (run before (c.raiseCapacity n e)).capacity) := by
  have hiff := capacity_run_iff (le_capacity_raiseCapacity c n e) hrs
  refine ⟨hiff, fun h => hiff.mpr ?_⟩
  intro before r hr
  obtain ⟨howns, hlowers, hevicts⟩ := h before r hr
  exact ends_eq_false howns hlowers hevicts

theorem of_concat_prefix_pair {P : List Request → Request → Prop} {q r : Request} (hq : P [] q)
    (hr : P [q] r) : ∀ before s, before ++ [s] <+: [q, r] → P before s := by
  rintro before s ⟨rest, h⟩
  rcases before with _ | ⟨x, _ | ⟨y, before⟩⟩
  · obtain ⟨rfl, -⟩ := List.cons.inj h
    exact hq
  · obtain ⟨rfl, htail⟩ := List.cons.inj h
    obtain ⟨rfl, -⟩ := List.cons.inj htail
    exact hr
  · simp at h

/-- Another build may raise the capacity less, and try to set it back: the headroom stays. -/
theorem headroom_stays_of_larger :
    (∀ r ∈ [Request.raise 5 (unit "b"), .lower 2 (unit "b")], r.isSetCapacity = false) ∧
    10 ≤ (run [.raise 5 (unit "b"), .lower 2 (unit "b")] ((new 2 1).raiseCapacity 10 (unit "a"))).capacity := by
  refine ⟨by decide, ?_⟩
  refine (headroom_stays (new 2 1) 10 (unit "a") [.raise 5 (unit "b"), .lower 2 (unit "b")]
    (by decide)).2 ?_ _ List.prefix_rfl
  exact of_concat_prefix_pair (by decide) (by decide)

/-- An element that is not the owner **loses** its headroom when the owner sets the capacity back, though it
has neither set it back itself nor been evicted. -/
theorem headroom_lost : ¬ ∀ (c : Cache) (n : Nat) (e : Handle) (rs : List Request),
    (∀ r ∈ rs, r.isSetCapacity = false) →
    (∀ before r, before ++ [r] <+: rs → r.lowersFor e = false ∧
      r.evicts e (run before (c.raiseCapacity n e)) = false) →
    n ≤ (run rs (c.raiseCapacity n e)).capacity := by
  intro h
  -- the second build raises the capacity further, so the headroom is no longer that of the first one
  have hle := h (new 2 1) 10 (unit "a") [.raise 20 (unit "b"), .lower 2 (unit "b")] (by decide)
    (of_concat_prefix_pair (by decide) (by decide))
  exact absurd hle (by decide)

end Cache

end CodeModel
