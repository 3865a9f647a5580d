import CodeModel.Proofs.Cache.Chronicle

/-!
# A capacity that is set outright

Whoever sets the capacity outright means it to stay, until somebody asks for more. But the note of the headroom
stays as well, with the capacity from before the first raise.

* `lt_capacity_serve_iff`: of the requests that ask for no more than `k`, exactly those take the capacity above
  `k` that evict the owner of a headroom with a higher capacity to go back to (`bringsBack`). Setting the
  capacity is one of them.
* So the capacity that is set lasts **until the owner of the headroom is evicted**, and it lasts for good if
  there is no headroom, or if it remembers no more than what is set (`setCapacity_lasts`).
* An eviction by the request that sets the capacity is enough to lose it (`setCapacity_undone`).
-/

namespace CodeModel

namespace Cache

variable {c : Cache} {r : Request} {rs : List Request} {n k : Nat}

namespace Request

/-- The size that the request asks for outright. -/
def size : Request → Nat
  | .setCapacity n | .lower n _ => max n 1
  | .raise n _ => n
  | _ => 0

/-- The request evicts the owner of the headroom, and there was more than `k` before the first raise. -/
def bringsBack (k : Nat) (c : Cache) (r : Request) : Bool :=
  r.unseats c && c.headroom.any (k < ·.previous)

theorem unseats_raise (c : Cache) (n : Nat) (owner : Handle) : (raise n owner).unseats c = false := by
  rw [unseats]
  cases c.headroom <;> rfl

end Request

/-! ## One request -/

theorem capacity_setCapacity (c : Cache) (n : Nat) :
    ((Request.setCapacity n).serve c).2.capacity = c.headroom.elim (max n 1) fun w =>
      if (Request.setCapacity n).evicts w.owner c then w.previous else max n 1 := by
  cases shift c (.setCapacity n) with
  | stays hr | raised hr | lowered hr => cases hr
  | set hr hseat hcapacity =>
    cases hr
    rw [hcapacity]
    rcases hw : c.headroom with _ | w
    · rfl
    · have hstays : (Request.setCapacity n).evicts w.owner c = false := by
        simpa [Request.unseats, Request.isLower, hw] using hseat
      simp [hstays]
  | restored _ hw hevicts hcapacity => rw [hcapacity, hw, Option.elim_some, if_pos hevicts]

/-- A request that asks for no more than `k` takes the capacity above `k` exactly if it **brings back** a higher
one. The request to set the capacity does so whatever the capacity was. -/
theorem lt_capacity_serve_iff (hsize : r.size ≤ k) (hc : c.capacity ≤ k ∨ r.isSetCapacity = true) :
    k < (r.serve c).2.capacity ↔ r.bringsBack k c = true := by
  have hquiet : r.unseats c = false → (r.serve c).2.capacity ≤ k →
      (k < (r.serve c).2.capacity ↔ r.bringsBack k c = true) := by
    intro hseat hle
    rw [Request.bringsBack, hseat, Bool.false_and]
    simpa using hle
  cases shift c r with
  | stays hset hseat hcapacity =>
    refine hquiet hseat ?_
    rw [hcapacity]
    exact hc.resolve_right (by simp [hset])
  | @raised n owner hr hlt hcapacity =>
    subst hr
    exact hquiet (Request.unseats_raise c n owner) (Nat.le_trans (Nat.le_of_eq hcapacity) hsize)
  | lowered hr _ hcapacity =>
    subst hr
    exact hquiet rfl (Nat.le_trans (Nat.le_of_eq hcapacity) hsize)
  | set hr hseat hcapacity =>
    subst hr
    exact hquiet hseat (Nat.le_trans (Nat.le_of_eq hcapacity) hsize)
  | restored hlower hw hevicts hcapacity =>
    simp [Request.bringsBack, Request.unseats, hlower, hw, hevicts, hcapacity]

/-- Neither the capacity nor the one to go back to is above `k`. -/
structure Within (k : Nat) (c : Cache) : Prop where
  /-- the capacity in force -/
  capacity : c.capacity ≤ k
  /-- the capacity before the first raise -/
  previous : ∀ w, c.headroom = some w → w.previous ≤ k

/-- A request that asks for no more than `k` stays within `k`. The request to set the capacity gets there. -/
theorem within_serve (hprevious : ∀ w, c.headroom = some w → w.previous ≤ k) (hsize : r.size ≤ k)
    (hc : c.capacity ≤ k ∨ r.isSetCapacity = true) : (r.serve c).2.Within k := by
  constructor
  · rw [← Nat.not_lt, lt_capacity_serve_iff hsize hc, Request.bringsBack, Bool.and_eq_true]
    rintro ⟨-, habove⟩
    obtain ⟨w, hw, hlt⟩ := Option.any_eq_true .. |>.mp habove
    exact absurd (hprevious w hw) (by simpa using hlt)
  · intro w hw
    cases shift c r with
    | stays _ _ _ hheadroom => exact hprevious w (hheadroom ▸ hw)
    | set _ _ _ hheadroom => exact hprevious w (hheadroom ▸ hw)
    | lowered _ _ _ hheadroom => rw [hheadroom] at hw; cases hw
    | restored _ _ _ _ hheadroom => rw [hheadroom] at hw; cases hw
    | raised hr hlt _ hheadroom =>
      subst hr
      obtain rfl := Option.some.inj (hheadroom.symm.trans hw)
      rcases hold : c.headroom with _ | w
      · exact Nat.le_trans (Nat.le_of_lt hlt) hsize
      · exact hprevious w hold

/-! ## Runs -/

/-- Through a run that asks for no more than `k`, the capacity stays at `k` or below as long as **no request brings
back** a higher one. -/
theorem capacity_run_le_iff (hc : c.capacity ≤ k) (hrs : ∀ r ∈ rs, r.size ≤ k) :
    (∀ before, before <+: rs → (run before c).capacity ≤ k) ↔
      ∀ before r, before ++ [r] <+: rs → r.bringsBack k (run before c) = false := by
  refine holds_run_iff (P := (·.capacity ≤ k)) hc fun r hr d hd => ?_
  rw [← Nat.not_lt, lt_capacity_serve_iff (hrs r hr) (.inl hd), Bool.not_eq_true]

/-- What stays within `k` with each request does so through a run, if no request of it asks for more than `k`. -/
theorem within_run (hc : c.Within k) (hrs : ∀ r ∈ rs, r.size ≤ k) : (run rs c).Within k := by
  induction rs using List.reverseRecOn with
  | nil => exact hc
  | append_singleton rs r ih =>
    have hrun := ih fun q hq => hrs q (List.mem_append_left _ hq)
    rw [run_concat]
    exact within_serve hrun.previous (hrs r (by simp)) (.inl hrun.capacity)

/-- **How long a capacity lasts that is set outright**, among requests that ask for no more. It is in force at
once unless the owner of the headroom is evicted. From then on it stays the highest capacity exactly as long as no
request evicts the owner of a headroom with a higher capacity to go back to. If there is no such headroom when the
capacity is set, there is none later. -/
theorem setCapacity_lasts (c : Cache) (n : Nat) (rs : List Request) (hrs : ∀ r ∈ rs, r.size ≤ max n 1) :
    (run [.setCapacity n] c).capacity = (c.headroom.elim (max n 1) fun w =>
        if (Request.setCapacity n).evicts w.owner c then w.previous else max n 1) ∧
    ((∀ before, before <+: rs → (run (.setCapacity n :: before) c).capacity ≤ max n 1) ↔
      (Request.setCapacity n).bringsBack (max n 1) c = false ∧
      ∀ before r, before ++ [r] <+: rs →
        r.bringsBack (max n 1) (run (.setCapacity n :: before) c) = false) ∧
    ((∀ w, c.headroom = some w → w.previous ≤ max n 1) →
      ∀ before, before <+: rs → (run (.setCapacity n :: before) c).capacity ≤ max n 1) := by
  have hset := lt_capacity_serve_iff (c := c) (r := .setCapacity n) (Nat.le_refl (max n 1)) (.inr rfl)
  rw [← not_iff_not, Nat.not_lt, Bool.not_eq_true] at hset
  refine ⟨capacity_setCapacity c n, ⟨fun h => ?_, fun ⟨hfirst, h⟩ => ?_⟩,
    fun hprevious before hbefore => ?_⟩
  · have hfirst : ((Request.setCapacity n).serve c).2.capacity ≤ max n 1 := h [] (List.nil_prefix)
    exact ⟨hset.mp hfirst, (capacity_run_le_iff hfirst hrs).mp h⟩
  · exact (capacity_run_le_iff (hset.mpr hfirst) hrs).mpr h
  · have hfirst := within_serve (r := .setCapacity n) hprevious (Nat.le_refl _) (.inr rfl)
    exact (within_run hfirst fun r hr => hrs r (hbefore.subset hr)).capacity

/-- The capacity has been raised for an element, which is neither the first nor the last that is used. -/
def raisedFor : List Request :=
  [.raise 10 (unit "a"), .put (unit "b") {}, .put (unit "a") {}, .put (unit "c") {}]

/-- The owner of the headroom is used before it could be evicted, and the capacity that is set lasts. Otherwise
the next insertion brings the first capacity back. -/
theorem setCapacity_lasts_used :
    (∀ r ∈ [Request.get (unit "a"), .put (unit "d") {}], r.size ≤ max 2 1) ∧
    (∀ before, before <+: [Request.get (unit "a"), .put (unit "d") {}] →
      (run (.setCapacity 2 :: before) (run raisedFor (new 4 1))).capacity ≤ max 2 1) ∧
    (run [.setCapacity 2, .put (unit "d") {}] (run raisedFor (new 4 1))).capacity = 4 := by
  have hrs : ∀ r ∈ [Request.get (unit "a"), .put (unit "d") {}], r.size ≤ max 2 1 := by decide
  obtain ⟨-, hlasts, -⟩ := setCapacity_lasts (run raisedFor (new 4 1)) 2 _ hrs
  refine ⟨hrs, hlasts.mpr ⟨by decide +kernel, ?_⟩, by decide +kernel⟩
  exact of_concat_prefix_pair (by decide +kernel) (by decide +kernel)

/-- A capacity that is set outright is **undone at once** if it is small enough to evict the owner of the headroom:
the eviction brings back the capacity that the headroom remembers, in the course of the same request. -/
theorem setCapacity_undone : ¬ ∀ (size : Nat) (x : Float) (rs : List Request) (n : Nat) (later : List Request),
    (∀ r ∈ later, r.size ≤ max n 1) →
    (run (rs ++ [.setCapacity n]) (new size x)).capacity = max n 1 ∧
      (run (rs ++ .setCapacity n :: later) (new size x)).capacity ≤ max n 1 := by
  intro h
  -- the element that raised the capacity is the least recently used one
  have hset := h 2 1 [.raise 10 (unit "a"), .put (unit "a") {}, .put (unit "b") {}] 1 [] (by decide)
  exact absurd hset.1 (by decide)

end Cache

end CodeModel
