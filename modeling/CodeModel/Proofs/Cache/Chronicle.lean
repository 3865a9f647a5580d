import CodeModel.Proofs.Cache.Headroom

/-!
# The chronicle of the capacity

Any number of builds raise the capacity and set it back, and evictions take back what has been raised, all of
them over one note of the headroom. What the note has to say can be told from the history alone.

* `Shift` lists all that a request can do to the **capacity and the headroom**, and `shift` says that it does
  nothing else.
* The **chronicle** of a run has the capacity that was in force when there was last no headroom, and the element
  on whose behalf the capacity was raised last.
* As long as nobody sets the capacity outright, headroom is always above the **base** of the chronicle, it
  belongs to the **raiser**, and only the raiser brings the capacity down (`capacity_accounted`).
-/

namespace CodeModel

namespace Cache

variable {c d : Cache} {r : Request} {rs : List Request} {n : Nat}

/-! ## One request -/

/-- The owner of the headroom is evicted by a request that has not given the headroom up before. -/
def Request.unseats (c : Cache) (r : Request) : Bool :=
  !r.isLower && c.headroom.any fun w => r.evicts w.owner c

/-- **All that a request can do** to the capacity and the headroom. Everything about the chronicle is settled case
by case along this list, without looking at how requests are served. -/
inductive Shift (c : Cache) (r : Request) (d : Cache) : Prop where
  /-- Both stay. -/
  | stays (hr : r.isSetCapacity = false) (hseat : r.unseats c = false) (hcapacity : d.capacity = c.capacity)
    (hheadroom : d.headroom = c.headroom)
  /-- The capacity is raised; of the earlier capacities the oldest is remembered. -/
  | raised {n : Nat} {owner : Handle} (hr : r = .raise n owner) (hlt : c.capacity < n)
    (hcapacity : d.capacity = n)
    (hheadroom : d.headroom = some ⟨owner, c.headroom.elim c.capacity Headroom.previous⟩)
  /-- The owner of the headroom sets the capacity back. -/
  | lowered {n : Nat} {owner : Handle} (hr : r = .lower n owner) (howns : c.owns owner = true)
    (hcapacity : d.capacity = max n 1) (hheadroom : d.headroom = none)
  /-- The capacity is set outright, and the owner of the headroom stays. -/
  | set {n : Nat} (hr : r = .setCapacity n) (hseat : r.unseats c = false) (hcapacity : d.capacity = max n 1)
    (hheadroom : d.headroom = c.headroom)
  /-- The owner of the headroom is evicted. -/
  | restored {w : Headroom} (hr : r.isLower = false) (hw : c.headroom = some w)
    (hevicts : r.evicts w.owner c = true) (hcapacity : d.capacity = w.previous) (hheadroom : d.headroom = none)

/-- A trim leaves capacity and headroom alone, or it evicts the owner of the headroom. -/
theorem trim_cases (c : Cache) (protect : HandleSet) :
    (c.headroom.any (fun w => (c.trim protect).1.any (·.1.sameChain w.owner)) = false ∧
      (c.trim protect).2.capacity = c.capacity ∧ (c.trim protect).2.headroom = c.headroom) ∨
    ∃ w, c.headroom = some w ∧ (c.trim protect).1.any (·.1.sameChain w.owner) = true ∧
      (c.trim protect).2.capacity = w.previous ∧ (c.trim protect).2.headroom = none := by
  by_cases hsize : c.size ≤ c.capacity
  · rw [trim_of_size_le hsize]
    exact .inl ⟨by cases c.headroom <;> rfl, rfl, rfl⟩
  · rw [trim, if_neg hsize]
    simp only [settle, foldl_erase_fst, foldl_erase_eq]
    rcases c.headroom with _ | w
    · exact .inl ⟨rfl, rfl, rfl⟩
    · by_cases hevicted : (c.victims protect).any (·.1.sameChain w.owner) = true
      · exact .inr ⟨w, rfl, hevicted, by simp [hevicted], by simp [hevicted]⟩
      · exact .inl ⟨by simpa using hevicted, by simp [hevicted], by simp [hevicted]⟩

/-- A request that comes to a trim of a cache with the same headroom. -/
theorem shift_of_trim {s : Cache} {protect : HandleSet} (hserve : r.serve c = s.trim protect)
    (hlower : r.isLower = false) (hheadroom : s.headroom = c.headroom)
    (hstays : r.unseats c = false → (s.trim protect).2.capacity = s.capacity →
      (s.trim protect).2.headroom = s.headroom → Shift c r (s.trim protect).2) :
    Shift c r (r.serve c).2 := by
  have hevicts : ∀ w : Headroom, r.evicts w.owner c = (s.trim protect).1.any (·.1.sameChain w.owner) := by
    intro w
    rw [Request.evicts, hserve]
  rw [hserve]
  rcases trim_cases s protect with ⟨hseat, hcapacity, hsame⟩ | ⟨w, hw, hevicted, hcapacity, hnone⟩
  · refine hstays ?_ hcapacity hsame
    simpa [Request.unseats, hlower, hevicts, hheadroom] using hseat
  · exact .restored hlower (hheadroom ▸ hw) ((hevicts w).trans hevicted) hcapacity hnone

/-- A request that evicts nothing and changes neither lets both stay. -/
theorem shift_of_quiet (hserve : (r.serve c).1 = []) (hr : r.isSetCapacity = false)
    (hcapacity : (r.serve c).2.capacity = c.capacity) (hheadroom : (r.serve c).2.headroom = c.headroom) :
    Shift c r (r.serve c).2 := by
  refine .stays hr ?_ hcapacity hheadroom
  rw [Request.unseats]
  cases c.headroom <;> simp [Request.evicts, hserve]

/-- A request does **nothing else** to the capacity and the headroom. Those that have the size checked come to a
trim of the cache with the capacity they ask for, and a trim either leaves the two alone or restores the earlier
capacity. -/
theorem shift (c : Cache) (r : Request) : Shift c r (r.serve c).2 := by
  have hbatch : ∀ bodies : Table Body, r.serve c = c.insertAll bodies → r.isLower = false →
      r.isSetCapacity = false → Shift c r (r.serve c).2 := by
    intro bodies hserve hlower hset
    have hstored : (c.storeAll bodies).headroom = c.headroom ∧ (c.storeAll bodies).capacity = c.capacity := by
      rw [Request.storeAll_eq]
      exact ⟨rfl, rfl⟩
    exact shift_of_trim hserve hlower hstored.1 fun hseat hcapacity hheadroom =>
      .stays hset hseat (hcapacity.trans hstored.2) (hheadroom.trans hstored.1)
  cases r with
  | put e b => exact hbatch [(e, b)] rfl rfl rfl
  | putAll bodies => exact hbatch bodies rfl rfl rfl
  | setCapacity n =>
    exact shift_of_trim (s := { c with capacity := max n 1 }) rfl rfl rfl fun hseat hcapacity hheadroom =>
      .set rfl hseat hcapacity hheadroom
  | raise n owner =>
    by_cases hle : n ≤ c.capacity
    · have hserve : (Request.raise n owner).serve c = ([], c) := by
        rw [Request.serve, raiseCapacity, if_pos hle]
      exact shift_of_quiet rfl rfl (by rw [hserve]) (by rw [hserve])
    · have hserve : ((Request.raise n owner).serve c).2 = { c with
          capacity := n
          headroom := some ⟨owner, c.headroom.elim c.capacity Headroom.previous⟩ } := by
        rw [Request.serve, raiseCapacity, if_neg hle]
        cases c.headroom <;> rfl
      rw [hserve]
      exact .raised rfl (by omega) rfl rfl
  | lower n owner =>
    by_cases howns : c.owns owner = true
    · have hserve : (Request.lower n owner).serve c =
          ({ c with capacity := max n 1, headroom := none } : Cache).trim [] := if_pos howns
      rw [hserve]
      rcases trim_cases { c with capacity := max n 1, headroom := none } [] with
        ⟨-, hcapacity, hheadroom⟩ | ⟨w, hw, -⟩
      · exact .lowered rfl howns hcapacity hheadroom
      · cases hw
    · have hserve : (Request.lower n owner).serve c = ([], c) := if_neg howns
      exact shift_of_quiet (by rw [hserve]) rfl (by rw [hserve]) (by rw [hserve])
  | get e =>
    obtain ⟨entries, htouch⟩ := Request.exists_touch c e
    have hserve : ((Request.get e).serve c).2 = { c with entries } := htouch
    exact shift_of_quiet rfl rfl (by rw [hserve]) (by rw [hserve])
  | _ => exact shift_of_quiet rfl rfl rfl rfl

/-! ## Histories -/

/-- The element on whose behalf the request raises the capacity, if it raises it. -/
def Request.raiser? (c : Cache) (r : Request) : Option Handle :=
  match r with
  | .raise _ owner => if c.capacity < (r.serve c).2.capacity then some owner else none
  | _ => none

/-- A cache with what its history tells about the capacity. The base and the raiser are kept by looking at the
requests and at the capacity before and after, and not at the note of the headroom, so that the note can be checked
against them. -/
structure Chronicle where
  /-- The cache at this point of the history. -/
  cache : Cache
  /-- The capacity in force when there was last no headroom. -/
  base : Nat
  /-- The element on whose behalf the capacity was raised last. -/
  raiser : Option Handle

namespace Chronicle

/-- A history that begins. -/
def begun (c : Cache) : Chronicle := ⟨c, c.capacity, none⟩

/-- One more request is served. -/
def next (h : Chronicle) (r : Request) : Chronicle :=
  let c := (r.serve h.cache).2
  { cache := c
    base := if c.headroom.isNone then c.capacity else h.base
    raiser := (r.raiser? h.cache).or h.raiser }

/-- The chronicle agrees with the note of the headroom: this is the invariant of all runs that do not set the
capacity outright. -/
structure Faithful (h : Chronicle) : Prop where
  /-- without headroom the capacity is the base -/
  level : h.cache.headroom = none → h.cache.capacity = h.base
  /-- headroom is above the base, which it remembers, and belongs to the element that raised the capacity last -/
  raised : ∀ w, h.cache.headroom = some w →
    w.previous = h.base ∧ h.base < h.cache.capacity ∧ h.raiser = some w.owner

/-- A history that begins without headroom is faithful. -/
theorem faithful_begun (hc : c.headroom = none) : (begun c).Faithful := by
  refine ⟨fun _ => rfl, fun w hw => ?_⟩
  rw [begun, hc] at hw
  cases hw

/-- **One more request** that does not set the capacity outright keeps the chronicle faithful, in each of the cases
of `Shift`. -/
theorem Faithful.next {h : Chronicle} (hh : h.Faithful) (hr : r.isSetCapacity = false) :
    (h.next r).Faithful := by
  refine ⟨fun hnone => ?_, fun w hw => ?_⟩
  · have hserve : (r.serve h.cache).2.headroom = none := hnone
    simp [Chronicle.next, hserve]
  have hserve : (r.serve h.cache).2.headroom = some w := hw
  have hbase : (h.next r).base = h.base := by simp [Chronicle.next, hserve]
  rw [hbase]
  show w.previous = h.base ∧ h.base < (r.serve h.cache).2.capacity ∧
    (r.raiser? h.cache).or h.raiser = some w.owner
  cases shift h.cache r with
  | stays _ _ hcapacity hheadroom =>
    have hraiser : r.raiser? h.cache = none := by cases r <;> simp [Request.raiser?, hcapacity]
    rw [hcapacity, hraiser, Option.none_or]
    exact hh.raised w (hheadroom ▸ hserve)
  | @raised n owner hr' hlt hcapacity hheadroom =>
    obtain rfl := Option.some.inj (hheadroom.symm.trans hserve)
    have hraiser : r.raiser? h.cache = some owner := by
      rw [hr'] at hcapacity ⊢
      simp [Request.raiser?, hcapacity, hlt]
    rw [hraiser, hcapacity]
    -- the oldest capacity is the one from before the first raise
    rcases hold : h.cache.headroom with _ | w
    · have hlevel := hh.level hold
      exact ⟨hlevel, by omega, rfl⟩
    · obtain ⟨hprevious, habove, -⟩ := hh.raised w hold
      exact ⟨hprevious, by omega, rfl⟩
  | lowered _ _ _ hheadroom => rw [hheadroom] at hserve; cases hserve
  | set hr' => rw [hr'] at hr; cases hr
  | restored _ _ _ _ hheadroom => rw [hheadroom] at hserve; cases hserve

/-- **Only the raiser** brings the capacity down: it sets the capacity back, or it is evicted, and then the base is
in force again. -/
structure Upheld (h : Chronicle) : Prop where
  /-- the headroom is set back by its owner, or its owner is evicted, if the capacity falls -/
  falls : ∀ r : Request, r.isSetCapacity = false → (r.serve h.cache).2.capacity < h.cache.capacity →
    ∃ w, h.cache.headroom = some w ∧ (r.lowersFor w.owner = true ∨ r.evicts w.owner h.cache = true)
  /-- an eviction of the owner brings the base back -/
  restores : ∀ (r : Request) (w : Headroom), r.isSetCapacity = false → h.cache.headroom = some w →
    r.lowersFor w.owner = false → r.evicts w.owner h.cache = true →
    (r.serve h.cache).2.capacity = h.base ∧ (r.serve h.cache).2.headroom = none

/-- A request to set the capacity back evicts somebody only if it comes from the owner of the headroom. -/
theorem isLower_eq_false {w : Headroom} (hw : c.headroom = some w) (hlowers : r.lowersFor w.owner = false)
    (hevicts : r.evicts w.owner c = true) : r.isLower = false := by
  cases r with
  | lower n owner =>
    have hother : c.owns owner = false := by
      rw [owns, hw, Option.any_some, Handle.sameChain_comm]
      exact hlowers
    have hserve : (Request.lower n owner).serve c = ([], c) :=
      if_neg (by rw [← owns, hother]; exact Bool.false_ne_true)
    rw [Request.evicts, hserve] at hevicts
    cases hevicts
  | _ => rfl

/-- A faithful chronicle is upheld by whatever is served next. -/
theorem Faithful.upheld {h : Chronicle} (hh : h.Faithful) : h.Upheld := by
  constructor
  · intro r hr hlt
    cases shift h.cache r with
    | stays _ _ hcapacity => omega
    | raised _ _ hcapacity => omega
    | @lowered n owner hr' howns =>
      rcases hw : h.cache.headroom with _ | w
      · simp [owns, hw] at howns
      · refine ⟨w, rfl, .inl ?_⟩
        rw [hr', Request.lowersFor, Handle.sameChain_comm]
        simpa [owns, hw] using howns
    | set hr' => rw [hr'] at hr; cases hr
    | @restored w _ hw hevicts => exact ⟨w, hw, .inr hevicts⟩
  · intro r w hr hw hlowers hevicts
    have hlower := isLower_eq_false hw hlowers hevicts
    cases shift h.cache r with
    | stays _ hseat => simp [Request.unseats, hlower, hw, hevicts] at hseat
    | raised hr' => rw [hr'] at hevicts; cases hevicts
    | lowered hr' => rw [hr'] at hlower; cases hlower
    | set hr' => rw [hr'] at hr; cases hr
    | @restored w' _ hw' _ hcapacity hheadroom =>
      obtain rfl := Option.some.inj (hw.symm.trans hw')
      exact ⟨hcapacity.trans (hh.raised w hw).1, hheadroom⟩

end Chronicle

/-- What a run of requests tells about the capacity. -/
def chronicle (c : Cache) (rs : List Request) : Chronicle := rs.foldl Chronicle.next (.begun c)

/-- One more request at the end is one more entry in the chronicle. It is what lets an induction on runs append
requests. -/
theorem chronicle_concat (c : Cache) (rs : List Request) (r : Request) :
    chronicle c (rs ++ [r]) = (chronicle c rs).next r := by
  rw [chronicle, List.foldl_append]
  rfl

theorem cache_chronicle (c : Cache) (rs : List Request) : (chronicle c rs).cache = run rs c := by
  induction rs using List.reverseRecOn with
  | nil => rfl
  | append_singleton rs r ih =>
    rw [chronicle_concat, run_concat, ← ih]
    rfl

/-- **The run** of a cache without headroom makes a faithful chronicle, by induction on the requests: the chronicle
begins faithful, and each request keeps it so. -/
theorem faithful_chronicle (hc : c.headroom = none) (hrs : ∀ r ∈ rs, r.isSetCapacity = false) :
    (chronicle c rs).Faithful := by
  induction rs using List.reverseRecOn with
  | nil => exact Chronicle.faithful_begun hc
  | append_singleton rs r ih =>
    rw [chronicle_concat]
    exact (ih fun q hq => hrs q (List.mem_append_left _ hq)).next (hrs r (by simp))

/-- **The capacity is accounted for**, after whatever a new cache was asked for but to set it outright: the note of
the headroom says what the chronicle says, and none but its owner brings the capacity down. So the one note that all
builds share is enough to get back to the capacity that was in force before them. -/
theorem capacity_accounted (n : Nat) (x : Float) (rs : List Request) (hrs : ∀ r ∈ rs, r.isSetCapacity = false) :
    (chronicle (new n x) rs).cache = run rs (new n x) ∧ (chronicle (new n x) rs).Faithful ∧
      (chronicle (new n x) rs).Upheld := by
  have hfaithful : (chronicle (new n x) rs).Faithful := faithful_chronicle rfl hrs
  exact ⟨cache_chronicle (new n x) rs, hfaithful, hfaithful.upheld⟩

/-- Two builds raise the capacity, and the bodies of the second one and of two others are stored. -/
def crowding : List Request :=
  [.raise 2 (unit "a"), .raise 3 (unit "b"), .put (unit "b") {}, .put (unit "c") {}, .put (unit "d") {}]

/-- The headroom is the second one's now, above the first capacity, which comes back when it is evicted. -/
theorem capacity_accounted_crowding :
    (∀ r ∈ crowding, r.isSetCapacity = false) ∧ (chronicle (new 1 1) crowding).Upheld ∧
    (chronicle (new 1 1) crowding).raiser = some (unit "b") ∧ (chronicle (new 1 1) crowding).base = 1 ∧
    (chronicle (new 1 1) crowding).cache.capacity = 3 ∧
    (run (crowding ++ [.put (unit "e") {}]) (new 1 1)).capacity = 1 := by
  have hrs : ∀ r ∈ crowding, r.isSetCapacity = false := by decide
  obtain ⟨-, -, hupheld⟩ := capacity_accounted 1 1 crowding hrs
  exact ⟨hrs, hupheld, by decide, by decide, by decide, by decide⟩

end Cache

end CodeModel
