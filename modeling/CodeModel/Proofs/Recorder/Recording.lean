import CodeModel.Proofs.Recorder.Law

/-!
# Recordings

A recording that starts from one state and ends with another one **never fails**, and the law holds of every
element that is reached from its input (`recording_law`).

Its delta is **empty** exactly if the trees below the input do not differ (`isEmpty_recording_iff`): the
depth limit decides how much is told, and not whether anything is.
-/

namespace CodeModel

namespace Delta

theorem isEmpty_bare (d : Delta) : d.bare.isEmpty = d.isEmpty := by
  rw [bare_eq]
  simp [isEmpty]

end Delta

namespace Recorder

open Builder Delta Note Handle

variable {old new : Bodies} {input x y c : Handle} {o n : Body} {b : Builder} {limit depth k : Nat}
  {moved m m' : Bool}

/-! ## Notes -/

theorem noted_new (input : Handle) (y : Handle) : (Builder.new input).noted y = none := by
  have hbare : (Builder.new input).bare.delta = { element := input.bare } := by
    rw [Builder.bare, delta_new, bare_eq]
    rfl
  rw [noted, recorded?, hbare, find?]
  rcases pathBelow? _ y with _ | path
  · rfl
  · cases path <;> rfl

/-- A new builder is ready to take in reports about its input, which is the root of its tree: there is nothing above
it, and nothing on record yet. -/
theorem ready_new (hx : input.ParentDependent) : Ready (Builder.new input) input.bare := by
  have hbare : (Builder.new input).bare.delta = { element := input.bare } := by
    rw [Builder.bare, delta_new, bare_eq]
    rfl
  refine ⟨?_, ⟨[], ?_⟩, fun a _ => noted_new input a ▸ modest_none⟩
  · rw [hbare]
    exact .blank lasting_unattached hx.follows_bare
  · rw [hbare]
    exact .here _

/-- Where the trees differ there is a note, at whatever depth: the element came, went, differs in content at the
limit, or is marked as fine grained above it. -/
theorem Law.noted_ne_none (h : Law old new limit depth moved y b) (hd : Differs old new y) :
    b.noted y.bare ≠ none := by
  rcases hyo : Table.get? old y with _ | o <;> rcases hyn : Table.get? new y with _ | n
  · exact absurd hd (not_differs_of_none hyo hyn)
  · simp [h.appeared hyo hyn]
  · simp [h.vanished hyo hyn]
  · by_cases hlimit : limit ≤ depth
    · simp [h.coarse hyo hyn hlimit hd, gained]
    · obtain ⟨kids, -, hentry⟩ := h.fine hyo hyn (Nat.lt_of_not_le hlimit) hd
      simp [hentry, gained]

/-! ## The recording -/

/-- **A recording never fails**, and the law holds of every element that is reached. The snapshot has all that the
comparison looks at, so the recording is a comparison of the two states with a builder that has nothing on record,
and there is fuel for all levels. -/
theorem recording_law (ho : Arranged old) (hn : Arranged new) (hx : input.ParentDependent) (limit : Nat) :
    ∃ r b, start {} old input none limit = .ok r ∧ r.finish new = (.ok b, {}) ∧
      Regular simple Unattached b.bare.delta ∧ b.bare.delta.element = input.bare ∧
      ∀ {k y m}, Trail old new k input false y m → k ≤ limit → Law old new limit k m y b := by
  have hfuel : levels old input < old.length + 1 := Nat.lt_succ_of_le (levels_le old input)
  have hcomparable : Comparable old new limit (old.length + 1) 0 input := comparable ho hn hx hfuel
  obtain ⟨b, differs, hcompare, hcompared⟩ := hcomparable (Builder.new input) false (ready_new hx)
    (noted_new input _) fun _ _ => noted_new input _
  refine ⟨_, b, rfl, ?_, hcompared.confined.regular, ?_, fun htrail hle => ?_⟩
  · rw [finish]
    simp only [Option.getD_none, Recording.finish_begun ho.grounded hn.grounded hx, hcompare]
    rfl
  · rw [hcompared.confined.root, Builder.bare, delta_new, bare_eq]
  · have := hcompared.law htrail (by omega)
    rwa [Nat.zero_add] at this

/-- Whether the delta is empty is told by the law at its root: a delta is empty if its root is unchanged, and the
root, which cannot change its place, is unchanged if the trees below it do not differ. -/
theorem Law.isEmpty_iff (h : Law old new limit depth false input b)
    (hregular : Regular simple Unattached b.bare.delta) (hroot : b.bare.delta.element = input.bare) :
    b.delta.isEmpty = true ↔ ¬ Differs old new input := by
  have hentry : b.noted input.bare = told? b.bare.delta := by
    rw [noted, recorded?, ← hroot, find?_self, Option.bind_some]
  rw [← isEmpty_bare, show b.delta.bare = b.bare.delta from rfl, hregular.tidy.isEmpty_iff]
  constructor
  · intro hs hd
    exact h.noted_ne_none hd (hentry.trans (if_pos hs))
  · intro hd
    have hnone : told? b.bare.delta = none := hentry.symm.trans (h.agreeing hd)
    exact Classical.byContradiction fun hs => by simp [told?_of_ne hs] at hnone

/-- **The delta is empty** exactly if the trees below the input do not differ, at every depth limit. Above the limit
the difference is followed down to where it is, and at the limit all that is below is compared at once; so the limit
decides how much is told, and not whether anything is. -/
theorem isEmpty_recording_iff (ho : Arranged old) (hn : Arranged new) (hx : input.ParentDependent)
    (limit : Nat) :
    ∃ r b, start {} old input none limit = .ok r ∧ r.finish new = (.ok b, {}) ∧
      (b.delta.isEmpty = true ↔ ¬ Differs old new input) := by
  obtain ⟨r, b, hstart, hfinish, hregular, hroot, hlaw⟩ := recording_law ho hn hx limit
  have hinput : Law old new limit 0 false input b := hlaw (.here input false) (Nat.zero_le _)
  exact ⟨r, b, hstart, hfinish, hinput.isEmpty_iff hregular hroot⟩

/-- A recording that tells of a change of order and skips a unit that was closed. -/
theorem isEmpty_recording_iff_closed_unit :
    let root := Handle.top { name := "Node" } (some "r")
    let unit := root.sub { name := "Unit", openable := true } "u"
    let leaf := root.sub { name := "Node" } "a"
    let old : Bodies := [(root, { children := [unit, leaf] }), (unit, {}), (leaf, {})]
    let new : Bodies := [(root, { children := [leaf, unit] }), (leaf, {})]
    ∃ r b, start {} old root none 1 = .ok r ∧ r.finish new = (.ok b, {}) ∧ b.delta.isEmpty = false := by
  intro root unit leaf old new
  have ho : Arranged old := ⟨by decide, by decide, by decide⟩
  have hn : Arranged new := ⟨by decide, by decide, by decide⟩
  obtain ⟨r, b, hstart, hfinish, hempty⟩ :=
    isEmpty_recording_iff ho hn (show root.ParentDependent by decide) 1
  have hdiffers : Differs old new root := .children rfl rfl (by decide)
  refine ⟨r, b, hstart, hfinish, ?_⟩
  rw [← Bool.not_eq_true, hempty]
  exact not_not_intro hdiffers

end Recorder

end CodeModel
