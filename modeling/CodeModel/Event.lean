import CodeModel.Delta.Basic

/-!
# Events and listeners

Listeners register for kinds of events and are told of every event of those kinds.

* A listener is registered **once**; registering it again changes its kinds and keeps its place.
* An event goes to the listeners that are registered **when it is fired**, in the order of their
  registration, whatever they do to the list meanwhile.
-/

namespace CodeModel

/-- A set of kinds of events, one per bit. -/
structure EventKinds where
  /-- The bits of the set. -/
  bits : BitVec 32
deriving DecidableEq, Inhabited

namespace EventKinds

/-- Changes that have happened. -/
def postChange : EventKinds := ⟨1#32⟩

/-- Differences found by a reconcile. -/
def postReconcile : EventKinds := ⟨2#32⟩

/-- Some kind is in both sets. -/
def intersects (k l : EventKinds) : Bool := k.bits &&& l.bits != 0#32

end EventKinds

/-- What listeners are told. -/
structure Event where
  /-- The kind of the event. -/
  kind : EventKinds
  /-- What happened. -/
  deltas : List Delta

/-- Names a listener. -/
abbrev ListenerId := String

/-- The registered listeners with the kinds they are registered for, in the order of registration. -/
abbrev Listeners := List (ListenerId × EventKinds)

namespace Listeners

/-- Registers a listener, or changes the kinds of a registered one in place. -/
def add : Listeners → ListenerId → EventKinds → Listeners
  | [], l, kinds => [(l, kinds)]
  | (m, old) :: rest, l, kinds =>
    if m = l then (m, kinds) :: rest else (m, old) :: add rest l kinds

/-- Takes a listener out. -/
def remove (ls : Listeners) (l : ListenerId) : Listeners := ls.filter (·.1 != l)

/-- The listeners that are told of an event of that kind, in order. -/
def receivers (ls : Listeners) (kind : EventKinds) : List ListenerId :=
  (ls.filter (·.2.intersects kind)).map Prod.fst

/-- No listener is registered twice. -/
def Distinct (ls : Listeners) : Prop := (ls.map Prod.fst).Nodup

theorem map_fst_remasked (ls : Listeners) (l : ListenerId) (kinds : EventKinds) :
    (ls.map fun p => if p.1 = l then (l, kinds) else p).map Prod.fst = ls.map Prod.fst := by
  rw [List.map_map]
  refine List.map_congr_left fun p _ => ?_
  by_cases hp : p.1 = l <;> simp [hp]

/-- In a list without repetition there is **one entry** to be changed. -/
theorem Distinct.add_of_mem {ls : Listeners} {l : ListenerId} {kinds : EventKinds} (h : ls.Distinct)
    (hl : l ∈ ls.map Prod.fst) : add ls l kinds = ls.map fun p => if p.1 = l then (l, kinds) else p := by
  induction ls with
  | nil => cases hl
  | cons p rest ih =>
    obtain ⟨m, old⟩ := p
    rw [Distinct, List.map_cons, List.nodup_cons] at h
    rw [add, List.map_cons]
    by_cases hm : m = l
    · subst hm
      have hne : ∀ p ∈ rest, p.1 ≠ m := by
        rintro p hp rfl
        have hmem : p.1 ∈ rest.map Prod.fst := List.mem_map_of_mem hp
        exact h.1 hmem
      have hrest : rest.map (fun p => if p.1 = m then (m, kinds) else p) = rest :=
        (List.map_congr_left (g := id) fun p hp => if_neg (hne p hp)).trans (List.map_id rest)
      simp [hrest]
    · have hrest := ih h.2 ((List.mem_cons.mp hl).resolve_left (Ne.symm hm))
      simp [hm, hrest]

theorem add_of_not_mem {ls : Listeners} {l : ListenerId} (kinds : EventKinds)
    (h : l ∉ ls.map Prod.fst) : add ls l kinds = ls ++ [(l, kinds)] := by
  induction ls with
  | nil => rfl
  | cons p rest ih =>
    obtain ⟨m, old⟩ := p
    simp only [List.map_cons, List.mem_cons, not_or] at h
    simp [add, Ne.symm h.1, ih h.2]

end Listeners

end CodeModel
