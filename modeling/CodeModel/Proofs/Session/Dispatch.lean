import CodeModel.Session.Basic
import Mathlib.Data.List.Nodup

/-!
# Dispatch while the list changes

Listeners may do anything when they are told of an event: register and leave, change the kinds of others or send
them away, and fire events themselves, whose listeners do the same in their turn. Dispatch is **stable** under
all of it (`dispatch_stable`): every event goes to the listeners that were registered for it when it was fired,
once to each of them, in the order of their registration, and to nobody else.

* A **conduct** is all that is done to a list of listeners, by whoever does it; `perform` does it to a session
  and keeps a **journal**.
* What a part of a conduct adds to the journal is a **stretch** of it: the fires that begin there end there, and
  tell nobody outside it (`Stretch`). Stretches in a row are a stretch, and so is a fire around one.
* Every part of a conduct adds a stretch (`recorded_perform`), by induction on the conduct, and by another
  one, on the receivers of the event, where it fires one.
-/

namespace CodeModel.Dispatch

/-! ## Journals -/

/-- What a journal takes down. -/
inductive Notice where
  /-- A listener was registered for some kinds of events. -/
  | registered (l : ListenerId) (kinds : EventKinds)
  /-- A listener was taken out. -/
  | withdrawn (l : ListenerId)
  /-- The fire of an event began. Its number is its position in the journal. -/
  | began (event : Event)
  /-- The fire of that number told a listener of an event. -/
  | told (number : Nat) (l : ListenerId) (event : Event)
  /-- The fire of that number ended. -/
  | ended (number : Nat)

/-- A notice and the listeners right after it. -/
structure Moment where
  /-- What happened. -/
  notice : Notice
  /-- The list after it. -/
  listeners : Listeners

/-- All that happened, the earliest first. -/
abbrev Journal := List Moment

/-- All that is done, by listeners and by others. What is done next may depend on all there is to see. Events are
fired within replies as deep as one likes, but not without end: it is a tree, and so it can be done to a session by
recursion and reasoned about by induction. -/
inductive Conduct where
  /-- Nothing more. -/
  | rest
  /-- Looks at the session. -/
  | look (next : Session Journal → Conduct)
  /-- Does something to the elements. -/
  | work (change : Store → Store) (next : Conduct)
  /-- Registers a listener, or changes its kinds. -/
  | listen (l : ListenerId) (kinds : EventKinds) (next : Conduct)
  /-- Takes a listener out. -/
  | unlisten (l : ListenerId) (next : Conduct)
  /-- Fires an event, to which any listener replies as it likes. -/
  | fire (event : Event) (reply : ListenerId → Conduct) (next : Conduct)

/-- The session with a notice in its journal. -/
def noted (notice : Notice) (s : Session Journal) : Session Journal :=
  { s with world := s.world ++ [⟨notice, s.listeners⟩] }

/-- Takes down what happened. -/
def note (notice : Notice) : Action Journal Unit := modify (noted notice)

/-- A model whose listeners take down what they are told by the fire of that number, and then reply. -/
def host (number : Nat) (reply : ListenerId → Action Journal Unit) : Model Journal where
  validate _ _ := .ok ()
  build _ _ := pure ()
  onEvent l event := do
    note (.told number l event)
    reply l

/-- Does all that is done, and takes it down. -/
def perform : Conduct → Action Journal Unit
  | .rest => pure ()
  | .look next => do perform (next (← get))
  | .work change next => do
    Session.modifyStore change
    perform next
  | .listen l kinds next => do
    Session.listen l kinds
    note (.registered l kinds)
    perform next
  | .unlisten l next => do
    Session.unlisten l
    note (.withdrawn l)
    perform next
  | .fire event reply next => do
    let number := (← get).world.length
    note (.began event)
    Session.fire (host number fun l => perform (reply l)) event
    note (.ended number)
    perform next

/-- Whom the fire of that number told of what, in order. -/
def tellings (number : Nat) (j : Journal) : List (ListenerId × Event) :=
  j.filterMap fun m => match m.notice with
    | .told k l event => if k = number then some (l, event) else none
    | _ => none

/-- The listeners after a journal that began with some listeners. -/
def present (before : Listeners) : Journal → Listeners
  | [] => before
  | m :: j => present m.listeners j

variable {s t u : Session Journal} {j j₁ j₂ past future : Journal} {m : Moment} {notice : Notice}
  {before after ls last : Listeners} {l : ListenerId} {kinds : EventKinds} {event : Event} {number start : Nat}
  {told told₁ told₂ : Nat → List (ListenerId × Event)}

theorem tellings_append (number : Nat) (j₁ j₂ : Journal) :
    tellings number (j₁ ++ j₂) = tellings number j₁ ++ tellings number j₂ := List.filterMap_append

theorem present_append (before : Listeners) (j₁ j₂ : Journal) :
    present before (j₁ ++ j₂) = present (present before j₁) j₂ := by
  induction j₁ generalizing before with
  | nil => rfl
  | cons m j ih => exact ih m.listeners

/-! ## The list of listeners -/

/-- **What becomes of the list** when something happens. -/
inductive Turn (before : Listeners) : Notice → Listeners → Prop where
  /-- A listener that is registered again keeps its place, with the new kinds. -/
  | remasked {l : ListenerId} {kinds : EventKinds} (h : l ∈ before.map Prod.fst) :
    Turn before (.registered l kinds) (before.map fun p => if p.1 = l then (l, kinds) else p)
  /-- A listener that was not registered goes last. -/
  | appended {l : ListenerId} {kinds : EventKinds} (h : l ∉ before.map Prod.fst) :
    Turn before (.registered l kinds) (before ++ [(l, kinds)])
  /-- A listener that is taken out is gone. -/
  | withdrawn {l : ListenerId} : Turn before (.withdrawn l) (before.filter fun p => decide (p.1 ≠ l))
  /-- A fire leaves the list alone. -/
  | began {event : Event} : Turn before (.began event) before
  /-- So does telling a listener. -/
  | told {number : Nat} {l : ListenerId} {event : Event} : Turn before (.told number l event) before
  /-- So does the end of a fire. -/
  | ended {number : Nat} : Turn before (.ended number) before

theorem turn_add (h : before.Distinct) : Turn before (.registered l kinds) (before.add l kinds) := by
  by_cases hl : l ∈ before.map Prod.fst
  · rw [h.add_of_mem hl]
    exact .remasked hl
  · rw [Listeners.add_of_not_mem kinds hl]
    exact .appended hl

theorem turn_remove (before : Listeners) (l : ListenerId) : Turn before (.withdrawn l) (before.remove l) := by
  have hremove : before.remove l = before.filter fun p => decide (p.1 ≠ l) :=
    List.filter_congr fun p _ => (decide_not ..).symm
  rw [hremove]
  exact .withdrawn

/-- No listener comes to be registered twice: registering one that is there changes the kinds it asked for, and adds
no entry. -/
theorem Turn.distinct (h : Turn before notice after) (hd : before.Distinct) : after.Distinct := by
  cases h with
  | remasked =>
    rw [Listeners.Distinct, Listeners.map_fst_remasked]
    exact hd
  | appended hl =>
    rw [Listeners.Distinct, List.map_append, List.map_singleton, ← List.concat_eq_append]
    exact List.Nodup.concat hl hd
  | withdrawn => exact hd.sublist (List.filter_sublist.map Prod.fst)
  | began | told | ended => exact hd

/-- Only a registration brings a listener in. Events and removals leave absent listeners absent. -/
theorem Turn.not_mem (h : Turn before notice after) (hl : l ∉ before.map Prod.fst)
    (hnotice : ∀ kinds, notice ≠ .registered l kinds) : l ∉ after.map Prod.fst := by
  cases h with
  | remasked => rwa [Listeners.map_fst_remasked]
  | @appended k kinds _ =>
    have hne : l ≠ k := fun hlk => hnotice kinds (hlk ▸ rfl)
    simpa [hne] using hl
  | withdrawn => exact fun hmem => hl ((List.filter_sublist.map Prod.fst).subset hmem)
  | began | told | ended => exact hl

/-- The list unfolds from some listeners, turn after turn. -/
def Unfolds (before : Listeners) : Journal → Prop
  | [] => True
  | m :: j => Turn before m.notice m.listeners ∧ Unfolds m.listeners j

theorem unfolds_append : Unfolds before (j₁ ++ j₂) ↔ Unfolds before j₁ ∧ Unfolds (present before j₁) j₂ := by
  induction j₁ generalizing before with
  | nil => simp [Unfolds, present]
  | cons m j ih => simp only [List.cons_append, Unfolds, present, ih, and_assoc]

/-- A list that has no listener twice goes on having none twice. -/
theorem Unfolds.distinct (h : Unfolds before j) (hd : before.Distinct) :
    (present before j).Distinct ∧ ∀ m ∈ j, m.listeners.Distinct := by
  induction j generalizing before with
  | nil => exact ⟨hd, by simp⟩
  | cons m j ih =>
    have hm := h.1.distinct hd
    obtain ⟨hpresent, hall⟩ := ih h.2 hm
    exact ⟨hpresent, List.forall_mem_cons.mpr ⟨hm, hall⟩⟩

/-- A listener that is not there comes only by being registered, however many things happen in between. -/
theorem Unfolds.not_mem (h : Unfolds before j) (hl : l ∉ before.map Prod.fst)
    (hj : ∀ m ∈ j, ∀ kinds, m.notice ≠ .registered l kinds) : l ∉ (present before j).map Prod.fst := by
  induction j generalizing before with
  | nil => exact hl
  | cons m j ih =>
    obtain ⟨hm, hj⟩ := List.forall_mem_cons.mp hj
    exact ih h.2 (h.1.not_mem hl hm) hj

/-- **A listener that left and came back goes last**: in between it is not there, so the registration puts it at the
end. -/
theorem Unfolds.getLast? {inner : Journal} (h : Unfolds before
      (past ++ ⟨.withdrawn l, ls⟩ :: (inner ++ ⟨.registered l kinds, after⟩ :: future)))
    (hinner : ∀ m ∈ inner, ∀ kinds, m.notice ≠ .registered l kinds) :
    after.getLast? = some (l, kinds) := by
  obtain ⟨-, hleft, hrest⟩ := unfolds_append.mp h
  obtain ⟨hinnerUnfolds, hback, -⟩ := unfolds_append.mp hrest
  have hgone : l ∉ ls.map Prod.fst := by
    cases hleft
    simp
  have habsent := hinnerUnfolds.not_mem hgone hinner
  cases hback with
  | remasked hmem => exact absurd hmem habsent
  | appended => exact List.getLast?_concat

/-! ## Fires -/

/-- **The event was delivered** to the listeners that were registered for it, and to nobody else. The list is that
at the beginning of the fire; what becomes of it meanwhile does not matter. -/
structure Delivered (event : Event) (ls : Listeners) (told : List (ListenerId × Event)) : Prop where
  /-- listeners were told in the order of their registration -/
  order : (told.map Prod.fst).Sublist (ls.map Prod.fst)
  /-- none was told twice -/
  once : (told.map Prod.fst).Nodup
  /-- just those were told that were registered for a kind of the event -/
  whom : ∀ l, l ∈ told.map Prod.fst ↔ ∃ kinds, (l, kinds) ∈ ls ∧ kinds.intersects event.kind = true
  /-- they were told of the event -/
  what : ∀ p ∈ told, p.2 = event

theorem delivered_receivers (event : Event) (h : ls.Distinct) :
    Delivered event ls ((ls.receivers event.kind).map (·, event)) := by
  have hnames : ((ls.receivers event.kind).map (·, event)).map Prod.fst = ls.receivers event.kind := by
    rw [List.map_map]
    exact List.map_id _
  have hsub : (ls.receivers event.kind).Sublist (ls.map Prod.fst) := List.filter_sublist.map Prod.fst
  refine ⟨?_, ?_, fun l => ?_, fun p hp => ?_⟩
  · rwa [hnames]
  · rw [hnames]
    exact hsub.nodup h
  · rw [hnames, Listeners.receivers, List.mem_map]
    simp [and_comm]
  · obtain ⟨l, -, rfl⟩ := List.mem_map.mp hp
    rfl

/-- **A fire** with that number, what was before it, the listeners when it began, and what came then: it came to
its end, had delivered its event by then, and told nobody before or after. -/
def Fired (number : Nat) (past : Journal) (event : Event) (ls : Listeners) (future : Journal) : Prop :=
  ∃ inner last rest, future = inner ++ ⟨.ended number, last⟩ :: rest ∧
    Delivered event ls (tellings number inner) ∧ tellings number past = [] ∧ tellings number rest = []

/-- **A stretch** of a journal; positions in the journal are counted from its start. It is what a part of a conduct
leaves behind, and the two parts of the definition are what the next part must not disturb. -/
structure Stretch (start : Nat) (j : Journal) : Prop where
  /-- who is told is told by a fire that began before the stretch, or in it -/
  begun : ∀ {number l event}, (l, event) ∈ tellings number j → start ≤ number →
    ∃ past ls future, j = past ++ ⟨.began event, ls⟩ :: future ∧ number = start + past.length
  /-- what begins in the stretch comes to its end there -/
  fires : ∀ {past event ls future}, j = past ++ ⟨.began event, ls⟩ :: future →
    Fired (start + past.length) past event ls future

theorem Stretch.tellings_eq_nil (h : Stretch start j) (hnumber : start + j.length ≤ number) :
    tellings number j = [] := by
  refine List.eq_nil_iff_forall_not_mem.mpr fun ⟨l, event⟩ hmem => ?_
  obtain ⟨past, ls, future, rfl, rfl⟩ := h.begun hmem (by omega)
  rw [List.length_append, List.length_cons] at hnumber
  omega

theorem stretch_nil (start : Nat) : Stretch start [] := by
  refine ⟨fun h => ?_, fun h => ?_⟩
  · cases h
  · cases (List.append_eq_nil_iff.mp h.symm).2

theorem eq_of_split_single {m' : Moment} (h : [m] = past ++ m' :: future) : m' = m := by
  have hm : m' ∈ [m] := by
    rw [h]
    simp
  exact List.mem_singleton.mp hm

/-- A notice that begins no fire, and tells nobody for one that began here. -/
theorem stretch_single (hbegan : ∀ event, m.notice ≠ .began event)
    (htold : ∀ number, start ≤ number → tellings number [m] = []) : Stretch start [m] := by
  refine ⟨fun hmem hle => ?_, fun h => ?_⟩
  · rw [htold _ hle] at hmem
    cases hmem
  · cases eq_of_split_single h
    exact absurd rfl (hbegan _)

/-- A moment of two stretches in a row is one of the first or one of the second. -/
theorem split_append (h : j₁ ++ j₂ = past ++ m :: future) :
    (∃ rest, j₁ = past ++ m :: rest ∧ future = rest ++ j₂) ∨
      ∃ rest, past = j₁ ++ rest ∧ j₂ = rest ++ m :: future := by
  obtain ⟨rest, hpast, hj₂⟩ | ⟨rest, hj₁, hfuture⟩ := List.append_eq_append_iff.mp h
  · exact .inr ⟨rest, hpast, hj₂⟩
  · cases rest with
    | nil => exact .inr ⟨[], by simpa using hj₁.symm, hfuture.symm⟩
    | cons m' rest =>
      obtain ⟨rfl, rfl⟩ := List.cons.inj hfuture
      exact .inl ⟨rest, hj₁, rfl⟩

/-- **Stretches in a row** are a stretch, if the second one tells nobody for fires of the first: a fire that has
come to its end is not told of again. -/
theorem Stretch.append (h₁ : Stretch start j₁) (h₂ : Stretch (start + j₁.length) j₂)
    (hquiet : ∀ number, start ≤ number → number < start + j₁.length → tellings number j₂ = []) :
    Stretch start (j₁ ++ j₂) := by
  refine ⟨fun {number l event} hmem hle => ?_, fun {past event ls future} h => ?_⟩
  · rw [tellings_append, List.mem_append] at hmem
    cases hmem with
    | inl hmem =>
      obtain ⟨past, ls, future, rfl, rfl⟩ := h₁.begun hmem hle
      exact ⟨past, ls, future ++ j₂, by simp, rfl⟩
    | inr hmem =>
      have hlater : start + j₁.length ≤ number := by
        refine Nat.le_of_not_lt fun hlt => ?_
        rw [hquiet number hle hlt] at hmem
        cases hmem
      obtain ⟨past, ls, future, rfl, rfl⟩ := h₂.begun hmem hlater
      exact ⟨j₁ ++ past, ls, future, by simp, by simp [Nat.add_assoc]⟩
  · obtain ⟨rest, rfl, rfl⟩ | ⟨rest, rfl, rfl⟩ := split_append h
    · obtain ⟨inner, last, tail, rfl, hdelivered, hpast, htail⟩ := h₁.fires rfl
      refine ⟨inner, last, tail ++ j₂, by simp, hdelivered, hpast, ?_⟩
      rw [tellings_append, htail, hquiet _ (by omega) (by simp), List.append_nil]
    · obtain ⟨inner, last, tail, rfl, hdelivered, hpast, htail⟩ := h₂.fires rfl
      have hnumber : start + j₁.length + rest.length = start + (j₁ ++ rest).length := by
        rw [List.length_append, Nat.add_assoc]
      rw [hnumber] at hdelivered hpast htail
      refine ⟨inner, last, tail, by rw [hnumber], hdelivered, ?_, htail⟩
      rw [tellings_append, hpast, h₁.tellings_eq_nil (by simp), List.append_nil]

theorem tellings_around (number k : Nat) (event : Event) (ls last : Listeners) (j : Journal) :
    tellings number (⟨.began event, ls⟩ :: (j ++ [⟨.ended k, last⟩])) = tellings number j := by
  simp [tellings]

/-- **A fire around a stretch** is a stretch, if its event is delivered there. What is told within by other fires
began within, and what is told by this one is what it delivers. -/
theorem Stretch.around (h : Stretch (start + 1) j) (hdelivered : Delivered event ls (tellings start j)) :
    Stretch start (⟨.began event, ls⟩ :: (j ++ [⟨.ended start, last⟩])) := by
  refine ⟨fun {number l event'} hmem hle => ?_, fun {past event' ls' future} hsplit => ?_⟩
  · rw [tellings_around] at hmem
    obtain rfl | hlt := Nat.eq_or_lt_of_le hle
    · obtain rfl : event' = event := hdelivered.what _ hmem
      exact ⟨[], ls, _, rfl, rfl⟩
    · obtain ⟨past, ls', future, rfl, rfl⟩ := h.begun hmem hlt
      refine ⟨⟨.began event, ls⟩ :: past, ls', future ++ [⟨.ended start, last⟩], by simp, ?_⟩
      rw [List.length_cons]
      omega
  · cases past with
    | nil =>
      obtain ⟨hm, rfl⟩ := List.cons.inj hsplit
      cases hm
      exact ⟨j, last, [], rfl, hdelivered, rfl, rfl⟩
    | cons m past =>
      obtain ⟨rfl, hrest⟩ := List.cons.inj hsplit
      obtain ⟨rest, rfl, rfl⟩ | ⟨rest, rfl, hend⟩ := split_append hrest
      · -- a fire within the fire
        obtain ⟨inner, last', tail, rfl, hinner, hpast, htail⟩ := h.fires rfl
        have hnumber : start + 1 + past.length = start + (past.length + 1) := by omega
        rw [hnumber] at hinner hpast htail
        refine ⟨inner, last', tail ++ [⟨.ended start, last⟩], by simp [hnumber], hinner, hpast, ?_⟩
        rw [tellings_append, List.length_cons, htail]
        rfl
      · cases eq_of_split_single hend

/-! ## Conducts -/

/-- On the way from one session to the other a stretch was added to the journal, in which fires that had begun
before told some listeners. Telling these apart lets a fire count who was told on its behalf, while its listeners
fire others. -/
structure Recorded (s t : Session Journal) (j : Journal) (told : Nat → List (ListenerId × Event)) : Prop where
  /-- this is what was added -/
  world : t.world = s.world ++ j
  /-- it shows what became of the list -/
  unfolds : Unfolds s.listeners j
  /-- to its end -/
  listeners : present s.listeners j = t.listeners
  /-- fires that began came to their ends -/
  stretch : Stretch s.world.length j
  /-- fires that had begun before told these listeners -/
  told : ∀ number < s.world.length, tellings number j = told number

theorem Recorded.distinct (h : Recorded s t j told) (hs : s.listeners.Distinct) : t.listeners.Distinct :=
  h.listeners ▸ (h.unfolds.distinct hs).1

theorem recorded_nil (hworld : t.world = s.world) (hlisteners : t.listeners = s.listeners) :
    Recorded s t [] fun _ => [] :=
  ⟨by simp [hworld], trivial, hlisteners.symm, stretch_nil _, fun _ _ => rfl⟩

/-- One part after the other: what was told by earlier fires adds up. -/
theorem Recorded.trans (h₁ : Recorded s t j₁ told₁) (h₂ : Recorded t u j₂ told₂)
    (hquiet : ∀ number, s.world.length ≤ number → told₂ number = []) :
    Recorded s u (j₁ ++ j₂) fun number => told₁ number ++ told₂ number := by
  have hlength : t.world.length = s.world.length + j₁.length := by rw [h₁.world, List.length_append]
  refine ⟨?_, ?_, ?_, ?_, fun number hlt => ?_⟩
  · rw [h₂.world, h₁.world, List.append_assoc]
  · exact unfolds_append.mpr ⟨h₁.unfolds, h₁.listeners ▸ h₂.unfolds⟩
  · rw [present_append, h₁.listeners, h₂.listeners]
  · refine h₁.stretch.append (hlength ▸ h₂.stretch) fun number hle hlt => ?_
    rw [h₂.told number (hlength ▸ hlt), hquiet number hle]
  · rw [tellings_append, h₁.told number hlt, h₂.told number (by omega)]

/-- A notice of what was done to the list, or of a listener that was told. -/
theorem recorded_noted (hworld : t.world = s.world) (hturn : Turn s.listeners notice t.listeners)
    (hbegan : ∀ event, notice ≠ .began event)
    (htold : ∀ number, s.world.length ≤ number → tellings number [⟨notice, t.listeners⟩] = []) :
    Recorded s (noted notice t) [⟨notice, t.listeners⟩] fun number => tellings number [⟨notice, t.listeners⟩] :=
  ⟨by rw [noted, hworld], ⟨hturn, trivial⟩, rfl, stretch_single hbegan htold, fun _ _ => rfl⟩

/-- What is told by one fire only. -/
def toldBy (number : Nat) (told : List (ListenerId × Event)) : Nat → List (ListenerId × Event) :=
  fun k => if k = number then told else []

theorem toldBy_self (number : Nat) (told : List (ListenerId × Event)) : toldBy number told number = told :=
  if_pos rfl

theorem toldBy_of_ne {k : Nat} (told : List (ListenerId × Event)) (h : k ≠ number) : toldBy number told k = [] :=
  if_neg h

theorem tellings_told (number : Nat) (l : ListenerId) (event : Event) (ls : Listeners) :
    (fun k => tellings k [⟨.told number l event, ls⟩]) = toldBy number [(l, event)] := by
  funext k
  by_cases hk : k = number
  · simp [tellings, toldBy, hk]
  · simp [tellings, toldBy, hk, Ne.symm hk]

/-- **A fire** with all that its listeners do is a stretch that tells nobody for fires from before. -/
theorem Recorded.around (hs : s.listeners.Distinct)
    (h : Recorded (noted (.began event) s) t j
      (toldBy s.world.length ((s.listeners.receivers event.kind).map (·, event)))) :
    Recorded s (noted (.ended s.world.length) t)
      (⟨.began event, s.listeners⟩ :: (j ++ [⟨.ended s.world.length, t.listeners⟩])) fun _ => [] := by
  have hlength : (noted (.began event) s).world.length = s.world.length + 1 := List.length_append
  refine ⟨?_, ⟨.began, ?_⟩, ?_, ?_, fun number hlt => ?_⟩
  · simp [noted, h.world]
  · refine unfolds_append.mpr ⟨h.unfolds, ?_, trivial⟩
    rw [show present s.listeners j = t.listeners from h.listeners]
    exact .ended
  · exact present_append ..
  · refine (hlength ▸ h.stretch).around ?_
    rw [h.told _ (by omega), toldBy_self]
    exact delivered_receivers event hs
  · rw [tellings_around, h.told number (by omega), toldBy_of_ne _ (by omega)]

/-- **The receivers of an event** are told one after the other, and each of them replies at once. By induction on
the receivers, which are those of the beginning: no reply adds to them or takes any of them away. -/
theorem recorded_receivers {reply : ListenerId → Action Journal Unit}
    (hreply : ∀ l s, s.listeners.Distinct → ∃ j, Recorded s (reply l s).2 j fun _ => [])
    (receivers : List ListenerId) (s : Session Journal) (hs : s.listeners.Distinct)
    (hnumber : number < s.world.length) :
    ∃ j, Recorded s ((receivers.forM fun l => (host number reply).onEvent l event : Action Journal Unit) s).2 j
      (toldBy number (receivers.map (·, event))) := by
  induction receivers generalizing s with
  | nil =>
    refine ⟨[], ?_⟩
    have hnobody : toldBy number (List.map (·, event) []) = fun _ => [] := funext fun _ => ite_self []
    exact hnobody ▸ recorded_nil rfl rfl
  | cons l receivers ih =>
    let s₁ : Session Journal := noted (.told number l event) s
    have htell : Recorded s s₁ [⟨.told number l event, s.listeners⟩] (toldBy number [(l, event)]) := by
      rw [← tellings_told number l event s.listeners]
      refine recorded_noted rfl .told (fun _ h => nomatch h) fun k hle => ?_
      exact (congrFun (tellings_told number l event s.listeners) k).trans (toldBy_of_ne _ (by omega))
    obtain ⟨j₁, hj₁⟩ := hreply l s₁ hs
    have hlength : number < (reply l s₁).2.world.length := by
      rw [hj₁.world, htell.world, List.length_append, List.length_append]
      omega
    obtain ⟨j₂, hj₂⟩ := ih (reply l s₁).2 (hj₁.distinct hs) hlength
    have hall : toldBy number ((l :: receivers).map (·, event)) = fun k =>
        toldBy number [(l, event)] k ++ ([] ++ toldBy number (receivers.map (·, event)) k) := by
      funext k
      by_cases hk : k = number <;> simp [toldBy, hk]
    rw [hall]
    refine ⟨_, htell.trans (hj₁.trans hj₂ fun k hle => toldBy_of_ne _ ?_) fun k hle => toldBy_of_ne _ ?_⟩
    · rw [htell.world, List.length_append] at hle
      omega
    · omega

/-- **Every part of a conduct** adds a stretch to the journal, in which fires from before tell nobody. By induction
on the conduct; where it fires an event, the replies are parts of it as well. -/
theorem recorded_perform (conduct : Conduct) (s : Session Journal) (hs : s.listeners.Distinct) :
    ∃ j, Recorded s (perform conduct s).2 j fun _ => [] := by
  induction conduct generalizing s with
  | rest => exact ⟨[], recorded_nil rfl rfl⟩
  | look next ih => exact ih s s hs
  | work change next ih =>
    let s₁ : Session Journal := { s with store := change s.store }
    have hwork : Recorded s s₁ [] fun _ => [] := recorded_nil rfl rfl
    obtain ⟨j, hj⟩ := ih s₁ hs
    exact ⟨j, hwork.trans hj fun _ _ => rfl⟩
  | listen l kinds next ih =>
    let s₁ : Session Journal := { s with listeners := s.listeners.add l kinds }
    have hnote : Recorded s (noted (.registered l kinds) s₁) [⟨.registered l kinds, s₁.listeners⟩] fun _ => [] :=
      recorded_noted rfl (turn_add hs) (fun _ h => nomatch h) fun _ _ => rfl
    obtain ⟨j, hj⟩ := ih (noted (.registered l kinds) s₁) (hnote.distinct hs)
    exact ⟨_, hnote.trans hj fun _ _ => rfl⟩
  | unlisten l next ih =>
    let s₁ : Session Journal := { s with listeners := s.listeners.remove l }
    have hnote : Recorded s (noted (.withdrawn l) s₁) [⟨.withdrawn l, s₁.listeners⟩] fun _ => [] :=
      recorded_noted rfl (turn_remove s.listeners l) (fun _ h => nomatch h) fun _ _ => rfl
    obtain ⟨j, hj⟩ := ih (noted (.withdrawn l) s₁) (hnote.distinct hs)
    exact ⟨_, hnote.trans hj fun _ _ => rfl⟩
  | fire event reply next ihReply ih =>
    have hlength : s.world.length < (noted (.began event) s).world.length := by
      rw [noted, List.length_append]
      exact Nat.lt_succ_self _
    obtain ⟨j₁, hj₁⟩ := recorded_receivers (fun l => ihReply l) (s.listeners.receivers event.kind)
      (noted (.began event) s) hs hlength
    have hfire := hj₁.around hs
    obtain ⟨j₂, hj₂⟩ := ih _ (hfire.distinct hs)
    exact ⟨_, hfire.trans hj₂ fun _ _ => rfl⟩

/-! ## Stability -/

/-- **Dispatch was stable**, as the journal of the session shows: it has all registrations, all fires and all that
was told, and the list of listeners right after each of these. -/
structure Stable (s : Session Journal) : Prop where
  /-- a fire delivers its event to the listeners that were registered for it when the fire began, in the order of
  their registration, once to each and to nobody else; its number is its position -/
  fires : ∀ {past event ls future}, s.world = past ++ ⟨.began event, ls⟩ :: future →
    Fired past.length past event ls future
  /-- nobody is told but by a fire, and of its event -/
  begun : ∀ {number l event}, (l, event) ∈ tellings number s.world →
    ∃ past ls future, s.world = past ++ ⟨.began event, ls⟩ :: future ∧ number = past.length
  /-- the list never holds a listener twice -/
  distinct : ∀ m ∈ s.world, m.listeners.Distinct
  /-- what is done to the list changes nothing else in it; a listener that is registered again keeps its place -/
  turns : ∀ {past notice ls future}, s.world = past ++ ⟨notice, ls⟩ :: future → Turn (present [] past) notice ls
  /-- a listener that was taken out and is registered again goes last -/
  last : ∀ {past inner future l kinds gone back},
    s.world = past ++ ⟨.withdrawn l, gone⟩ :: (inner ++ ⟨.registered l kinds, back⟩ :: future) →
    (∀ m ∈ inner, ∀ kinds, m.notice ≠ .registered l kinds) → back.getLast? = some (l, kinds)
  /-- the journal leads to the list there is -/
  listeners : present [] s.world = s.listeners

/-- **Dispatch is stable**, whatever is done to the list of listeners, by the listeners themselves among others, and
however deep they fire events while they are told of others. The whole journal is one stretch from its beginning, so
nothing in it is told by a fire from before. -/
theorem dispatch_stable (conduct : Conduct) (config : Config) (arrangement : Arrangement) :
    Stable (perform conduct (Session.new config [] arrangement)).2 := by
  obtain ⟨j, hj⟩ := recorded_perform conduct (Session.new config [] arrangement) List.nodup_nil
  have hworld : (perform conduct (Session.new config [] arrangement)).2.world = j := hj.world
  have hunfolds : Unfolds [] j := hj.unfolds
  have hstretch : Stretch 0 j := hj.stretch
  constructor <;> rw [hworld]
  case fires =>
    intro past event ls future h
    have hfired := hstretch.fires h
    rwa [Nat.zero_add] at hfired
  case begun =>
    intro number l event hmem
    obtain ⟨past, ls, future, hpast, hnumber⟩ := hstretch.begun hmem (Nat.zero_le _)
    exact ⟨past, ls, future, hpast, by rw [hnumber, Nat.zero_add]⟩
  case distinct => exact (hunfolds.distinct List.nodup_nil).2
  case turns =>
    rintro past notice ls future rfl
    exact (unfolds_append.mp hunfolds).2.1
  case last =>
    rintro past inner future l kinds gone back rfl hinner
    exact hunfolds.getLast? hinner
  case listeners => exact hj.listeners

/-- A listener that sends away the next one when it is told: the event reaches both. -/
example :
    let event : Event := { kind := .postChange, deltas := [] }
    let conduct : Conduct := .listen "a" .postChange <| .listen "b" .postChange <|
      .fire event (fun l => if l = "a" then .unlisten "b" (.listen "c" .postChange .rest) else .rest) .rest
    let s := (perform conduct (Session.new {} [])).2
    (tellings 2 s.world).map Prod.fst = ["a", "b"] ∧ s.listeners.map Prod.fst = ["a", "c"] := by
  decide +kernel

end CodeModel.Dispatch
