import CodeModel.Proofs.Foo.Opening

/-!
# Queries

Queries do nothing but ask for bodies, one after the other. What is to be known about them follows from
what is known about requests for bodies.

* Two operations are **alike** on related sessions if they give one answer and keep the sessions related.
* A **query** is an operation that is alike on any sessions on which requests for bodies are
  (`IsQuery`): the children of an element, its text, the innermost element at a position.
* The search for a position goes down **three levels** at most, whatever its bound (`alike_descend`).
* So every query is a turnover of the store (`IsQuery.turnover`).
-/

namespace CodeModel.Foo

open Session

variable {std : Standard} {p : Project} {refusal : Refusal} {s : Session Desk} {e : Handle}
  {α β : Type} {rel : Session Desk → Session Desk → Prop}

/-! ## Operations that are alike -/

/-- On related sessions both operations give one answer, and the sessions stay related. -/
def Alike (rel : Session Desk → Session Desk → Prop) (post : α → Prop) (x y : Op Desk α) : Prop :=
  ∀ s t, rel s t → ∃ r s' t', x.run s = (r, s') ∧ y.run t = (r, t') ∧ rel s' t' ∧
    ∀ a, r = .ok a → post a

/-- To answer at once does nothing to the sessions. -/
theorem Alike.pure {post : α → Prop} {a : α} (h : post a) :
    Alike rel post (Pure.pure a) (Pure.pure a) := by
  intro s t hrel
  refine ⟨.ok a, s, t, rfl, rfl, hrel, fun a ha => ?_⟩
  cases ha
  exact h

theorem Alike.throw {post : α → Prop} (error : Error) :
    Alike rel post (MonadExcept.throw error) (MonadExcept.throw error) := by
  intro s t hrel
  exact ⟨.error error, s, t, rfl, rfl, hrel, fun a ha => by cases ha⟩

/-- Operations one after the other are alike if each of them is; the second one may rely on the answer of the first
one. -/
theorem Alike.bind {post : α → Prop} {post' : β → Prop} {x y : Op Desk α} {f g : α → Op Desk β}
    (h : Alike rel post x y) (hfg : ∀ a, post a → Alike rel post' (f a) (g a)) :
    Alike rel post' (x >>= f) (y >>= g) := by
  intro s t hrel
  obtain ⟨r, s', t', hx, hy, hrel', hpost⟩ := h s t hrel
  simp only [Op.run_bind, hx, hy]
  rcases r with error | a
  · exact ⟨.error error, s', t', rfl, rfl, hrel', fun a ha => by cases ha⟩
  · exact hfg a (hpost a rfl) s' t' hrel'

/-! ## What is a query -/

/-- The children of the body are elements of the model, one level below the element. -/
def Lists (e : Handle) (b : Body) : Prop := ∀ c ∈ b.children, IsElement c ∧ c.parent? = some e

/-- Requests for bodies of elements are alike on related sessions. -/
def AnswersAlike (p : Project) (refusal : Refusal) (rel : Session Desk → Session Desk → Prop) : Prop :=
  ∀ e, IsElement e → Alike rel (Lists e) (body (p.hosted refusal) e) (body (p.hosted refusal) e)

/-- **A query** does nothing but ask for bodies of elements: it is alike on all sessions on which requests for
bodies are. The relation is left open, so that what is proved once serves for twins as well as for one session that
is related to itself. -/
def IsQuery (p : Project) (refusal : Refusal) (post : α → Prop) (x : Op Desk α) : Prop :=
  ∀ rel, AnswersAlike p refusal rel → Alike rel post x x

/-- The children of an element are read off its body. -/
theorem isQuery_children (he : IsElement e) :
    IsQuery p refusal (fun _ => True) (Session.children (p.hosted refusal) e) := fun _ hbody =>
  (hbody e he).bind fun _ _ => .pure trivial

theorem isQuery_sourceText (he : IsElement e) :
    IsQuery p refusal (fun _ => True) (Session.sourceText (p.hosted refusal) e) := fun _ hbody =>
  (hbody e he).bind fun _ _ => .pure trivial

/-! ## The search for a position -/

/-- There are three levels of elements: projects, files and declarations. -/
theorem IsElement.depth_lt (he : IsElement e) : e.depth < 3 := by
  have hroot : ∀ {q : Handle}, IsProject q → q.depth = 0 := by
    rintro (n | ⟨q, n⟩) hq
    · rfl
    · cases hq
  have hbelow : ∀ {f : Handle}, IsFile f → f.depth = 1 := by
    rintro (n | ⟨q, n⟩) hf
    · cases hf
    · rw [Handle.depth, hroot hf.1]
  rcases he with hq | hf | ⟨f, hf, n, rfl, -⟩
  · rw [hroot hq]
    decide
  · rw [hbelow hf]
    decide
  · rw [Handle.depth, hbelow hf]
    decide

/-- What is found among children is one of them, with a body of its own. -/
def Found (e : Handle) (o : Option (Handle × Body)) : Prop :=
  ∀ c b, o = some (c, b) → IsElement c ∧ c.parent? = some e ∧ Lists c b

section Search

variable (hbody : AnswersAlike p refusal rel)

include hbody

/-- The first child that covers a position is found by asking for the bodies of the children in turn. -/
theorem alike_firstCovering (position : Nat) {l : List Handle}
    (hl : ∀ c ∈ l, IsElement c ∧ c.parent? = some e) :
    Alike rel (Found e) (firstCovering (p.hosted refusal) position l)
      (firstCovering (p.hosted refusal) position l) := by
  induction l with
  | nil => exact Alike.pure fun c b h => by cases h
  | cons c l ih =>
    obtain ⟨hc, hparent⟩ := hl c (List.mem_cons_self ..)
    refine (hbody c hc).bind fun b hb => ?_
    by_cases hcovers : b.covers position = true
    · simp only [hcovers, if_true]
      refine .pure fun c' b' h => ?_
      cases h
      exact ⟨hc, hparent, hb⟩
    · simp only [hcovers]
      exact ih fun d hd => hl d (List.mem_cons_of_mem _ hd)

/-- **The descent ends by itself**: any two bounds that allow for the levels below the element lead to the same
answer. The induction is on the first bound. Every step goes one level down, and what stands on the lowest level
has no children, for these would stand lower still. -/
theorem alike_descend (position : Nat) {fuel fuel' : Nat} {b : Body} (he : IsElement e) (hb : Lists e b)
    (hfuel : 3 ≤ e.depth + fuel) (hfuel' : 3 ≤ e.depth + fuel') :
    Alike rel (fun _ => True) (descend (p.hosted refusal) position fuel e b)
      (descend (p.hosted refusal) position fuel' e b) := by
  have hdepth := he.depth_lt
  induction fuel generalizing e b fuel' with
  | zero => omega
  | succ fuel ih =>
    obtain ⟨fuel', rfl⟩ : ∃ m, fuel' = m + 1 := ⟨fuel' - 1, by omega⟩
    rw [descend, descend]
    apply (alike_firstCovering hbody position hb).bind
    rintro (_ | ⟨c, cb⟩) hfound
    · exact .pure trivial
    · obtain ⟨hc, hparent, hcb⟩ := hfound c cb rfl
      have hdown : c.depth = e.depth + 1 := by
        cases c with
        | root n => cases hparent
        | child q n => rw [Handle.depth, Option.some.inj hparent]
      exact ih hc hcb (by omega) (by omega) hc.depth_lt

/-- The bound on the search for a position makes no difference, if it allows for three levels. -/
theorem alike_innermostAt (position : Nat) (base : Option Snapshot) {levels levels' : Nat} (he : IsElement e)
    (hlevels : 3 ≤ levels) (hlevels' : 3 ≤ levels') :
    Alike rel (fun _ => True) (innermostAt (p.hosted refusal) e position base levels)
      (innermostAt (p.hosted refusal) e position base levels') := by
  refine (hbody e he).bind fun b hb => ?_
  rcases b.source with _ | source
  · exact .pure trivial
  · simp only
    split
    · exact .throw _
    · split
      · apply (alike_descend hbody position he hb (Nat.le_trans hlevels (Nat.le_add_left ..))
          (Nat.le_trans hlevels' (Nat.le_add_left ..))).bind
        exact fun _ _ => .pure trivial
      · exact .pure trivial

end Search

/-- The element at a position is found by asking for bodies, first that of the file and then those of its
declarations. There is nothing else that the answer depends on. -/
theorem isQuery_innermostAt (position : Nat) (base : Option Snapshot) (he : IsElement e) :
    IsQuery p refusal (fun _ => True) (innermostAt (p.hosted refusal) e position base) := by
  have hlevels : 3 ≤ maxLevels := by decide
  exact fun _ hbody => alike_innermostAt hbody position base he hlevels hlevels

/-! ## Queries and the store -/

/-- **Children in cached bodies** are elements, and stand where they belong. A project lists files, a file lists its
declarations, and a declaration lists nothing. -/
theorem Coherent.child {store : Store} {b : Body} {c : Handle} (h : Coherent std store)
    (he : IsElement e) (hb : store.cache.peek? e = some b) (hc : c ∈ b.children) :
    IsElement c ∧ c.parent? = some e := by
  rcases he with hq | hf | ⟨f, hf, hx⟩
  · obtain ⟨hfile, hpar⟩ := std.children (h.faithful.project hq hb) c hc
    exact ⟨hfile.element, hpar⟩
  · obtain ⟨sn, rfl, -⟩ := h.faithful.file hf hb
    have hd := declaredIn_of_mem_ownBody hc
    exact ⟨hd.element hf, hd.parent⟩
  · obtain ⟨sn, -, hget⟩ := h.faithful.declared hf hx hb
    rcases mem_fileTable hf (hx.plain hf) hget with ⟨rfl, -⟩ | ⟨-, -, hnil⟩
    · exact absurd rfl (hf.ne_declared hx)
    · rw [hnil] at hc
      cases hc

/-- The same session, some turnovers after `s`. -/
def Reach (std : Standard) (s s₁ s₂ : Session Desk) : Prop :=
  s₁ = s₂ ∧ ∃ t, Turnover std s.store t ∧ s₁ = withStore s t

theorem reach_self (h : Coherent std s.store) : Reach std s s s := ⟨rfl, s.store, .refl h, rfl⟩

/-- Requests for bodies keep a session within reach: an answer is a turnover of the store, and so is any number of
them. Queries are therefore alike on such a session and itself. -/
theorem answersAlike_reach (refusal : Refusal) (ha : std.Admits p s.world.files) :
    AnswersAlike p refusal (Reach std s) := by
  rintro e he s₁ s₂ ⟨rfl, t, hturn, rfl⟩
  obtain ⟨r, u, hrun, hopen⟩ :=
    run_openBody (s := withStore s t) refusal false hturn.coherent ha he
  exact ⟨r, _, _, hrun, hrun, ⟨rfl, u, hturn.trans hopen.turnover, rfl⟩,
    fun b hr c hc => hopen.turnover.coherent.child he (hopen.cached hr) hc⟩

/-- **Queries are turnovers** of the store: a session is related to itself, as far as turnovers lead, and requests
for bodies do not leave the relation. -/
theorem IsQuery.turnover {post : α → Prop} {x : Op Desk α} (hx : IsQuery p refusal post x)
    (h : Coherent std s.store) (ha : std.Admits p s.world.files) :
    ∃ r t, x.run s = (r, withStore s t) ∧ Turnover std s.store t := by
  obtain ⟨r, s', -, hrun, -, ⟨-, t, hturn, rfl⟩, -⟩ := hx _ (answersAlike_reach refusal ha) s s (reach_self h)
  exact ⟨r, t, hrun, hturn⟩

/-- What the answer to a request for a body says about presence. -/
def presence : Except Error Body → Except Error Bool
  | .ok _ => .ok true
  | .error error => if error.isMissing then .ok false else .error error

/-- Whether an element is there follows from what a request for its body is answered. -/
theorem run_isPresent (refusal : Refusal) (h : Coherent std s.store)
    (ha : std.Admits p s.world.files) (he : IsElement e) :
    ∃ t, (Session.isPresent (p.hosted refusal) e).run s =
        (presence (p.answer s.world.files s.store.cache.peek? e), withStore s t) ∧
      Turnover std s.store t := by
  by_cases hcached : s.store.isCached e = true
  · obtain ⟨b, hb⟩ := Option.isSome_iff_exists.mp hcached
    refine ⟨s.store, ?_, Turnover.refl h⟩
    rw [answer_of_known hb]
    simp only [Session.isPresent, Op.run_bind, run_ask, hcached, if_true]
    rfl
  · obtain ⟨r, t, hrun, hopen⟩ := run_openBody refusal false h ha he
    refine ⟨t, ?_, hopen.turnover⟩
    rw [← hopen.answer rfl]
    have hattempt : (liftM ((body (p.hosted refusal) e).attempt :
        Action Desk (Except Error Body)) : Op Desk (Except Error Body)).run s =
          (.ok r, withStore s t) :=
      congrArg (fun a : Except Error Body × Session Desk => (Except.ok a.1, a.2)) hrun
    simp only [Session.isPresent, Op.run_bind, run_ask, hcached, Bool.false_eq_true, if_false,
      hattempt]
    rcases r with error | b
    · simp only [presence]
      split <;> rfl
    · rfl

end CodeModel.Foo
