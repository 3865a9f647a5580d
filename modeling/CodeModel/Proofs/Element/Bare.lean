import CodeModel.Proofs.Element.Lexicon

/-!
# Bare handles

Handles whose ancestors always matter are compared by kind names, names and occurrences alone, whatever
their kinds are otherwise. Without the one switch that no comparison looks at, such handles follow **one
lexicon**, so what is known under a lexicon can be used for them.

* The comparisons do not tell a handle from a **bare** one (`same_bare`, `sameChain_bare`).
* Parent-dependent handles match exactly if they are the same when bare (`same_iff_bare`).
-/

namespace CodeModel

/-- Each name stands for a kind without switches. -/
def simple : Lexicon := fun name => { name }

/-- The node without the switch for structure of its own. -/
def Node.bare (n : Node) : Node := { n with kind := { n.kind with openable := false } }

namespace Handle

variable {a b e p x : Handle}

/-- The handle without the switches for structure of its own. No comparison looks at these, so a handle and its bare
one find the same in every table; and bare handles of kinds that do not do without parents follow one lexicon. -/
def bare : Handle → Handle
  | .root n => .root n.bare
  | .child p n => .child p.bare n.bare

@[simp] theorem same_bare (a b : Handle) : a.bare.same b.bare = a.same b := by
  induction a generalizing b with
  | root m => cases b <;> rfl
  | child p m ih =>
    cases b with
    | root n => rfl
    | child q n => simp only [bare, same, ih q]; rfl

@[simp] theorem sameChain_bare (a b : Handle) : a.bare.sameChain b.bare = a.sameChain b := by
  induction a generalizing b with
  | root m => cases b <;> rfl
  | child p m ih =>
    cases b with
    | root n => rfl
    | child q n => simp only [bare, sameChain, ih q]; rfl

/-- The parent of a bare handle is the bare parent. -/
theorem parent?_bare (e : Handle) : e.bare.parent? = e.parent?.map bare := by
  cases e <;> rfl

theorem depth_bare (e : Handle) : e.bare.depth = e.depth := by
  induction e with
  | root n => rfl
  | child p n ih => rw [bare, depth, depth, ih]

instance decidableParentDependent : (e : Handle) → Decidable e.ParentDependent
  | .root n => inferInstanceAs (Decidable (n.kind.parentIndependent = false))
  | .child p n =>
    have := decidableParentDependent p
    inferInstanceAs (Decidable (p.ParentDependent ∧ n.kind.parentIndependent = false))

/-- Where ancestors always matter they do so one level up, so inductions along a chain stay among parent-dependent
handles. -/
theorem ParentDependent.parent (h : e.ParentDependent) (hp : e.parent? = some p) : p.ParentDependent := by
  cases e with
  | root n => cases hp
  | child q n =>
    obtain rfl := Option.some.inj hp
    exact h.1

/-- Bare parent-dependent handles are **plain** ones: without the switches a kind is told by its name alone. -/
theorem ParentDependent.plain_bare (h : e.ParentDependent) : e.bare.Plain simple := by
  have hnode : ∀ {n : Node}, n.kind.parentIndependent = false → n.bare.Follows simple := by
    intro n hn
    simp [Node.Follows, simple, Node.bare, hn]
  induction e with
  | root n => exact ⟨hnode h, h⟩
  | child p n ih => exact ⟨⟨(ih h.1).follows, hnode h.2⟩, (ih h.1).dependent, h.2⟩

theorem ParentDependent.follows_bare (h : e.ParentDependent) : e.bare.Follows simple := h.plain_bare.follows

/-- **Parent-dependent handles match** exactly if they are the same when bare. -/
theorem same_iff_bare (ha : a.ParentDependent) (hb : b.ParentDependent) :
    a.same b = true ↔ a.bare = b.bare := by
  rw [← same_bare]
  exact ha.plain_bare.same_iff hb.plain_bare

end Handle

end CodeModel
