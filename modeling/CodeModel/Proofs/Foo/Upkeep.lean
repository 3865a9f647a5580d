import CodeModel.Proofs.Foo.Elements
import CodeModel.Proofs.Text.Versions
import CodeModel.Store

/-!
# Working copies that are left alone

What the operations on one working copy leave of the others: an operation on the working copy of one element
changes nothing of the **others** but their counts of references, and buffers only ever go on (`Upkeep`).
-/

namespace CodeModel.Foo

variable {besides : Handle → Prop} {s t u : Store} {e : Handle} {id : CopyId} {c : WorkingCopy}

/-! ## The others -/

/-- Of the working copies of all elements but some, nothing changes but their references. It composes
(`Upkeep.trans`), so it is shown of the small steps that operations consist of. -/
structure Upkeep (besides : Handle → Prop) (s t : Store) : Prop where
  /-- registrations stay -/
  copyOf : ∀ {e}, e.Plain lexicon → ¬ besides e → t.copyOf? e = s.copyOf? e
  /-- working copies stay, references apart -/
  copy : ∀ {id c}, s.copy? id = some c → ¬ besides c.element →
    ∃ n, t.copy? id = some { c with refs := n }
  /-- buffers go on -/
  buffer : ∀ {i b}, s.buffer? i = some b → ∃ b', t.buffer? i = some b' ∧ Later b b'
  /-- there are no other buffers -/
  length : t.buffers.length = s.buffers.length

/-- Where working copies and buffers are the same, all of them are left alone. -/
theorem Upkeep.of_eq (hr : t.registry = s.registry) (hc : t.copies = s.copies)
    (hb : t.buffers = s.buffers) : Upkeep besides s t := by
  refine ⟨fun _ _ => ?_, fun {id c} h _ => ⟨c.refs, ?_⟩, fun {i b} h => ⟨b, ?_, Later.refl b⟩,
    congrArg List.length hb⟩
  · rw [Store.copyOf?, hr, Store.copyOf?]
  · rwa [Store.copy?, hc]
  · rwa [Store.buffer?, hb]

theorem Upkeep.refl (s : Store) : Upkeep besides s s := Upkeep.of_eq rfl rfl rfl

/-- One thing after the other leaves alone what both of them do, and so does a whole run of things. -/
theorem Upkeep.trans (h : Upkeep besides s t) (k : Upkeep besides t u) : Upkeep besides s u := by
  refine ⟨fun he hne => (k.copyOf he hne).trans (h.copyOf he hne), fun hc hne => ?_, fun hb => ?_,
    k.length.trans h.length⟩
  · obtain ⟨n, hn⟩ := h.copy hc hne
    obtain ⟨m, hm⟩ := k.copy hn hne
    exact ⟨m, hm⟩
  · obtain ⟨b', hb', hlater⟩ := h.buffer hb
    obtain ⟨b'', hb'', hlater'⟩ := k.buffer hb'
    exact ⟨b'', hb'', hlater.trans hlater'⟩

/-- What is left alone besides nothing is left alone. -/
theorem Upkeep.mono {some' : Handle → Prop} (h : Upkeep besides s t)
    (himp : ∀ e, besides e → some' e) : Upkeep some' s t :=
  ⟨fun he hne => h.copyOf he fun hb => hne (himp _ hb),
    fun hc hne => h.copy hc fun hb => hne (himp _ hb), h.buffer, h.length⟩

/-! ## One step at a time -/

/-- Changing a buffer leaves working copies alone, if the buffer goes on. -/
theorem upkeep_modifyBuffer {i : BufferId} {f : Buffer → Buffer}
    (hf : ∀ b, s.buffer? i = some b → Later b (f b)) : Upkeep besides s (s.modifyBuffer i f) := by
  refine ⟨fun _ _ => rfl, fun {id c} h _ => ⟨c.refs, h⟩, fun {k b} h => ?_, by
    simp [Store.modifyBuffer]⟩
  by_cases hk : i = k
  · subst hk
    refine ⟨f b, ?_, hf b h⟩
    rw [Store.buffer?] at h
    simp [Store.modifyBuffer, Store.buffer?, h]
  · refine ⟨b, ?_, Later.refl b⟩
    rw [Store.buffer?] at h
    simp [Store.modifyBuffer, Store.buffer?, h, hk]

/-- Changing one working copy leaves the others alone. -/
theorem upkeep_modifyCopy {f : WorkingCopy → WorkingCopy}
    (hf : ∀ c, s.copy? id = some c → ¬ besides c.element → ∃ n, f c = { c with refs := n }) :
    Upkeep besides s (s.modifyCopy id f) := by
  refine ⟨fun _ _ => rfl, fun {k c} h hne => ?_, fun {k b} h => ⟨b, h, Later.refl b⟩, rfl⟩
  by_cases hk : id = k
  · subst hk
    obtain ⟨n, hn⟩ := hf c h hne
    refine ⟨n, ?_⟩
    rw [Store.copy?] at h
    simp [Store.modifyCopy, Store.copy?, h, hn]
  · refine ⟨c.refs, ?_⟩
    rw [Store.copy?] at h
    simp [Store.modifyCopy, Store.copy?, h, hk]

/-- One more reference changes nothing but the count. -/
theorem upkeep_retainCopy (s : Store) (id : CopyId) : Upkeep besides s (s.retainCopy id) := by
  rw [Store.retainCopy]
  split
  · exact (upkeep_modifyBuffer fun b _ => later_retain b).trans
      (upkeep_modifyCopy fun c _ _ => ⟨c.refs + 1, rfl⟩)
  · exact Upkeep.refl s

/-- One owner less changes nothing of a buffer but the count of its owners. -/
theorem upkeep_releaseBuffer (s : Store) (i : BufferId) : Upkeep besides s (s.releaseBuffer i).2 := by
  rw [Store.releaseBuffer]
  split
  · exact Upkeep.refl s
  · rename_i b hb
    obtain ⟨b₀, hb₀, hrel⟩ := Option.map_eq_some_iff.mp hb
    refine upkeep_modifyBuffer fun b' hb' => ?_
    obtain rfl := Option.some.inj (hb₀.symm.trans hb')
    exact later_release hrel
  · exact Upkeep.refl s

/-- One reference less changes nothing but counts, those of the buffer included. -/
theorem upkeep_releaseCopy (s : Store) (id : CopyId) : Upkeep besides s (s.releaseCopy id).2 := by
  rw [Store.releaseCopy]
  split
  · exact Upkeep.refl s
  · split
    · exact Upkeep.refl s
    · rename_i n _
      exact (upkeep_modifyCopy fun c _ _ => ⟨n, rfl⟩).trans (upkeep_releaseBuffer _ _)

/-- Taking an element out of the registry leaves the other elements in it. -/
theorem upkeep_unregister (h : Table.Plain lexicon s.registry) (he : e.Plain lexicon) :
    Upkeep (· = e) s (s.unregister e) := by
  refine ⟨fun {x} hx hne => ?_, fun {id c} hc _ => ⟨c.refs, hc⟩, fun {i b} hb => ⟨b, hb, Later.refl b⟩,
    rfl⟩
  have hreg : (s.unregister e).copyOf? x = Table.get? (Table.erase s.registry e) x := rfl
  rw [hreg, h.get?_erase he hx, if_neg hne]
  rfl

/-- Disposing of a working copy is about its element: it sets a mark on this copy, and those of other elements stay
as they are. -/
theorem upkeep_disposeCopy (hc : ∀ c, s.copy? id = some c → c.element = e) :
    Upkeep (· = e) s (s.disposeCopy id).2 :=
  upkeep_modifyCopy fun c h hne => absurd (hc c h) hne

/-- Letting go of a working copy that is not in force any longer touches no other one. -/
theorem upkeep_releaseStray (hc : ∀ c, s.copy? id = some c → c.element = e) :
    Upkeep (· = e) s (s.releaseStray id).2 := by
  have hrelease : Upkeep (· = e) s (s.releaseCopy id).2 := upkeep_releaseCopy s id
  rw [Store.releaseStray]
  rcases hr : s.releaseCopy id with ⟨error | _ | n, t⟩ <;> rw [hr] at hrelease
  · exact hrelease
  · refine hrelease.trans (upkeep_disposeCopy fun c hct => ?_)
    -- releasing has changed the count of references alone
    rcases hcs : s.copy? id with _ | c₀
    · rw [Store.releaseCopy, hcs] at hr
      cases hr
      exact absurd hct (by rw [hcs]; simp)
    · have hall : Upkeep (fun _ => False) s (s.releaseCopy id).2 := upkeep_releaseCopy s id
      obtain ⟨n, hn⟩ := hall.copy hcs not_false
      rw [hr] at hn
      cases hn.symm.trans hct
      exact hc c₀ hcs
  · exact hrelease

/-! ## What working copies have to do with the rest of the store -/

/-- The working copies and buffers of `s`, with everything else from `t`. Releasing and retaining look at nothing
else, so they do the same whatever stands beside the working copies. -/
def aside (s t : Store) : Store :=
  { t with buffers := s.buffers, copies := s.copies }

/-- Retaining a working copy looks at nothing beside. -/
theorem retainCopy_aside (s t : Store) (id : CopyId) :
    (aside s t).retainCopy id = aside (s.retainCopy id) t := by
  have hcopy : (aside s t).copy? id = s.copy? id := rfl
  rw [Store.retainCopy, hcopy, Store.retainCopy]
  rcases s.copy? id with _ | c <;> rfl

theorem releaseBuffer_aside (s t : Store) (i : BufferId) :
    (aside s t).releaseBuffer i = ((s.releaseBuffer i).1, aside (s.releaseBuffer i).2 t) := by
  have hbuffer : (aside s t).buffer? i = s.buffer? i := rfl
  rw [Store.releaseBuffer, hbuffer, Store.releaseBuffer]
  rcases (s.buffer? i).map Buffer.release with _ | _ | b <;> rfl

/-- Releasing a working copy looks at nothing beside. -/
theorem releaseCopy_aside (s t : Store) (id : CopyId) :
    (aside s t).releaseCopy id = ((s.releaseCopy id).1, aside (s.releaseCopy id).2 t) := by
  have hcopy : (aside s t).copy? id = s.copy? id := rfl
  rw [Store.releaseCopy, hcopy, Store.releaseCopy]
  rcases s.copy? id with _ | c
  · rfl
  · simp only
    rcases c.refs with _ | n
    · rfl
    · have hmodify : (aside s t).modifyCopy id (fun c => { c with refs := n }) =
          aside (s.modifyCopy id fun c => { c with refs := n }) t := rfl
      simp only [hmodify, releaseBuffer_aside]

/-- Letting go of a working copy that never came into force looks at nothing beside. -/
theorem releaseStray_aside (s t : Store) (id : CopyId) :
    (aside s t).releaseStray id = ((s.releaseStray id).1, aside (s.releaseStray id).2 t) := by
  rw [Store.releaseStray, releaseCopy_aside, Store.releaseStray]
  rcases s.releaseCopy id with ⟨_ | _ | n, u⟩ <;> rfl

end CodeModel.Foo
